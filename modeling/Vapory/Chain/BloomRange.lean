import Vapory.Chain.BloomSearch

/-! The range of the search for blooms. The last chunk of the top level is computed by rounding up,
so the chunk after the one that holds the end of the range is searched as well, and searched
whole. -/
namespace Vapory.BlockChain
open LevelIndex
variable {c : BlockChain} {b : LogBloom} {earliest latest n : ℕ}

/-- The entries of a number on both levels contain the bloom. -/
def Marked (c : BlockChain) (b : LogBloom) (n : ℕ) : Prop :=
  bloomContains (c.bloomAt 1 (n / 16)) b = true ∧ bloomContains (c.bloomAt 0 n) b = true

/-- Where the numbers of the chunk after the range stand, no end of the range is looked for. -/
theorem mem_search_after (hle : earliest ≤ latest) (hn : n / 256 = latest / 256 + 1) :
    n ∈ search 16 c.bloomAt (bloomContains · b) earliest latest 1 (n / 256) ↔
    Marked c b n := by
  have hzero : LevelIndex.Scanned 16 earliest latest 0 n := by
    unfold LevelIndex.Scanned firstOffset endOffset
    rw [if_neg (by omega), if_neg (by omega)]
    omega
  have hone : LevelIndex.Scanned 16 earliest latest 1 n := by
    unfold LevelIndex.Scanned firstOffset endOffset
    rw [if_neg (by omega), if_neg (by omega)]
    omega
  rw [mem_search_iff (by omega)]
  constructor
  · intro hmem
    have h0 := (hmem.2 0 (by omega)).2
    rw [Nat.pow_zero, Nat.div_one] at h0
    exact ⟨(hmem.2 1 (by omega)).2, h0⟩
  · intro hmarked
    refine ⟨rfl, fun l hl => ?_⟩
    rcases Nat.le_one_iff_eq_zero_or_eq_one.mp hl with rfl | rfl
    · rw [Nat.pow_zero, Nat.div_one]
      exact ⟨hzero, hmarked.2⟩
    · exact ⟨hone, hmarked.1⟩

/-- The last chunk that is searched is the one of the end of the range, or the one after it. -/
theorem ceilDiv_cases (hlatest : latest < 2 ^ 32) :
    (latest % 256 = 0 ∨ 2 ^ 32 - 256 < latest) ∧ ceilDiv latest 256 ≤ latest / 256 ∨
      (latest % 256 ≠ 0 ∧ latest ≤ 2 ^ 32 - 256) ∧ ceilDiv latest 256 = latest / 256 + 1 := by
  unfold ceilDiv
  omega

/-- The numbers ascend, none is before the range, and the entry of each contains the bloom. None is
after the range exactly if the end of the range is a multiple of 256 or within the last 255 numbers,
or the next 256 numbers have no marks. -/
theorem withBlockBloom_range (c : BlockChain) (b : LogBloom) (earliest latest : ℕ)
    (hle : earliest ≤ latest) (hlatest : latest < 2 ^ 32) :
    (((withBlockBloom b earliest latest).run c).1.Pairwise (· < ·) ∧
      ∀ n ∈ ((withBlockBloom b earliest latest).run c).1, earliest ≤ n ∧
      bloomContains (c.bloomAt 0 n) b = true) ∧
    ((∀ n ∈ ((withBlockBloom b earliest latest).run c).1, n ≤ latest) ↔
      latest % 256 = 0 ∨ 2 ^ 32 - 256 < latest ∨ ∀ n, n / 256 = latest / 256 + 1 → ¬ Marked c b n) := by
  have hresult : ((withBlockBloom b earliest latest).run c).1 = c.searched b earliest latest :=
    (withBlockBloom_spec c b earliest latest).1
  constructor
  · constructor
    · rw [hresult]
      exact pairwise_flatMap_search (by omega) (List.pairwise_lt_range' 1) fun _ =>
        pairwise_search (by omega)
    · intro n hn
      obtain ⟨hbegin, -, hsearch⟩ := (mem_withBlockBloom c).mp hn
      have hcontains := (((mem_search_iff (by omega)).mp hsearch).2 0 (by omega)).2
      rw [Nat.pow_zero, Nat.div_one] at hcontains
      exact ⟨le_of_mem_search (by omega) hbegin hsearch, hcontains⟩
  · -- a number that is found belongs to a chunk up to the last one
    have hwithin (n : ℕ) (hn : n ∈ ((withBlockBloom b earliest latest).run c).1)
      (hindex : n / 256 ≤ latest / 256) : n ≤ latest :=
      mem_search_le (by omega) hindex ((mem_withBlockBloom c).mp hn).2.2
    have hexact : latest % 256 = 0 ∨ 2 ^ 32 - 256 < latest →
      ∀ n ∈ ((withBlockBloom b earliest latest).run c).1, n ≤ latest := by
      intro hcases n hn
      have hend := ((mem_withBlockBloom c).mp hn).2.1
      rcases ceilDiv_cases hlatest with ⟨-, hceil⟩ | ⟨hnot, -⟩
      · exact hwithin n hn (hend.trans hceil)
      · omega
    constructor
    · intro hall
      rcases ceilDiv_cases hlatest with ⟨hmultiple | hlast, -⟩ | ⟨-, hceil⟩
      · exact .inl hmultiple
      · exact .inr (.inl hlast)
      · refine .inr (.inr fun n hn hmarked => ?_)
        have hbegin : earliest / 256 ≤ n / 256 := by omega
        have hend : n / 256 ≤ ceilDiv latest 256 := by omega
        have hfound :=
          hall n ((mem_withBlockBloom c).mpr ⟨hbegin, hend, (mem_search_after hle hn).mpr hmarked⟩)
        omega
    · intro hcases
      rcases hcases with hmultiple | hlast | hnone
      · exact hexact (.inl hmultiple)
      · exact hexact (.inr hlast)
      · intro n hn
        rcases ceilDiv_cases hlatest with ⟨hexact', -⟩ | ⟨-, hceil⟩
        · exact hexact hexact' n hn
        · obtain ⟨-, hend, hsearch⟩ := (mem_withBlockBloom c).mp hn
          rcases Nat.lt_or_ge (latest / 256) (n / 256) with hafter | hbefore
          · have hchunk : n / 256 = latest / 256 + 1 := by omega
            exact absurd ((mem_search_after hle hchunk).mp hsearch) (hnone n hchunk)
          · exact hwithin n hn hbefore

/-- A chain of 256 blocks, each with a bloom. -/
theorem withBlockBloom_range_example : ∃ c, c.lastBlockNumber = 256 ∧
    (((withBlockBloom 1 3 256).run c).1.Pairwise (· < ·) ∧
      ∀ n ∈ ((withBlockBloom 1 3 256).run c).1, 3 ≤ n ∧ bloomContains (c.bloomAt 0 n) 1 = true) ∧
    ((∀ n ∈ ((withBlockBloom 1 3 256).run c).1, n ≤ 256) ↔
      256 % 256 = 0 ∨ 2 ^ 32 - 256 < 256 ∨ ∀ n, n / 256 = 256 / 256 + 1 → ¬ Marked c 1 n) := by
  obtain ⟨c, h⟩ := exists_exampleChain 256 (by norm_num)
  exact ⟨c, h.number, withBlockBloom_range c 1 3 256 (by norm_num) (by norm_num)⟩

/-- The chain is searched up to its tenth block: the last one is found, too. -/
theorem withBlockBloom_after_range :
    ∃ c, Relation.ReflTransGen (BloomStep tailHasher) exampleGenesis c ∧ c.lastBlockNumber = 256 ∧
    256 ∈ ((withBlockBloom 1 0 10).run c).1 := by
  obtain ⟨c, h⟩ := exists_exampleChain 256 (by norm_num)
  have hmark (level : ℕ) (hlevel : level < 2) :
    bloomContains (c.bloomAt level (256 / 16 ^ level)) 1 = true := by
    have hbloom := h.bloomed.logBloom_le (n := 256) h.number.ge hlevel
    rw [h.canonical 256 (by omega) le_rfl] at hbloom
    exact hbloom
  refine ⟨c, h.run, h.number, (mem_withBlockBloom c).mpr ⟨by norm_num, by decide, ?_⟩⟩
  exact (mem_search_after (by norm_num) (by norm_num)).mpr
    ⟨hmark 1 (by norm_num), hmark 0 (by norm_num)⟩

end Vapory.BlockChain
