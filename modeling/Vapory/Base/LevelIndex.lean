import Mathlib.Algebra.Group.Nat.Defs
import Mathlib.Data.Nat.Init
import Mathlib.Tactic.Common

/-! An index in levels: an entry on a level stands for `size` entries on the level below it, and
those on the lowest level for numbers. The numbers of a range are searched for from a level
downwards. -/
namespace Vapory.LevelIndex
variable {L : Type} (size : ℕ) (entry : ℕ → ℕ → L) (contains : L → Bool) (earliest latest : ℕ)

/-- The first entry to look at among those that stand under one of the next level. -/
def firstOffset (level index : ℕ) : ℕ :=
  if index = earliest / size ^ (level + 1) then earliest / size ^ level % size else 0

def endOffset (level index : ℕ) : ℕ :=
  if index = latest / size ^ (level + 1) then latest / size ^ level % size + 1 else size

def hits (level index : ℕ) : List ℕ :=
  let begin_ := firstOffset size earliest level index
  ((List.range' begin_ (endOffset size latest level index - begin_)).map fun o =>
    o + index * size).filter fun item => contains (entry level item)

def search : ℕ → ℕ → List ℕ
  | 0, index => hits size entry contains earliest latest 0 index
  | level + 1, index =>
    (hits size entry contains earliest latest (level + 1) index).flatMap (search level)

variable {size entry contains earliest latest} {level index n : ℕ}

theorem mem_hits {item : ℕ} : item ∈ hits size entry contains earliest latest level index ↔
    (∃ o, firstOffset size earliest level index ≤ o ∧ o < endOffset size latest level index ∧
      item = o + index * size) ∧ contains (entry level item) = true := by
  unfold hits
  simp only [List.mem_filter, List.mem_map, List.mem_range'_1]
  apply and_congr_left
  intro _
  constructor
  · intro hmem
    obtain ⟨o, ho, rfl⟩ := hmem
    exact ⟨o, ho.1, by omega, rfl⟩
  · intro hmem
    obtain ⟨o, hbegin, hend, rfl⟩ := hmem
    exact ⟨o, ⟨hbegin, by omega⟩, rfl⟩

/-- If entries have the same one above them, their order is that of their offsets. -/
theorem mod_le_mod_of_div_eq {m k : ℕ} (hmk : m ≤ k) (hdiv : m / size = k / size) :
    m % size ≤ k % size := by
  have hm := Nat.div_add_mod m size
  have hk := Nat.div_add_mod k size
  rw [hdiv] at hm
  omega

theorem div_of_mem_hits (hsize : 0 < size) {item : ℕ}
    (hmem : item ∈ hits size entry contains earliest latest level index) : item / size = index := by
  obtain ⟨⟨o, -, hend, rfl⟩, -⟩ := mem_hits.mp hmem
  have ho : o < size := by
    apply Nat.lt_of_lt_of_le hend
    unfold endOffset
    split_ifs
    · exact Nat.mod_lt _ hsize
    · exact Nat.le_refl _
  rw [Nat.add_mul_div_right _ _ hsize, Nat.div_eq_of_lt ho, Nat.zero_add]

/-- The entry of `n` on a level is among those that are looked at. -/
def Scanned (size earliest latest level n : ℕ) : Prop :=
  firstOffset size earliest level (n / size ^ (level + 1)) ≤ n / size ^ level % size ∧
    n / size ^ level % size < endOffset size latest level (n / size ^ (level + 1))

theorem div_pow_succ (n level : ℕ) : n / size ^ (level + 1) = n / size ^ level / size := by
  rw [Nat.pow_succ, Nat.div_div_eq_div_mul]

theorem scanned_of_range (hsize : 0 < size) (hbegin : earliest ≤ n) (hend : n ≤ latest) :
    Scanned size earliest latest level n := by
  have hsplit (k : ℕ) : k / size ^ (level + 1) = k / size ^ level / size := div_pow_succ k level
  constructor
  · unfold firstOffset
    split_ifs with hsame
    · rw [hsplit, hsplit] at hsame
      exact mod_le_mod_of_div_eq (Nat.div_le_div_right hbegin) hsame.symm
    · exact Nat.zero_le _
  · unfold endOffset
    split_ifs with hsame
    · rw [hsplit, hsplit] at hsame
      exact Nat.lt_succ_of_le (mod_le_mod_of_div_eq (Nat.div_le_div_right hend) hsame)
    · exact Nat.mod_lt _ hsize

theorem mem_hits_div (hsize : 0 < size) :
    n / size ^ level ∈ hits size entry contains earliest latest level index ↔
    n / size ^ (level + 1) = index ∧ Scanned size earliest latest level n ∧
    contains (entry level (n / size ^ level)) = true := by
  constructor
  · intro hmem
    have hindex := div_of_mem_hits hsize hmem
    rw [← div_pow_succ] at hindex
    obtain ⟨⟨o, hbegin, hend, hitem⟩, hcontains⟩ := mem_hits.mp hmem
    subst hindex
    have ho : n / size ^ level % size = o := by
      have hmod := Nat.mod_add_div (n / size ^ level) size
      rw [← div_pow_succ, Nat.mul_comm] at hmod
      omega
    exact ⟨rfl, ⟨ho ▸ hbegin, ho ▸ hend⟩, hcontains⟩
  · intro hmem
    obtain ⟨rfl, ⟨hbegin, hend⟩, hcontains⟩ := hmem
    refine mem_hits.mpr ⟨⟨_, hbegin, hend, ?_⟩, hcontains⟩
    rw [div_pow_succ, Nat.mul_comm]
    exact (Nat.mod_add_div _ _).symm

theorem mem_search_iff (hsize : 0 < size) :
    n ∈ search size entry contains earliest latest level index ↔ n / size ^ (level + 1) = index ∧
      ∀ l ≤ level, Scanned size earliest latest l n ∧ contains (entry l (n / size ^ l)) = true := by
  induction level generalizing index with
  | zero =>
    have hhit : n / size ^ 0 ∈ hits size entry contains earliest latest 0 index ↔ _ := mem_hits_div hsize
    rw [Nat.pow_zero, Nat.div_one] at hhit
    rw [search, hhit]
    apply and_congr_right
    intro _
    constructor
    · intro hzero l hl
      obtain rfl : l = 0 := Nat.le_zero.mp hl
      rwa [Nat.pow_zero, Nat.div_one]
    · intro hall
      have hzero := hall 0 (Nat.le_refl _)
      rwa [Nat.pow_zero, Nat.div_one] at hzero
  | succ level ih =>
    rw [search, List.mem_flatMap]
    constructor
    · intro hmem
      obtain ⟨item, hitem, hn⟩ := hmem
      obtain ⟨rfl, hbelow⟩ := ih.mp hn
      obtain ⟨hindex, hhere⟩ := (mem_hits_div hsize).mp hitem
      refine ⟨hindex, fun l hl => ?_⟩
      rcases Nat.lt_or_ge level l with hlt | hle
      · obtain rfl : l = level + 1 := by omega
        exact hhere
      · exact hbelow l hle
    · intro hmem
      obtain ⟨hindex, hall⟩ := hmem
      refine ⟨n / size ^ (level + 1), (mem_hits_div hsize).mpr ⟨hindex, hall _ (Nat.le_refl _)⟩,
        ih.mpr ⟨rfl, ?_⟩⟩
      exact fun l hl => hall l (Nat.le_succ_of_le hl)

theorem mem_search (hsize : 0 < size) (hbegin : earliest ≤ n) (hend : n ≤ latest)
    (hindex : n / size ^ (level + 1) = index)
    (hcontains : ∀ l ≤ level, contains (entry l (n / size ^ l)) = true) :
    n ∈ search size entry contains earliest latest level index :=
  (mem_search_iff hsize).mpr ⟨hindex, fun l hl => ⟨scanned_of_range hsize hbegin hend, hcontains l hl⟩⟩

theorem div_of_mem_search (hsize : 0 < size)
    (hmem : n ∈ search size entry contains earliest latest level index) :
    n / size ^ (level + 1) = index := ((mem_search_iff hsize).mp hmem).1

section
variable (hsize : 0 < size)
include hsize

theorem le_of_mem_search (hindex : earliest / size ^ (level + 1) ≤ index)
    (hmem : n ∈ search size entry contains earliest latest level index) : earliest ≤ n := by
  obtain ⟨rfl, hall⟩ := (mem_search_iff hsize).mp hmem
  -- from the level above down: an entry in the group of the first one is not before it
  have hlevel (l : ℕ) (hl : l ≤ level + 1) : earliest / size ^ l ≤ n / size ^ l := by
    induction hl using Nat.decreasingInduction with
    | self => exact hindex
    | of_succ l hl ih =>
      have hscan := (hall l (by omega)).1.1
      unfold firstOffset at hscan
      have he := Nat.mod_add_div (earliest / size ^ l) size
      have hn := Nat.mod_add_div (n / size ^ l) size
      rw [← div_pow_succ] at he hn
      split_ifs at hscan with hsame
      · rw [hsame] at hn
        omega
      · have hlt : earliest / size ^ (l + 1) + 1 ≤ n / size ^ (l + 1) := by omega
        have hmul := Nat.mul_le_mul_left size hlt
        have hmod := Nat.mod_lt (earliest / size ^ l) hsize
        rw [Nat.mul_add, Nat.mul_one] at hmul
        omega
  have hzero := hlevel 0 (Nat.zero_le _)
  rwa [Nat.pow_zero, Nat.div_one, Nat.div_one] at hzero

theorem mem_search_le (hindex : index ≤ latest / size ^ (level + 1))
    (hmem : n ∈ search size entry contains earliest latest level index) : n ≤ latest := by
  obtain ⟨rfl, hall⟩ := (mem_search_iff hsize).mp hmem
  have hlevel (l : ℕ) (hl : l ≤ level + 1) : n / size ^ l ≤ latest / size ^ l := by
    induction hl using Nat.decreasingInduction with
    | self => exact hindex
    | of_succ l hl ih =>
      have hscan := (hall l (by omega)).1.2
      unfold endOffset at hscan
      have he := Nat.mod_add_div (latest / size ^ l) size
      have hn := Nat.mod_add_div (n / size ^ l) size
      rw [← div_pow_succ] at he hn
      split_ifs at hscan with hsame
      · rw [hsame] at hn
        omega
      · have hlt : n / size ^ (l + 1) + 1 ≤ latest / size ^ (l + 1) := by omega
        have hmul := Nat.mul_le_mul_left size hlt
        have hmod := Nat.mod_lt (n / size ^ l) hsize
        rw [Nat.mul_add, Nat.mul_one] at hmul
        omega
  have hzero := hlevel 0 (Nat.zero_le _)
  rwa [Nat.pow_zero, Nat.div_one, Nat.div_one] at hzero

theorem pairwise_flatMap_search {items : List ℕ} (hitems : items.Pairwise (· < ·))
    (hsearch : ∀ item, (search size entry contains earliest latest level item).Pairwise (· < ·)) :
    (items.flatMap (search size entry contains earliest latest level)).Pairwise (· < ·) := by
  rw [List.pairwise_flatMap]
  refine ⟨fun item _ => hsearch item, hitems.imp fun {item item'} hlt m hm k hk => ?_⟩
  rw [← div_of_mem_search hsize hm, ← div_of_mem_search hsize hk] at hlt
  exact Nat.lt_of_div_lt_div hlt

omit hsize in
theorem pairwise_hits : (hits size entry contains earliest latest level index).Pairwise (· < ·) := by
  unfold hits
  apply List.Pairwise.filter
  rw [List.pairwise_map]
  have hrange := List.pairwise_lt_range' (s := firstOffset size earliest level index)
    (n := endOffset size latest level index - firstOffset size earliest level index) 1
  exact hrange.imp fun hlt => Nat.add_lt_add_right hlt _

theorem pairwise_search :
    (search size entry contains earliest latest level index).Pairwise (· < ·) := by
  induction level generalizing index with
  | zero => exact pairwise_hits
  | succ level ih => exact pairwise_flatMap_search hsize pairwise_hits fun item => ih

end

end Vapory.LevelIndex
