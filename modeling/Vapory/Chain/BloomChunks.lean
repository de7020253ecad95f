import Vapory.Chain.BloomSearch

/-! The chunks of blooms that insertion, clearing and search come to, and the ids they have in the
database. -/
namespace Vapory.BlockChain
open List

variable {H : Hasher} {c c' : BlockChain} {b : LogBloom} {begin_ end_ earliest latest : ℕ}
  {chunk : ℕ × ℕ}

/-- The chunks of `insertBlockAndExtras`, for a block of the route. -/
def insertedChunks (number : ℕ) : List (ℕ × ℕ) :=
  (List.range 2).map fun level => (level, number / 16 ^ level / 16)

/-- The items of `for (unsigned item = begin; item != end; ++item)`. -/
def items (begin_ end_ : ℕ) : List ℕ :=
  (List.range ((end_ + 2 ^ 32 - begin_) % 2 ^ 32)).map fun k => (begin_ + k) % 2 ^ 32

/-- The chunks of `clearBlockBlooms`: that of each item, and on the upper level also the one that it
is rebuilt from. -/
def clearedChunks (begin_ end_ : ℕ) : List (ℕ × ℕ) :=
  (items begin_ end_).map (fun item => (0, item / 16)) ++
    (items (begin_ / 16) ((end_ + 2 ^ 32 - 1) % 2 ^ 32 / 16 + 1)).flatMap fun item =>
    [(0, item), (1, item / 16)]

/-- The chunks of `withBlockBloom` on a level, if the blooms lead to all of them. -/
def searchedOn (earliest latest : ℕ) : ℕ → ℕ → List (ℕ × ℕ)
  | level, index =>
    let uCourse := upow 16 (level + 1)
    let uFine := upow 16 level
    let obegin := if index = earliest / uCourse then earliest / uFine % 16 else 0
    let oend := if index = latest / uCourse then latest / uFine % 16 + 1 else 16
    match level with
    | 0 => [(0, index)]
    | level + 1 =>
      (level + 1, index) :: (List.range' obegin (oend - obegin)).flatMap fun o =>
        searchedOn earliest latest level (o + index * 16)

/-- The chunks of `withBlockBloom`. -/
def searchedChunks (earliest latest : ℕ) : List (ℕ × ℕ) :=
  let u := upow 16 2
  (List.range' (earliest / u) (ceilDiv latest u + 1 - earliest / u)).flatMap
    (searchedOn earliest latest 1)

/-! No other chunks are changed. -/

theorem mem_items (hbegin : begin_ < 2 ^ 32) {item : ℕ} :
    item ∈ items begin_ end_ ↔ Passes begin_ end_ item := by
  unfold items Passes
  rw [mem_map]
  constructor
  · intro hitem
    obtain ⟨k, hk, rfl⟩ := hitem
    have hlt := mem_range.mp hk
    omega
  · intro hitem
    exact ⟨(item + 2 ^ 32 - begin_) % 2 ^ 32, mem_range.mpr hitem.2, by omega⟩

theorem addBloom_of_notMem {tbi : BlockHeader}
    (h : chunk ∉ insertedChunks (tbi.number.toNat % 2 ^ 32)) :
    (c.addBloom H tbi).blocksBlooms chunk = c.blocksBlooms chunk := by
  unfold addBloom
  dsimp only
  rw [if_neg]
  intro hchunk
  refine h (mem_map.mpr ⟨chunk.1, mem_range.mpr hchunk.1, ?_⟩)
  exact Prod.ext rfl hchunk.2.symm

theorem setBlooms_of_notMem {level : ℕ} {acc : ℕ → LogBloom} (hbegin : begin_ < 2 ^ 32)
    (h : ∀ item ∈ items begin_ end_, chunk ≠ (level, item / 16)) :
    (c.setBlooms level begin_ end_ acc).blocksBlooms chunk = c.blocksBlooms chunk := by
  unfold setBlooms
  dsimp only
  rw [if_neg]
  intro hchunk
  obtain ⟨hlevel, offset, hoffset, hpass⟩ := hchunk
  refine h _ ((mem_items hbegin).mpr hpass) (Prod.ext hlevel ?_)
  change chunk.2 = (chunk.2 * 16 + offset) / 16
  omega

theorem clearBlockBlooms_of_notMem (hbegin : begin_ < 2 ^ 32) (h : chunk ∉ clearedChunks begin_ end_) :
    (c.clearBlockBlooms begin_ end_).blocksBlooms chunk = c.blocksBlooms chunk := by
  rw [clearedChunks, mem_append, not_or] at h
  have hlower : ∀ item ∈ items begin_ end_, chunk ≠ (0, item / 16) := by
    intro item hitem heq
    exact h.1 (mem_map.mpr ⟨item, hitem, heq.symm⟩)
  have hupper : ∀ item ∈ items (begin_ / 16) ((end_ + 2 ^ 32 - 1) % 2 ^ 32 / 16 + 1),
    chunk ≠ (1, item / 16) := by
    intro item hitem heq
    exact h.2 (mem_flatMap.mpr ⟨item, hitem, by simp [heq]⟩)
  unfold clearBlockBlooms
  dsimp only
  rw [setBlooms_of_notMem (by omega) hupper, setBlooms_of_notMem hbegin hlower]

/-- The cache is as `m` but for some chunks. -/
def SameBut (m : ℕ × ℕ → Option BlocksBlooms) (touched : List (ℕ × ℕ)) (c : BlockChain) : Prop :=
  ∀ chunk ∉ touched, c.blocksBlooms chunk = m chunk

variable {m : ℕ × ℕ → Option BlocksBlooms} {touched : List (ℕ × ℕ)} {level index : ℕ}

theorem keepsS_queryBlocksBlooms (h : (level, index) ∈ touched) :
    KeepsS (SameBut m touched) (queryBlocksBlooms level index) := by
  intro c hc
  apply (queryBlocksBlooms_spec c level index).mono
  intro blooms c' hquery chunk hchunk
  rw [hquery.2.2 chunk fun heq => hchunk (heq ▸ h), hc chunk hchunk]

theorem keepsS_withBlockBloomOn
    (h : ∀ chunk ∈ searchedOn earliest latest level index, chunk ∈ touched) :
    KeepsS (SameBut m touched) (withBlockBloomOn b earliest latest level index) := by
  induction level generalizing index with
  | zero =>
    unfold withBlockBloomOn
    exact (keepsS_queryBlocksBlooms (h _ (by simp [searchedOn]))).bind fun _ => keepsS_pure _
  | succ level ih =>
    unfold searchedOn at h
    unfold withBlockBloomOn
    dsimp only at h ⊢
    apply (keepsS_queryBlocksBlooms (h _ mem_cons_self)).bind
    intro bb
    apply (keepsS_mapM _).bind fun _ => keepsS_pure _
    intro o ho
    apply ih
    intro chunk hchunk
    exact h _ (mem_cons_of_mem _ (mem_flatMap.mpr ⟨o, (mem_filter.mp ho).1, hchunk⟩))

theorem withBlockBloom_of_notMem (c : BlockChain) (b : LogBloom) (earliest latest : ℕ) :
    Post (withBlockBloom b earliest latest) c fun _ c' =>
    SameBut c.blocksBlooms (searchedChunks earliest latest) c' := by
  have hkeeps : KeepsS (SameBut c.blocksBlooms (searchedChunks earliest latest))
    (withBlockBloom b earliest latest) := by
    unfold withBlockBloom
    apply (keepsS_mapM _).bind fun _ => keepsS_pure _
    intro index hindex
    exact keepsS_withBlockBloomOn fun chunk hchunk => mem_flatMap.mpr ⟨index, hindex, hchunk⟩
  exact hkeeps c fun _ _ => rfl

/-! The ids. -/

/-- What comes to the chunks: a block of the route to a new head, the clearing of the blocks after a
common one up to the last, and a search. -/
inductive BloomUse where
  | insert (number : ℕ)
  | clear (common last : ℕ)
  | search (earliest latest : ℕ)

namespace BloomUse

def chunks : BloomUse → List (ℕ × ℕ)
  | insert number => insertedChunks number
  | clear common last => clearedChunks ((common + 1) % 2 ^ 32) ((last + 1) % 2 ^ 32)
  | search earliest latest => searchedChunks earliest latest

/-- The numbers fit `unsigned`, and the common block is not after the last one. -/
def Below : BloomUse → Prop
  | insert number => number < 2 ^ 32
  | clear common last => common ≤ last ∧ last < 2 ^ 32
  | search earliest latest => earliest < 2 ^ 32 ∧ latest < 2 ^ 32

end BloomUse

/-- A chunk of numbers below 2^32. -/
def InRange (chunk : ℕ × ℕ) : Prop := chunk.1 < 2 ∧ chunk.2 * 16 ^ (chunk.1 + 1) < 2 ^ 32

theorem inRange_inserted {number : ℕ} (hnumber : number < 2 ^ 32)
    (h : chunk ∈ insertedChunks number) : InRange chunk := by
  obtain ⟨level, hlevel, rfl⟩ := mem_map.mp h
  rw [mem_range] at hlevel
  refine ⟨hlevel, ?_⟩
  interval_cases level <;> dsimp only <;> omega

theorem inRange_cleared {common last : ℕ} (hle : common ≤ last) (hlast : last < 2 ^ 32)
    (h : chunk ∈ clearedChunks ((common + 1) % 2 ^ 32) ((last + 1) % 2 ^ 32)) : InRange chunk := by
  rcases mem_append.mp h with h | h
  · obtain ⟨item, hitem, rfl⟩ := mem_map.mp h
    have hpass := (mem_items (by omega)).mp hitem
    unfold Passes at hpass
    constructor <;> dsimp only <;> omega
  · obtain ⟨item, hitem, hchunk⟩ := mem_flatMap.mp h
    have hpass := (mem_items (by omega)).mp hitem
    -- the items of the upper level end with that of the last number, and do not wrap
    have hitem : item < 2 ^ 28 := by
      unfold Passes at hpass
      omega
    rcases mem_pair.mp hchunk with rfl | rfl <;> constructor <;> dsimp only <;> omega

theorem searchedOn_bound (h : chunk ∈ searchedOn earliest latest level index) :
    chunk.1 ≤ level ∧ chunk.2 * 16 ^ (chunk.1 + 1) < (index + 1) * 16 ^ (level + 1) := by
  have hhead (l i : ℕ) : i * 16 ^ (l + 1) < (i + 1) * 16 ^ (l + 1) :=
    Nat.mul_lt_mul_of_pos_right (Nat.lt_succ_self i) (by positivity)
  induction level generalizing index with
  | zero =>
    unfold searchedOn at h
    rw [mem_singleton.mp h]
    exact ⟨le_rfl, hhead 0 index⟩
  | succ level ih =>
    unfold searchedOn at h
    dsimp only at h
    rcases mem_cons.mp h with rfl | h
    · exact ⟨le_rfl, hhead (level + 1) index⟩
    · obtain ⟨o, ho, h⟩ := mem_flatMap.mp h
      have hlt : o < 16 := by
        have hrange := mem_range'_1.mp ho
        split_ifs at hrange <;> omega
      obtain ⟨hlevel, hbound⟩ := ih h
      refine ⟨by omega, hbound.trans_le ?_⟩
      calc (o + index * 16 + 1) * 16 ^ (level + 1) ≤ ((index + 1) * 16) * 16 ^ (level + 1) :=
        Nat.mul_le_mul_right _ (by omega)
        _ = (index + 1) * 16 ^ (level + 1 + 1) := by ring

theorem inRange_searched (h : chunk ∈ searchedChunks earliest latest) : InRange chunk := by
  obtain ⟨index, hindex, h⟩ := mem_flatMap.mp h
  obtain ⟨hlevel, hbound⟩ := searchedOn_bound h
  refine ⟨by omega, hbound.trans_le ?_⟩
  -- `ceilDiv` wraps before it comes to 2^24
  have hlt : index < 2 ^ 24 := by
    have hrange := mem_range'_1.mp hindex
    rw [upow_eq le_rfl] at hrange
    unfold ceilDiv at hrange
    omega
  omega

theorem BloomUse.inRange {u : BloomUse} (hu : u.Below) (h : chunk ∈ u.chunks) : InRange chunk := by
  cases u with
  | insert number => exact inRange_inserted hu h
  | clear common last => exact inRange_cleared hu.1 hu.2 h
  | search earliest latest => exact inRange_searched h

/-- Insertion, clearing and search change no chunks but those of their use, and all that are used
for numbers below 2^32 have different ids. -/
theorem chunkId_injOn :
    (∀ (H : Hasher) (c : BlockChain) (tbi : BlockHeader),
      SameBut c.blocksBlooms (BloomUse.insert (tbi.number.toNat % 2 ^ 32)).chunks (c.addBloom H tbi)) ∧
    (∀ (c : BlockChain) (common last : ℕ),
      SameBut c.blocksBlooms (BloomUse.clear common last).chunks
      (c.clearBlockBlooms ((common + 1) % 2 ^ 32) ((last + 1) % 2 ^ 32))) ∧
    (∀ (c : BlockChain) (b : LogBloom) (earliest latest : ℕ),
      SameBut c.blocksBlooms (BloomUse.search earliest latest).chunks
      ((withBlockBloom b earliest latest).run c).2) ∧
    Set.InjOn (fun chunk : ℕ × ℕ => chunkId chunk.1 chunk.2)
    {chunk | ∃ u : BloomUse, u.Below ∧ chunk ∈ u.chunks} := by
  refine ⟨fun H c tbi chunk h => addBloom_of_notMem h, fun c common last chunk h =>
    clearBlockBlooms_of_notMem (by omega) h, fun c b earliest latest =>
      withBlockBloom_of_notMem c b earliest latest, ?_⟩
  intro chunk hused chunk' hused' heq
  obtain ⟨u, hu, hchunk⟩ := hused
  obtain ⟨u', hu', hchunk'⟩ := hused'
  have hrange := BloomUse.inRange hu hchunk
  have hrange' := BloomUse.inRange hu' hchunk'
  obtain ⟨hlevel, hindex⟩ := chunkId_inj hrange.1 hrange'.1 hrange.2 hrange'.2 heq
  exact Prod.ext hlevel hindex

end Vapory.BlockChain
