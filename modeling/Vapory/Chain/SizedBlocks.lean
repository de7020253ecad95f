import Mathlib.Tactic.Abel
import Vapory.Chain.BlockQueue

/-! `SizedBlockMap` and `SizedBlockQueue` of `BlockQueue.h` with their count of bytes, a
`std::size_t`. -/
namespace Vapory
open List

def movedBytes (_ : Bytes) : Bytes := []

/-- `SizedBlockMap`. -/
structure CountedMap (K : Type) where
  map : SizedBlockMap K
  size : BitVec 64

namespace CountedMap
variable {K : Type}

def heldBytes (m : SizedBlockMap K) : ℕ := (m.map fun e => e.2.2.length).sum

def empty : CountedMap K := ⟨[], 0⟩

def count (m : CountedMap K) : ℕ := m.map.length

/-- `removeRange`, of the entries that `r` takes out of the map. -/
def remove (m : CountedMap K) (r : SizedBlockMap K × List (H256 × Bytes)) :
    CountedMap K × List (H256 × Bytes) :=
  (⟨r.1, m.size - BitVec.ofNat 64 (r.2.map fun b => b.2.length).sum⟩, r.2)

theorem heldBytes_append (m m' : SizedBlockMap K) :
    heldBytes (m ++ m') = heldBytes m + heldBytes m' := by
  simp [heldBytes]

section
variable [LT K] [DecidableLT K] [DecidableEq K]

/-- `insert`. The bytes are counted after they were moved into the map. -/
def insert (m : CountedMap K) (key : K) (hash : H256) (blockData : Bytes) : CountedMap K :=
  ⟨m.map.insert key hash blockData, m.size + BitVec.ofNat 64 (movedBytes blockData).length⟩

def removeByKeyEqual (m : CountedMap K) (key : K) : CountedMap K × List (H256 × Bytes) :=
  m.remove (m.map.removeByKeyEqual key)

def removeByKeyNotGreater (m : CountedMap K) (key : K) : CountedMap K × List (H256 × Bytes) :=
  m.remove (m.map.removeByKeyNotGreater key)

inductive Op (K : Type) where
  | insert (key : K) (hash : H256) (blockData : Bytes)
  | removeByKeyEqual (key : K)
  | removeByKeyNotGreater (key : K)
  | clear

def step (m : CountedMap K) : Op K → CountedMap K
  | .insert key hash blockData => m.insert key hash blockData
  | .removeByKeyEqual key => (m.removeByKeyEqual key).1
  | .removeByKeyNotGreater key => (m.removeByKeyNotGreater key).1
  | .clear => .empty

def run (ops : List (Op K)) : CountedMap K := ops.foldl step .empty

/-- The bytes that came in since the map was last cleared, of which `n` before this operation. -/
def Op.inserted (n : ℕ) : Op K → ℕ
  | .insert _ _ blockData => n + blockData.length
  | .clear => 0
  | _ => n

def inserted (ops : List (Op K)) : ℕ := ops.foldl Op.inserted 0

omit [DecidableEq K] in
theorem heldBytes_insert (m : SizedBlockMap K) (key : K) (hash : H256) (blockData : Bytes) :
    heldBytes (m.insert key hash blockData) = heldBytes m + blockData.length := by
  have hsplit : heldBytes m = heldBytes (m.takeWhile (¬ key < ·.1)) + heldBytes
    (m.dropWhile (¬ key < ·.1)) := by
    rw [← heldBytes_append, takeWhile_append_dropWhile]
  have hcons : heldBytes ((key, hash, blockData) :: m.dropWhile (¬ key < ·.1)) =
    blockData.length + heldBytes (m.dropWhile (¬ key < ·.1)) :=
    sum_cons
  rw [SizedBlockMap.insert, heldBytes_append, hcons, hsplit]
  omega

omit [LT K] [DecidableLT K] in
theorem heldBytes_removeByKeyEqual (m : SizedBlockMap K) (key : K) :
    heldBytes m = heldBytes (m.removeByKeyEqual key).1 + ((m.removeByKeyEqual key).2.map fun b =>
      b.2.length).sum := by
  have hperm : (m.filter (·.1 ≠ key) ++ m.filter (·.1 = key)).Perm m := by
    have hnot : m.filter (·.1 = key) = m.filter fun e => !decide (e.1 ≠ key) := by simp
    rw [hnot]
    exact filter_append_perm _ m
  have hsum : heldBytes (m.filter (·.1 ≠ key) ++ m.filter (·.1 = key)) = heldBytes m :=
    (hperm.map _).sum_eq
  rw [← hsum, heldBytes_append, SizedBlockMap.removeByKeyEqual, map_map]
  rfl

omit [DecidableEq K] in
theorem heldBytes_removeByKeyNotGreater (m : SizedBlockMap K) (key : K) :
    heldBytes m = heldBytes (m.removeByKeyNotGreater key).1 + ((m.removeByKeyNotGreater key).2.map
      fun b => b.2.length).sum := by
  have hsplit : heldBytes m = heldBytes (m.takeWhile (¬ key < ·.1)) + heldBytes
    (m.dropWhile (¬ key < ·.1)) := by
    rw [← heldBytes_append, takeWhile_append_dropWhile]
  rw [hsplit, Nat.add_comm, SizedBlockMap.removeByKeyNotGreater, map_map]
  rfl

/-- The count is short of the bytes that came in. -/
def Short (m : CountedMap K) (n : ℕ) : Prop :=
  m.size + BitVec.ofNat 64 n = BitVec.ofNat 64 (heldBytes m.map)

omit [LT K] [DecidableLT K] [DecidableEq K] in
theorem Short.remove {m : CountedMap K} {n : ℕ} (h : Short m n)
    {r : SizedBlockMap K × List (H256 × Bytes)}
    (hr : heldBytes m.map = heldBytes r.1 + (r.2.map fun b => b.2.length).sum) :
    Short (m.remove r).1 n := by
  unfold Short at h ⊢
  rw [hr, BitVec.ofNat_add] at h
  have hsize : m.size = BitVec.ofNat 64 (heldBytes r.1) + BitVec.ofNat 64
    (r.2.map fun b => b.2.length).sum - BitVec.ofNat 64 n :=
    eq_sub_of_add_eq h
  change m.size - _ + _ = _
  rw [hsize]
  abel

theorem Short.step {m : CountedMap K} {n : ℕ} (h : Short m n) (op : Op K) :
    Short (m.step op) (op.inserted n) := by
  cases op with
  | insert key hash blockData =>
    unfold Short at h ⊢
    change m.size + 0 + BitVec.ofNat 64 (n + blockData.length) = BitVec.ofNat 64
      (heldBytes (m.map.insert key hash blockData))
    rw [heldBytes_insert, BitVec.ofNat_add, BitVec.ofNat_add, ← h]
    abel
  | removeByKeyEqual key => exact h.remove (heldBytes_removeByKeyEqual _ _)
  | removeByKeyNotGreater key => exact h.remove (heldBytes_removeByKeyNotGreater _ _)
  | clear => rfl

theorem short_run (ops : List (Op K)) : Short (run ops) (inserted ops) := by
  have hgeneral : ∀ (ops : List (Op K)) (m : CountedMap K) (n : ℕ), Short m n →
    Short (ops.foldl step m) (ops.foldl Op.inserted n) := by
    intro ops
    induction ops with
    | nil => exact fun _ _ h => h
    | cons op ops ih => exact fun m n h => ih (m.step op) (op.inserted n) (h.step op)
  exact hgeneral ops .empty 0 rfl

theorem size_eq_iff (ops : List (Op K)) :
    (run ops).size = BitVec.ofNat 64 (heldBytes (run ops).map) ↔ 2 ^ 64 ∣ inserted ops := by
  have h := short_run ops
  unfold Short at h
  rw [← h, left_eq_add, ← BitVec.toNat_inj, BitVec.toNat_ofNat]
  exact (Nat.dvd_iff_mod_eq_zero ..).symm

end

end CountedMap

namespace BlockQueue
open CountedMap
variable {K K' : Type} [LT K] [DecidableLT K] [DecidableEq K] [LT K'] [DecidableLT K']
  [DecidableEq K']

def maxUnknownCount : ℕ := 100000

def maxUnknownSize : ℕ := 512 * 1024 * 1024

/-- `unknownFull`, of `m_future` and `m_unknown`. -/
def unknownFull (future : CountedMap K) (unknown : CountedMap K') : Bool :=
  maxUnknownSize < (future.size + unknown.size).toNat ∨ maxUnknownCount < future.count + unknown.count

/-- After any operations on the two maps, the count of a map is the bytes that it holds if and only
if the bytes that came in since it was last cleared are none, modulo the range of the count. If this
is so of both, `unknownFull` is right. -/
theorem unknownFull_exact (future : List (Op K)) (unknown : List (Op K')) :
    ((run future).size = BitVec.ofNat 64 (heldBytes (run future).map) ↔ 2 ^ 64 ∣ inserted future) ∧
      ((run unknown).size = BitVec.ofNat 64 (heldBytes (run unknown).map) ↔ 2 ^ 64 ∣ inserted unknown) ∧
      (2 ^ 64 ∣ inserted future → 2 ^ 64 ∣ inserted unknown →
        heldBytes (run future).map + heldBytes (run unknown).map < 2 ^ 64 →
        (unknownFull (run future) (run unknown) = true ↔
          maxUnknownSize < heldBytes (run future).map + heldBytes (run unknown).map ∨
          maxUnknownCount < (run future).map.length + (run unknown).map.length)) := by
  refine ⟨size_eq_iff future, size_eq_iff unknown, fun hfuture hunknown hlt => ?_⟩
  have hsize : ((run future).size + (run unknown).size).toNat =
    heldBytes (run future).map + heldBytes (run unknown).map := by
    rw [(size_eq_iff future).mpr hfuture, (size_eq_iff unknown).mpr hunknown, ← BitVec.ofNat_add,
      BitVec.toNat_ofNat]
    exact Nat.mod_eq_of_lt hlt
  unfold unknownFull
  rw [hsize, decide_eq_true_eq]
  rfl

theorem unknownFull_exact_cleared :
    unknownFull (run [Op.insert 5 1 [7], .clear]) (run [Op.insert (9 : H256) 1 []]) = true ↔
      maxUnknownSize < 0 ∨ maxUnknownCount < 1 :=
  (unknownFull_exact [Op.insert 5 1 [7], .clear] [Op.insert (9 : H256) 1 []]).2.2 (by decide)
    (by decide) (by decide)

/-- A block that came in and went leaves the two maps full. -/
theorem unknownFull_emptied :
    let future : CountedMap ℕ := run [.insert 5 1 [7], .removeByKeyNotGreater 5]
    future.map = [] ∧ future.size = BitVec.allOnes 64 ∧ unknownFull future (run (K := H256) []) = true ∧
      (run (K := ℕ) [.insert 5 1 [7]]).size = 0 := by
  decide

end BlockQueue

/-- The elements of a `SizedBlockQueue`, and what is left of one that was moved. -/
class MovableBlock (α : Type) where
  blockData : α → Bytes
  moved : α → α
  blockData_moved : ∀ x, blockData (moved x) = []

instance : MovableBlock UnverifiedBlock :=
  ⟨UnverifiedBlock.blockData, UnverifiedBlock.moved, fun _ => rfl⟩

structure SizedBlockQueue (α : Type) where
  queue : List α
  size : BitVec 64

namespace SizedBlockQueue
open MovableBlock
variable {α : Type} [MovableBlock α] {q : SizedBlockQueue α} {pred : α → Bool}

def bytes (l : List α) : ℕ := (l.map fun x => (blockData x).length).sum

/-- `removeIf`, with `removeRange` of what is found behind the elements that stay. -/
def removeIf (q : SizedBlockQueue α) (pred : α → Bool) : SizedBlockQueue α × List α :=
  let r := Vapory.removeIf moved pred q.queue
  (⟨r.1, q.size - BitVec.ofNat 64 (bytes r.2)⟩, r.2)

/-- What `removeIf` is for. -/
structure Removes (q : SizedBlockQueue α) (pred : α → Bool) : Prop where
  returned : (q.removeIf pred).2 = q.queue.filter pred
  kept : (q.removeIf pred).1.queue = q.queue.filter fun x => !pred x
  size : (q.removeIf pred).1.size = BitVec.ofNat 64 (bytes (q.queue.filter fun x => !pred x))

theorem bytes_filter (l : List α) (pred : α → Bool) :
    bytes l = bytes (l.filter pred) + bytes (l.filter fun x => !pred x) := by
  have hsum : bytes (l.filter pred ++ l.filter fun x => !pred x) = bytes l :=
    ((filter_append_perm pred l).map _).sum_eq
  rw [← hsum]
  simp [bytes]

/-- The blocks that match are returned and taken off the count if they all stand at the end of the
queue. For a predicate that does not look at what a move takes away this is so only then. -/
theorem removeIf_exact (hsize : q.size = BitVec.ofNat 64 (bytes q.queue)) :
    (AtEnd pred q.queue → q.Removes pred) ∧
    ((∀ x, pred (moved x) = pred x) → q.Removes pred → AtEnd pred q.queue) := by
  constructor
  · intro hend
    have hreturned : (Vapory.removeIf moved pred q.queue).2 = q.queue.filter pred := removeIf_of_atEnd hend
    refine ⟨hreturned, rfl, ?_⟩
    change q.size - BitVec.ofNat 64 (bytes (Vapory.removeIf moved pred q.queue).2) = _
    rw [hreturned, hsize, bytes_filter q.queue pred, BitVec.ofNat_add]
    abel
  · intro hpred hremoves
    by_contra hend
    obtain ⟨x, -, hx, hmoved⟩ := exists_moved_of_not_atEnd hend
    have hmem : moved x ∈ q.queue.filter pred := hremoves.returned ▸ hmoved
    rw [mem_filter, hpred, hx] at hmem
    exact Bool.false_ne_true hmem.2

def exampleQueue : SizedBlockQueue UnverifiedBlock := ⟨[⟨1, 0, [7]⟩, ⟨2, 0, [8, 9]⟩], 3⟩

theorem removeIf_exact_last : exampleQueue.Removes (·.hash = 2) :=
  (removeIf_exact (q := exampleQueue) rfl).1 (by decide)

/-- Of the first block only the second is returned, without its bytes, and the count stays. -/
theorem removeIf_first : exampleQueue.removeIf (·.hash = 1) =
    (⟨[⟨2, 0, [8, 9]⟩], 3⟩, [⟨2, 0, []⟩]) ∧ bytes exampleQueue.queue = 3 :=
  ⟨rfl, rfl⟩

end SizedBlockQueue
end Vapory
