import Mathlib.Data.List.GetD
import Vapory.Base.BigEndian

/-! Slices of a list that goes on with a default for ever. -/
namespace Vapory.Padding
open List BigEndian

variable {α : Type}

/-- So many elements from `start` on. -/
def padded (l : List α) (d : α) (start count : ℕ) : List α :=
  (List.range count).map fun i => l.getD (start + i) d

@[simp] theorem length_padded (l : List α) (d : α) (start count : ℕ) :
    (padded l d start count).length = count := by
  rw [padded, length_map, length_range]

theorem padded_eq_append (l : List α) (d : α) (start count : ℕ) : padded l d start count =
    (l.drop start).take count ++ List.replicate (count - ((l.drop start).take count).length) d := by
  refine ext_getElem ?_ fun i hi _ => ?_
  · rw [length_padded, length_append, length_replicate, length_take]
    omega
  · rw [length_padded] at hi
    simp only [padded, getElem_map, getElem_range, getElem_append]
    by_cases hthere : start + i < l.length
    · have htake : i < ((l.drop start).take count).length := by
        rw [length_take, length_drop]
        omega
      rw [dif_pos htake, getElem_take, getElem_drop, getD_eq_getElem _ _ hthere]
    · have htake : ¬ i < ((l.drop start).take count).length := by
        rw [length_take, length_drop]
        omega
      rw [dif_neg htake, getElem_replicate, getD_eq_default _ _ (not_lt.mp hthere)]

theorem value_append_zeroes (bs : List UInt8) (k : ℕ) :
    value (bs ++ List.replicate k 0) = value bs <<< (8 * k) := by
  induction k with
  | zero => simp
  | succ k ih =>
    rw [replicate_succ', ← append_assoc, value_append_singleton, ih, Nat.shiftLeft_eq,
      Nat.shiftLeft_eq]
    simp only [UInt8.toNat_zero, Nat.add_zero, Nat.mul_add, Nat.mul_one, pow_add, Nat.mul_assoc]
    rfl

theorem value_padded (bs : List UInt8) (start count : ℕ) : value (padded bs 0 start count) =
    value ((bs.drop start).take count) <<<
    (8 * (count - ((bs.drop start).take count).length)) := by
  rw [padded_eq_append, value_append_zeroes]

theorem value_padded_lt (bs : List UInt8) (start count : ℕ) :
    value (padded bs 0 start count) < 256 ^ count := by
  have h := value_lt (padded bs 0 start count)
  rwa [length_padded] at h

end Vapory.Padding
