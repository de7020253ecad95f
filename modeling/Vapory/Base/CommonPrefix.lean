import Mathlib.Data.List.Infix

/-! The longest common prefix of two lists. -/
namespace Vapory

variable {α : Type*} [DecidableEq α]

def commonPrefix : List α → List α → List α
  | a :: k, b :: q => if a = b then a :: commonPrefix k q else []
  | _, _ => []

theorem length_commonPrefix_eq_right {k q : List α} :
    (commonPrefix k q).length = q.length ↔ q <+: k := by
  induction k generalizing q with
  | nil => cases q <;> simp [commonPrefix]
  | cons a k ih =>
    cases q with
    | nil => simp [commonPrefix]
    | cons b q =>
      rw [commonPrefix, List.cons_prefix_cons]
      by_cases hab : a = b
      · rw [if_pos hab, List.length_cons, List.length_cons, Nat.add_right_cancel_iff, ih]
        exact ⟨fun h => ⟨hab.symm, h⟩, fun h => h.2⟩
      · simp [hab, Ne.symm hab]

end Vapory
