import Mathlib.Logic.Function.Iterate
import Mathlib.Tactic.Common

/-! Trees that are given by the parent and the height of each node. -/
namespace Vapory
variable {α : Type*} {mem : α → Prop} {parent parent' : α → α} {height height' : α → ℕ} {x y : α}
  {k m n : ℕ}

/-- The nodes `mem` form a tree: one node has no height, and each other one is one above its
parent. -/
structure Rooted (mem : α → Prop) (parent : α → α) (height : α → ℕ) : Prop where
  root : ∀ x y, mem x → mem y → height x = 0 → height y = 0 → x = y
  parent : ∀ x, mem x → height x ≠ 0 → mem (parent x) ∧ height (parent x) + 1 = height x

def ancestor (parent : α → α) (height : α → ℕ) (x : α) (n : ℕ) : α := parent^[height x - n] x

theorem ancestor_self (x : α) : ancestor parent height x (height x) = x := by
  unfold ancestor
  rw [Nat.sub_self]
  rfl

namespace Rooted
variable (h : Rooted mem parent height)
include h

theorem iterate (hx : mem x) (hk : k ≤ height x) :
    mem (parent^[k] x) ∧ height (parent^[k] x) + k = height x := by
  induction k with
  | zero => exact ⟨hx, rfl⟩
  | succ k ih =>
    obtain ⟨hmem, hheight⟩ := ih (by omega)
    obtain ⟨hmem', hheight'⟩ := h.parent _ hmem (by omega)
    rw [Function.iterate_succ_apply']
    exact ⟨hmem', by omega⟩

theorem mem_ancestor (hx : mem x) (n : ℕ) : mem (ancestor parent height x n) :=
  (h.iterate hx (Nat.sub_le _ _)).1

theorem height_ancestor (hx : mem x) (hn : n ≤ height x) : height (ancestor parent height x n) = n := by
  have := (h.iterate hx (Nat.sub_le (height x) n)).2
  unfold ancestor
  omega

theorem ancestor_iterate (hx : mem x) (hk : k ≤ height x) (hn : n ≤ height x - k) :
    ancestor parent height (parent^[k] x) n = ancestor parent height x n := by
  have hheight := (h.iterate hx hk).2
  unfold ancestor
  rw [← Function.iterate_add_apply]
  congr 1
  omega

theorem ancestor_ancestor (hx : mem x) (hm : m ≤ height x) (hn : n ≤ m) :
    ancestor parent height (ancestor parent height x m) n = ancestor parent height x n :=
  h.ancestor_iterate hx (Nat.sub_le _ _) (by omega)

theorem meet (hx : mem x) (hy : mem y) (hxy : height x = height y) :
    parent^[height x] x = parent^[height x] y := by
  obtain ⟨hmemx, hheightx⟩ := h.iterate hx (Nat.le_refl _)
  obtain ⟨hmemy, hheighty⟩ := h.iterate hy (Nat.le_of_eq hxy)
  exact h.root _ _ hmemx hmemy (by omega) (by omega)

theorem ancestor_congr (hparent : ∀ z, mem z → parent' z = parent z)
    (hheight : ∀ z, mem z → height' z = height z) (hx : mem x) (n : ℕ) :
    ancestor parent' height' x n = ancestor parent height x n := by
  have hiterate (k : ℕ) (hk : k ≤ height x) : parent'^[k] x = parent^[k] x := by
    induction k with
    | zero => rfl
    | succ k ih =>
      rw [Function.iterate_succ_apply', Function.iterate_succ_apply', ih (by omega),
        hparent _ (h.iterate hx (by omega)).1]
  unfold ancestor
  rw [hheight x hx]
  exact hiterate _ (Nat.sub_le _ _)

end Rooted
end Vapory
