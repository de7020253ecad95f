import Mathlib.Data.List.Basic
import Mathlib.Order.Lattice

/-! The insertion of an element into a search tree, seen on the list of its elements. The comparison
may throw, and it need not be the one by which the elements came to their places. -/
namespace Vapory
open List

variable {α : Type} {lt : α → α → Option Bool} {l : List α} {x : α} {i : ℕ}

/-- A leaf is compared with both of its neighbours on the way to its place. -/
structure Placement.Fits (lt : α → α → Option Bool) (l : List α) (x : α) (i : ℕ) : Prop where
  le_length : i ≤ l.length
  left : ∀ p ∈ (l.take i).getLast?, lt x p = some false
  right : ∀ s ∈ (l.drop i).head?, lt x s = some true

/-- The list with `x` at `i`. -/
def insertAt (l : List α) (i : ℕ) (x : α) : List α := l.take i ++ x :: l.drop i

structure Placement (α : Type) where
  place : (α → α → Option Bool) → List α → α → Option ℕ
  fits : ∀ {lt l x i}, place lt l x = some i → Placement.Fits lt l x i
  throws : ∀ {lt l x}, place lt l x = none → ∃ y ∈ l, lt x y = none

theorem mem_insertAt {y : α} : y ∈ insertAt l i x ↔ y = x ∨ y ∈ l := by
  have hsplit : y ∈ l ↔ y ∈ l.take i ∨ y ∈ l.drop i := by
    rw [← mem_append, take_append_drop]
  rw [insertAt, mem_append, mem_cons, hsplit]
  tauto

theorem insertAt_perm (l : List α) (i : ℕ) (x : α) : (insertAt l i x).Perm (x :: l) := by
  have h : (l.take i ++ x :: l.drop i).Perm (x :: (l.take i ++ l.drop i)) := perm_middle
  rwa [take_append_drop] at h

theorem Placement.exists_fits (p : Placement α) (lt : α → α → Option Bool) (l : List α) (x : α)
    (h : ∀ y ∈ l, lt x y ≠ none) : ∃ i, p.place lt l x = some i ∧ Placement.Fits lt l x i := by
  cases hi : p.place lt l x with
  | none =>
    obtain ⟨y, hy, hn⟩ := p.throws hi
    exact absurd hn (h y hy)
  | some i => exact ⟨i, rfl, p.fits hi⟩

namespace Placement

/-- The elements that are passed from the back, of a list in reverse. -/
def scan (lt : α → α → Option Bool) (x : α) : List α → Option ℕ
  | [] => some 0
  | y :: l =>
    match lt x y with
    | none => none
    | some false => some (l.length + 1)
    | some true => scan lt x l

theorem fits_scan {r : List α} (h : scan lt x r = some i) : i ≤ r.length ∧
    (∀ p ∈ (r.reverse.take i).getLast?, lt x p = some false) ∧
    (∀ s ∈ (r.reverse.drop i).head?, lt x s = some true) := by
  induction r with
  | nil =>
    cases h
    simp
  | cons y r ih =>
    rw [scan] at h
    cases hy : lt x y with
    | none =>
      rw [hy] at h
      cases h
    | some b =>
      rw [hy] at h
      cases b with
      | false =>
        cases h
        simp [take_of_length_le, hy]
      | true =>
        obtain ⟨hle, hl, hr⟩ := ih h
        have hlen : i ≤ r.reverse.length := by simpa using hle
        refine ⟨by simp; omega, ?_, ?_⟩
        · rwa [reverse_cons, take_append_of_le_length hlen]
        · rw [reverse_cons, drop_append_of_le_length hlen]
          intro s hs
          cases hd : r.reverse.drop i with
          | nil =>
            rw [hd] at hs
            cases hs
            exact hy
          | cons z zs =>
            rw [hd] at hs hr
            exact hr s hs

theorem throws_scan {r : List α} (h : scan lt x r = none) : ∃ y ∈ r, lt x y = none := by
  induction r with
  | nil => cases h
  | cons y r ih =>
    rw [scan] at h
    cases hy : lt x y with
    | none => exact ⟨y, mem_cons_self, hy⟩
    | some b =>
      rw [hy] at h
      cases b with
      | false => cases h
      | true =>
        obtain ⟨z, hz, hn⟩ := ih h
        exact ⟨z, mem_cons_of_mem y hz, hn⟩

def fromBack : Placement α where
  place lt l x := scan lt x l.reverse
  fits h := by
    obtain ⟨hle, hl, hr⟩ := fits_scan h
    rw [reverse_reverse] at hl hr
    exact ⟨by simpa using hle, hl, hr⟩
  throws h := by
    obtain ⟨y, hy, hn⟩ := throws_scan h
    exact ⟨y, mem_reverse.mp hy, hn⟩

end Placement
end Vapory
