import Mathlib.Data.List.Sort

/-! Binary search in a sorted list, by halving as the standard library does. -/
namespace Vapory
variable {α : Type*} [LinearOrder α]

/-- `std::lower_bound` in the `len` elements from `first` on, for at most so many turns. -/
def lowerBound (xs : List α) (v : α) : ℕ → ℕ → ℕ → ℕ
  | 0, first, _ => first
  | n + 1, first, len =>
    match len with
    | 0 => first
    | len + 1 =>
      let half := (len + 1) / 2
      match xs[first + half]? with
      | none => first
      | some x =>
        if x < v then lowerBound xs v n (first + half + 1) (len - half) else lowerBound xs v n first half

/-- `std::binary_search`. -/
def binarySearch (xs : List α) (v : α) : Bool :=
  match xs[lowerBound xs v xs.length 0 xs.length]? with
  | none => false
  | some x => !(v < x)

/-- Exactly the elements before `i` are below `v`. -/
def Parts (xs : List α) (v : α) (i : ℕ) : Prop := ∀ j x, xs[j]? = some x → (x < v ↔ j < i)

theorem parts_lowerBound {xs : List α} {v : α} (hs : xs.SortedLE) (n first len : ℕ) (hn : len ≤ n)
    (hlen : first + len ≤ xs.length) (hlow : ∀ j x, j < first → xs[j]? = some x → x < v)
    (hhigh : ∀ j x, first + len ≤ j → xs[j]? = some x → ¬ x < v) :
    Parts xs v (lowerBound xs v n first len) := by
  have hparts {first : ℕ} (hlow : ∀ j x, j < first → xs[j]? = some x → x < v)
      (hhigh : ∀ j x, first ≤ j → xs[j]? = some x → ¬ x < v) : Parts xs v first :=
    fun j x hx => ⟨fun hlt => not_le.mp fun hj => hhigh j x hj hx hlt, fun hj => hlow j x hj hx⟩
  have hle {j k : ℕ} {x y : α} (hjk : j ≤ k) (hx : xs[j]? = some x) (hy : xs[k]? = some y) : x ≤ y := by
    obtain ⟨hj, rfl⟩ := List.getElem?_eq_some_iff.mp hx
    obtain ⟨hk, rfl⟩ := List.getElem?_eq_some_iff.mp hy
    exact hs.monotone_get (a := ⟨j, hj⟩) (b := ⟨k, hk⟩) hjk
  induction n generalizing first len with
  | zero =>
    obtain rfl : len = 0 := by omega
    exact hparts hlow hhigh
  | succ n ih =>
    cases len with
    | zero => exact hparts hlow hhigh
    | succ len =>
      have hmid : first + (len + 1) / 2 < xs.length := by omega
      have hget := List.getElem?_eq_getElem hmid
      simp only [lowerBound, hget]
      split_ifs with hlt
      · -- the middle and all before it are below `v`
        refine ih _ _ (by omega) (by omega) (fun j x hj hx => ?_) fun j x hj hx => hhigh j x (by omega) hx
        exact (hle (by omega) hx hget).trans_lt hlt
      · -- the middle and all after it are not
        refine ih _ _ (by omega) (by omega) hlow fun j x hj hx hx' => ?_
        exact hlt ((hle hj hget hx).trans_lt hx')

theorem binarySearch_iff {xs : List α} (hs : xs.SortedLE) (v : α) :
    binarySearch xs v = true ↔ v ∈ xs := by
  have hparts : Parts xs v (lowerBound xs v xs.length 0 xs.length) := by
    refine parts_lowerBound hs _ _ _ le_rfl (by omega) (fun j x hj => absurd hj (by omega))
      fun j x hj hx => ?_
    rw [List.getElem?_eq_none (by omega)] at hx
    cases hx
  unfold binarySearch
  generalize lowerBound xs v xs.length 0 xs.length = i at hparts
  constructor
  · intro h
    split at h
    · cases h
    · rename_i x hx
      have hle : x ≤ v := by simpa using h
      have hnot : ¬ x < v := fun hlt => absurd ((hparts i x hx).mp hlt) (lt_irrefl i)
      rw [le_antisymm (not_lt.mp hnot) hle]
      exact List.mem_of_getElem? hx
  · intro h
    obtain ⟨j, hj⟩ := List.getElem?_of_mem h
    have hij : i ≤ j := not_lt.mp fun hlt => lt_irrefl v ((hparts j v hj).mpr hlt)
    obtain ⟨hjlt, hvj⟩ := List.getElem?_eq_some_iff.mp hj
    have hi : i < xs.length := hij.trans_lt hjlt
    rw [List.getElem?_eq_getElem hi]
    have hle := hs.monotone_get (a := ⟨i, hi⟩) (b := ⟨j, hjlt⟩) hij
    simpa [← hvj] using hle

end Vapory
