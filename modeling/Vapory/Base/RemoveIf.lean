import Mathlib.Data.List.TakeWhile
import Mathlib.Tactic.Common

/-! What `std::remove_if` leaves in a sequence. -/
namespace Vapory
open List

variable {α : Type*} {moved : α → α} {pred : α → Bool} {l : List α}

/-- The elements that stay, which go to the front, and what is found behind them then: the elements
that stood there, some of which were `moved` away. -/
def removeIf (moved : α → α) (pred : α → Bool) (l : List α) : List α × List α :=
  let kept := l.filter fun x => !pred x
  (kept, (l.drop kept.length).map fun x => if pred x then x else moved x)

/-- Behind an element that matches there are only such. -/
def AtEnd (pred : α → Bool) (l : List α) : Prop := ∀ x ∈ l.dropWhile fun x => !pred x, pred x = true

instance : Decidable (AtEnd pred l) := inferInstanceAs (Decidable (∀ _ ∈ _, _))

theorem length_removeIf (moved : α → α) (pred : α → Bool) (l : List α) :
    (removeIf moved pred l).1.length + (removeIf moved pred l).2.length = l.length := by
  have hle := length_filter_le (fun x => !pred x) l
  simp only [removeIf, length_map, length_drop]
  omega

theorem removeIf_eq_nil : (removeIf moved pred l).2 = [] ↔ ∀ x ∈ l, pred x = false := by
  have hlength := length_removeIf moved pred l
  rw [← length_eq_zero_iff]
  have hfilter : (removeIf moved pred l).1.length = l.length ↔ ∀ x ∈ l, pred x = false := by
    rw [removeIf, length_filter_eq_length_iff]
    simp
  rw [← hfilter]
  omega

theorem atEnd_of_none (h : ∀ x ∈ l, pred x = false) : AtEnd pred l := by
  have hnil : l.dropWhile (fun x => !pred x) = [] := by
    apply dropWhile_eq_nil_iff.mpr
    intro x hx
    rw [h x hx]
    rfl
  unfold AtEnd
  rw [hnil]
  exact fun x hx => absurd hx not_mem_nil

/-- Only then are the elements that are returned the ones that were to be removed. -/
theorem removeIf_of_atEnd (h : AtEnd pred l) : (removeIf moved pred l).2 = l.filter pred := by
  have hsplit := takeWhile_append_dropWhile (p := fun x => !pred x) (l := l)
  have htake : ∀ x ∈ l.takeWhile (fun x => !pred x), (!pred x) = true := fun x hx =>
    mem_takeWhile_imp (p := fun x => !pred x) hx
  generalize l.takeWhile (fun x => !pred x) = front at hsplit htake
  generalize hback : l.dropWhile (fun x => !pred x) = back at hsplit
  have hdrop : ∀ x ∈ back, pred x = true := hback ▸ h
  subst hsplit
  have hfront : front.filter (fun x => !pred x) = front := filter_eq_self.mpr htake
  have hnone : back.filter (fun x => !pred x) = [] := filter_eq_nil_iff.mpr (by simpa using hdrop)
  have hfront' : front.filter pred = [] := filter_eq_nil_iff.mpr (by simpa using htake)
  have hback' : back.filter pred = back := filter_eq_self.mpr hdrop
  simp only [removeIf, filter_append, hfront, hnone, hfront', hback', append_nil, drop_left, nil_append]
  calc back.map (fun x => if pred x then x else moved x)
      = back.map id := map_congr_left fun x hx => if_pos (hdrop x hx)
    _ = back := map_id back

/-- What is returned stood behind an element that was to be removed, or was this itself. -/
theorem behind_of_mem_removeIf {y : α} (h : y ∈ (removeIf moved pred l).2) :
    ∃ x ∈ l.dropWhile fun x => !pred x, y = x ∨ y = moved x := by
  obtain ⟨x, hx, rfl⟩ := mem_map.mp h
  refine ⟨x, ?_, ite_eq_or_eq _ _ _⟩
  have hsplit := takeWhile_append_dropWhile (p := fun x => !pred x) (l := l)
  have hfront : (l.takeWhile fun x => !pred x).filter (fun x => !pred x) =
      l.takeWhile fun x => !pred x :=
    filter_eq_self.mpr fun x hx => mem_takeWhile_imp (p := fun x => !pred x) hx
  have hle : (l.takeWhile fun x => !pred x).length ≤ (l.filter fun x => !pred x).length := by
    rw [← hfront]
    exact ((takeWhile_sublist _).filter _).length_le
  have hback : (l.takeWhile (fun x => !pred x) ++ l.dropWhile fun x => !pred x).drop
      (l.takeWhile fun x => !pred x).length = l.dropWhile fun x => !pred x := drop_left
  rw [hsplit] at hback
  exact hback ▸ drop_subset_drop_left l hle hx

theorem dropWhile_subset {l' : List α} {p p' : α → Bool} (h : l'.Sublist l)
    (hp : ∀ x, p x = true → p' x = true) : l'.dropWhile p' ⊆ l.dropWhile p := by
  induction h with
  | slnil => exact List.Subset.refl _
  | cons x h ih =>
    rw [dropWhile_cons]
    split_ifs
    · exact ih
    · exact ((dropWhile_sublist _).trans (h.cons x)).subset
  | cons_cons x h ih =>
    rw [dropWhile_cons (p := p)]
    split_ifs with hx
    · rw [dropWhile_cons, if_pos (hp x hx)]
      exact ih
    · exact ((dropWhile_sublist _).trans (h.cons_cons x)).subset

theorem exists_moved_of_not_atEnd (h : ¬ AtEnd pred l) :
    ∃ x ∈ l, pred x = false ∧ moved x ∈ (removeIf moved pred l).2 := by
  by_contra hnone
  push Not at hnone
  have hdrop : ∀ x ∈ l.drop (l.filter fun x => !pred x).length, pred x = true := by
    intro x hx
    by_contra hstays
    refine hnone x (mem_of_mem_drop hx) (Bool.eq_false_iff.mpr hstays) ?_
    exact mem_map.mpr ⟨x, hx, if_neg hstays⟩
  generalize hk : (l.filter fun x => !pred x).length = k at hdrop
  have hfilter : (l.drop k).filter (fun x => !pred x) = [] := by
    rw [filter_eq_nil_iff]
    intro x hx
    rw [hdrop x hx]
    exact Bool.false_ne_true
  have hlength : ((l.take k).filter fun x => !pred x).length = (l.take k).length := by
    have hsplit : (l.filter fun x => !pred x) = (l.take k).filter fun x => !pred x := by
      conv_lhs => rw [← take_append_drop k l]
      rw [filter_append, hfilter, append_nil]
    refine le_antisymm (length_filter_le _ _) ?_
    rw [← hsplit, hk]
    exact length_take_le k l
  have htake := length_filter_eq_length_iff.mp hlength
  -- what stays stands in front, so that nothing is moved over
  refine h fun x hx => ?_
  rw [← take_append_drop k l, dropWhile_append_of_pos htake] at hx
  exact hdrop x ((dropWhile_sublist _).subset hx)

/-- The elements that stand behind the kept ones, when one more is moved to the front. -/
def shift (moved : α → α) (x : α) : List α → List α
  | [] => []
  | _ :: stale => stale ++ [moved x]

/-- `std::remove_if` with a predicate that looks at the whole sequence while elements are moved in
it: those kept so far, the stale ones behind them, and those to come. -/
def compact (moved : α → α) (pred : List α → α → Bool) : List α → List α → List α → List α
  | kept, _, [] => kept
  | kept, stale, x :: rest =>
    if pred (kept ++ stale ++ x :: rest) x then compact moved pred kept (stale ++ [x]) rest
    else compact moved pred (kept ++ [x]) (shift moved x stale) rest

theorem mem_shift {x y : α} {stale : List α} (h : y ∈ shift moved x stale) :
    y ∈ stale ∨ y = moved x := by
  cases stale with
  | nil => cases h
  | cons z stale =>
    rcases mem_append.mp h with h | h
    · exact .inl (mem_cons_of_mem z h)
    · exact .inr (mem_singleton.mp h)

/-- If what stands before an element does not matter, neither does that it is moved. -/
theorem compact_eq_filter {pred : List α → α → Bool} {p : α → Bool}
    (h : ∀ before x rest, l = before ++ x :: rest →
      ∀ front, (∀ y ∈ front, ∃ z ∈ before, y = z ∨ y = moved z) →
      pred (front ++ x :: rest) x = p x) : compact moved pred [] [] l = l.filter fun x => !p x := by
  have hgeneral : ∀ (rest before kept stale : List α), l = before ++ rest →
      (∀ y ∈ kept ++ stale, ∃ z ∈ before, y = z ∨ y = moved z) →
      compact moved pred kept stale rest = kept ++ rest.filter fun x => !p x := by
    intro rest
    induction rest with
    | nil =>
      intro before kept stale _ _
      simp [compact]
    | cons x rest ih =>
      intro before kept stale hl hfront
      have hpred := h before x rest hl (kept ++ stale) hfront
      have hold : ∀ y ∈ kept ++ stale, ∃ z ∈ before ++ [x], y = z ∨ y = moved z := by
        intro y hy
        obtain ⟨z, hz, hyz⟩ := hfront y hy
        exact ⟨z, mem_append_left _ hz, hyz⟩
      have hx : x ∈ before ++ [x] := mem_append_right _ (mem_singleton_self x)
      have hl' : l = (before ++ [x]) ++ rest := by rewrite [hl, append_assoc]; rfl
      unfold compact
      rw [hpred, filter_cons]
      cases p x with
      | true =>
        rewrite [if_pos rfl, ih _ kept (stale ++ [x]) hl']
        · rfl
        · intro y hy
          rw [← append_assoc] at hy
          rcases mem_append.mp hy with hy | hy
          · exact hold y hy
          · exact ⟨x, hx, .inl (mem_singleton.mp hy)⟩
      | false =>
        rw [if_neg Bool.false_ne_true, ih _ (kept ++ [x]) (shift moved x stale) hl']
        · simp
        · intro y hy
          rcases mem_append.mp hy with hy | hy
          · rcases mem_append.mp hy with hy | hy
            · exact hold y (mem_append_left _ hy)
            · exact ⟨x, hx, .inl (mem_singleton.mp hy)⟩
          · rcases mem_shift hy with hy | rfl
            · exact hold y (mem_append_right _ hy)
            · exact ⟨x, hx, .inr rfl⟩
  exact hgeneral l [] [] [] rfl fun y hy => absurd hy not_mem_nil

end Vapory
