import Mathlib.Algebra.GroupWithZero.Nat
import Mathlib.Order.Interval.Finset.Nat
import Mathlib.Data.List.TakeWhile

/-! Finite sets of natural numbers as ordered maps of half-open ranges, from the first number to
the end. -/
namespace Vapory
open List

abbrev Ranges := List (ℕ × ℕ)

namespace Ranges
variable {rs low mid high : Ranges} {i k v w x : ℕ}

/-- The entries up to the upper bound of `i`. -/
def upTo (rs : Ranges) (i : ℕ) : Ranges := rs.takeWhile fun r => r.1 ≤ i

/-- The entries from the upper bound of `i` on. -/
def after (rs : Ranges) (i : ℕ) : Ranges := rs.dropWhile fun r => r.1 ≤ i

def assign (rs : Ranges) (k v : ℕ) : Ranges :=
  (rs.takeWhile fun r => r.1 < k) ++ (k, v) :: rs.after k

def erase (rs : Ranges) (k : ℕ) : Ranges := rs.filter fun r => r.1 ≠ k

def elements (rs : Ranges) : Finset ℕ := rs.foldr (fun r s => Finset.Ico r.1 r.2 ∪ s) ∅

/-- Not empty, in ascending order, neither overlapping nor adjacent. -/
structure Apart (rs : Ranges) : Prop where
  filled : ∀ r ∈ rs, r.1 < r.2
  ordered : rs.Pairwise fun r s => r.2 < s.1

@[simp] theorem elements_nil : elements [] = ∅ := rfl

@[simp] theorem elements_cons (r : ℕ × ℕ) (rs : Ranges) :
    elements (r :: rs) = Finset.Ico r.1 r.2 ∪ elements rs := rfl

theorem mem_elements : x ∈ elements rs ↔ ∃ r ∈ rs, r.1 ≤ x ∧ x < r.2 := by
  induction rs with
  | nil => simp
  | cons r rs ih => simp [ih]

theorem elements_append (low high : Ranges) :
    elements (low ++ high) = elements low ∪ elements high := by
  induction low with
  | nil => simp
  | cons r low ih => simp [ih, Finset.union_assoc]

theorem upTo_append_after (rs : Ranges) (i : ℕ) : rs.upTo i ++ rs.after i = rs :=
  takeWhile_append_dropWhile

theorem le_of_mem_upTo {r : ℕ × ℕ} (hr : r ∈ rs.upTo i) : r.1 ≤ i := by
  simpa using mem_takeWhile_imp hr

/-! What the operations make of a map that is written in parts around a key. -/

theorem after_append (hlow : ∀ r ∈ low, r.1 ≤ i) (hhigh : ∀ r ∈ high, i < r.1) :
    (low ++ high).after i = high := by
  have hlow' : ∀ r ∈ low, decide (r.1 ≤ i) = true := fun r hr => decide_eq_true (hlow r hr)
  unfold after
  rw [dropWhile_append_of_pos hlow']
  cases high with
  | nil => rfl
  | cons r high => simp [hhigh r mem_cons_self]

theorem assign_append (hlow : ∀ r ∈ low, r.1 < k) (hmid : ∀ r ∈ mid, r.1 = k)
    (hhigh : ∀ r ∈ high, k < r.1) : assign (low ++ (mid ++ high)) k v = low ++ (k, v) :: high := by
  have hlow' : ∀ r ∈ low, decide (r.1 < k) = true := fun r hr => decide_eq_true (hlow r hr)
  have htake : ((mid ++ high).takeWhile fun r => r.1 < k) = [] := by
    cases mid with
    | nil => cases high with
      | nil => rfl
      | cons r high => simp [(hhigh r mem_cons_self).le]
    | cons r mid => simp [hmid r mem_cons_self]
  have hafter : after (low ++ (mid ++ high)) k = high := by
    rw [← append_assoc]
    refine after_append (fun r hr => ?_) hhigh
    obtain hr | hr := mem_append.mp hr
    · exact (hlow r hr).le
    · exact (hmid r hr).le
  rw [assign, takeWhile_append_of_pos hlow', htake, hafter, append_nil]

theorem erase_append (hlow : ∀ r ∈ low, r.1 ≠ k) (hhigh : ∀ r ∈ high, k < r.1) :
    erase (low ++ (k, v) :: high) k = low ++ high := by
  have hlow' : low.filter (fun r => r.1 ≠ k) = low :=
    filter_eq_self.mpr fun r hr => decide_eq_true (hlow r hr)
  have hhigh' : high.filter (fun r => r.1 ≠ k) = high :=
    filter_eq_self.mpr fun r hr => decide_eq_true (hhigh r hr).ne'
  rw [erase, filter_append, hlow', filter_cons_of_neg (by simp), hhigh']

namespace Apart

theorem nil : Apart [] := ⟨fun _ h => absurd h not_mem_nil, .nil⟩

variable {r : ℕ × ℕ}

theorem head_lt (h : Apart (r :: rs)) : ∀ s ∈ rs, r.2 < s.1 := (pairwise_cons.mp h.ordered).1

theorem tail (h : Apart (r :: rs)) : Apart rs :=
  ⟨fun s hs => h.filled s (mem_cons_of_mem r hs), (pairwise_cons.mp h.ordered).2⟩

theorem after_lt (h : Apart rs) (hr : r ∈ rs.after i) : i < r.1 := by
  induction rs with
  | nil => exact absurd hr not_mem_nil
  | cons s rs ih =>
    by_cases hsi : s.1 ≤ i
    · rw [after, dropWhile_cons_of_pos (by simpa using hsi)] at hr
      exact ih h.tail hr
    · rw [after, dropWhile_cons_of_neg (by simpa using hsi)] at hr
      have hfilled := h.filled s mem_cons_self
      obtain rfl | hr := mem_cons.mp hr
      · omega
      · have := h.head_lt r hr
        omega

/-- The last range up to `i` is the only one that can hold it. -/
theorem upTo_cases (h : Apart rs) (i : ℕ) :
    (rs.upTo i).getLast? = none ∧ rs.after i = rs ∨
      ∃ low it, (rs.upTo i).getLast? = some it ∧ rs = low ++ it :: rs.after i ∧ it.1 ≤ i ∧
      ∀ r ∈ low, r.2 < it.1 := by
  have hrs := rs.upTo_append_after i
  obtain hnil | ⟨low, it, hupTo⟩ := (rs.upTo i).eq_nil_or_concat'
  · left
    rw [hnil, nil_append] at hrs
    exact ⟨by rw [hnil, List.getLast?_nil], hrs⟩
  · right
    have hit : it ∈ rs.upTo i := by rw [hupTo]; exact mem_concat_self
    have hle := le_of_mem_upTo hit
    rw [hupTo, append_assoc, singleton_append] at hrs
    refine ⟨low, it, by rw [hupTo, List.getLast?_concat], hrs.symm, hle, fun r hr => ?_⟩
    have hordered := h.ordered
    rw [← hrs] at hordered
    exact (pairwise_append.mp hordered).2.2 r hr it mem_cons_self

theorem notMem_after (h : Apart rs) (hx : x ≤ i) : x ∉ elements (rs.after i) := by
  intro hmem
  obtain ⟨r, hr, hrx, _⟩ := mem_elements.mp hmem
  have := h.after_lt hr
  omega

theorem mem_elements_iff (h : Apart rs) :
    i ∈ elements rs ↔ ∃ it, (rs.upTo i).getLast? = some it ∧ i < it.2 := by
  obtain ⟨hlast, hafter⟩ | ⟨low, it, hlast, hrs, hle, hlow⟩ := h.upTo_cases i
  · have hnot := h.notMem_after (le_refl i)
    rw [hafter] at hnot
    simp [hlast, hnot]
  · have hnot := h.notMem_after (le_refl i)
    have hnotLow : i ∉ elements low := by
      intro hmem
      obtain ⟨r, hr, _, hri⟩ := mem_elements.mp hmem
      have := hlow r hr
      omega
    rw [hrs, elements_append, elements_cons, ← hrs, hlast]
    simp [hnot, hnotLow, hle]

theorem append (h : Apart (low ++ high)) :
    Apart low ∧ Apart high ∧ ∀ r ∈ low, ∀ s ∈ high, r.2 < s.1 := by
  obtain ⟨hlow, hhigh, hcross⟩ := pairwise_append.mp h.ordered
  exact ⟨⟨fun r hr => h.filled r (mem_append_left high hr), hlow⟩,
    ⟨fun r hr => h.filled r (mem_append_right low hr), hhigh⟩, hcross⟩

theorem replace {a b j : ℕ} (h : Apart (low ++ (mid ++ high))) (hab : a < b)
    (hlow : ∀ r ∈ low, r.2 < a) (hhigh : ∀ r ∈ high, b < r.1)
    (hmid : Finset.Ico a b = elements mid ∪ Finset.Ico i j) : Apart (low ++ (a, b) :: high) ∧
    elements (low ++ (a, b) :: high) = elements (low ++ (mid ++ high)) ∪ Finset.Ico i j := by
  obtain ⟨hl, hmh, hcross⟩ := h.append
  obtain ⟨_, hh, _⟩ := hmh.append
  refine ⟨⟨fun r hr => ?_, pairwise_append.mpr ⟨hl.ordered, pairwise_cons.mpr ⟨hhigh, hh.ordered⟩,
    fun r hr s hs => ?_⟩⟩, ?_⟩
  · obtain hr | hr := mem_append.mp hr
    · exact hl.filled r hr
    · obtain rfl | hr := mem_cons.mp hr
      · exact hab
      · exact hh.filled r hr
  · obtain rfl | hs := mem_cons.mp hs
    · exact hlow r hr
    · exact hcross r hr s (mem_append_right mid hs)
  · rw [elements_append, elements_cons, hmid, elements_append, elements_append]
    ext y
    simp only [Finset.mem_union]
    tauto

theorem assign_last {b : ℕ} (h : Apart rs) (hrs : ∀ r ∈ rs, r.2 < i) (hb : i < b) :
    assign rs i b = rs ++ [(i, b)] ∧ Apart (rs ++ [(i, b)]) ∧
    elements (rs ++ [(i, b)]) = elements rs ∪ Finset.Ico i b := by
  have hkeys : ∀ r ∈ rs, r.1 < i := fun r hr => (h.filled r hr).trans (hrs r hr)
  have hparts : Apart (rs ++ ([] ++ [])) := by simpa using h
  obtain ⟨hapart, helements⟩ := hparts.replace (i := i) (j := b) hb hrs (by simp) (by simp)
  rw [append_nil, append_nil] at helements
  refine ⟨?_, hapart, helements⟩
  have hassign : assign (rs ++ ([] ++ [])) i b = rs ++ [(i, b)] :=
    assign_append hkeys (by simp) (by simp)
  simpa using hassign

theorem card_elements (h : Apart rs) : (elements rs).card = (rs.map fun r => r.2 - r.1).sum := by
  induction rs with
  | nil => rfl
  | cons r rs ih =>
    have hdisjoint : Disjoint (Finset.Ico r.1 r.2) (elements rs) := by
      rw [Finset.disjoint_left]
      intro y hy hys
      obtain ⟨s, hs, hsy, _⟩ := mem_elements.mp hys
      have := h.head_lt s hs
      have := (Finset.mem_Ico.mp hy).2
      omega
    rw [elements_cons, Finset.card_union_of_disjoint hdisjoint, Nat.card_Ico, map_cons, sum_cons,
      ih h.tail]

theorem elements_eq_empty (h : Apart rs) : elements rs = ∅ ↔ rs = [] := by
  constructor
  · intro he
    refine eq_nil_iff_forall_not_mem.mpr fun r hr => ?_
    exact Finset.notMem_empty r.1 (he ▸ mem_elements.mpr ⟨r, hr, le_rfl, h.filled r hr⟩)
  · rintro rfl
    rfl

theorem inside (h : Apart rs) {a b : ℕ} (he : elements rs ⊆ Finset.Ico a b) (hr : r ∈ rs) :
    a ≤ r.1 ∧ r.2 ≤ b := by
  have hfilled := h.filled r hr
  have hfirst := Finset.mem_Ico.mp (he (mem_elements.mpr ⟨r, hr, le_rfl, hfilled⟩))
  have hlast := Finset.mem_Ico.mp (he (mem_elements.mpr ⟨r, hr, (by omega : r.1 ≤ r.2 - 1), by omega⟩))
  exact ⟨hfirst.1, by omega⟩

theorem eq_singleton {a b : ℕ} (h : Apart rs) (hab : a < b) (he : elements rs = Finset.Ico a b) :
    rs = [(a, b)] := by
  have hinside : ∀ r ∈ rs, a ≤ r.1 ∧ r.2 ≤ b := fun r hr => h.inside he.subset hr
  have hmem : ∀ y, a ≤ y → y < b → ∃ r ∈ rs, r.1 ≤ y ∧ y < r.2 := fun y hay hyb =>
    mem_elements.mp (he ▸ Finset.mem_Ico.mpr ⟨hay, hyb⟩)
  cases rs with
  | nil =>
    obtain ⟨r, hr, _⟩ := hmem a le_rfl hab
    exact absurd hr not_mem_nil
  | cons r rs =>
    have hr := hinside r mem_cons_self
    have hfilled := h.filled r mem_cons_self
    have hrs := h.head_lt
    have hfirst : r.1 = a := by
      obtain ⟨t, ht, hta, _⟩ := hmem a le_rfl hab
      obtain rfl | ht := mem_cons.mp ht
      · omega
      · have := hrs t ht
        omega
    have hend : r.2 = b := by
      -- The number at the end of the first range would be in no other.
      by_contra hne
      obtain ⟨t, ht, htr, hrt⟩ := hmem r.2 (by omega) (by omega)
      obtain rfl | ht := mem_cons.mp ht
      · omega
      · have := hrs t ht
        omega
    have hnil : rs = [] := by
      refine eq_nil_iff_forall_not_mem.mpr fun t ht => ?_
      have := hrs t ht
      have := hinside t (mem_cons_of_mem r ht)
      have := h.filled t (mem_cons_of_mem r ht)
      omega
    rw [hnil, ← hfirst, ← hend]

/-- Without `i` itself, the least number from `i` on is the first of the next range. -/
theorem least_after (h : Apart rs) (hi : i ∉ elements rs) :
    rs.after i = [] ∧ (∀ x ∈ elements rs, x < i) ∨
      ∃ r high, rs.after i = r :: high ∧ IsLeast {x | x ∈ elements rs ∧ i ≤ x} r.1 := by
  have hin : ∀ x ∈ elements rs, i ≤ x → x ∈ elements (rs.after i) := by
    intro x hx hix
    obtain ⟨_, hafter⟩ | ⟨low, it, hlast, hrs, hle, hlow⟩ := h.upTo_cases i
    · rwa [hafter]
    · have hit : it.2 ≤ i := by
        by_contra hlt
        exact hi (h.mem_elements_iff.mpr ⟨it, hlast, by omega⟩)
      rw [hrs, elements_append, elements_cons, Finset.mem_union, Finset.mem_union, Finset.mem_Ico] at hx
      obtain hx | hx | hx := hx
      · obtain ⟨r, hr, _, hxr⟩ := mem_elements.mp hx
        have := hlow r hr
        omega
      · omega
      · exact hx
  have hafter : ∀ r ∈ rs.after i, r ∈ rs := fun r hr => by
    rw [← rs.upTo_append_after i]
    exact mem_append_right _ hr
  cases hcase : rs.after i with
  | nil =>
    refine .inl ⟨rfl, fun x hx => ?_⟩
    by_contra hix
    have := hin x hx (by omega)
    rw [hcase] at this
    exact Finset.notMem_empty x this
  | cons r high =>
    have hr : r ∈ rs.after i := by rw [hcase]; exact mem_cons_self
    refine .inr ⟨r, high, rfl,
      ⟨mem_elements.mpr ⟨r, hafter r hr, le_rfl, h.filled r (hafter r hr)⟩, (h.after_lt hr).le⟩, ?_⟩
    rintro x ⟨hx, hix⟩
    have hx' := hin x hx hix
    have hordered := h
    rw [← rs.upTo_append_after i, hcase] at hordered
    rw [hcase] at hx'
    obtain ⟨t, ht, htx, _⟩ := mem_elements.mp hx'
    obtain rfl | ht := mem_cons.mp ht
    · exact htx
    · have := hordered.append.2.1.head_lt t ht
      have := h.filled r (hafter r hr)
      omega

end Apart
end Ranges
end Vapory
