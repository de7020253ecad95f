import Mathlib.Data.Finset.Sort
import Vapory.Base.Ranges

/-! `RangeMask` of `RangeMask.h`, against the finite set that the operations describe. -/
namespace Vapory
open List

/-- `RangeMask`: the ground range `m_all` and the map `m_ranges`. -/
structure RangeMask where
  all : ℕ × ℕ
  ranges : Ranges
deriving DecidableEq, Repr

namespace RangeMask
open Ranges

/-- The next number that fits `unsigned`. -/
def succ (i : ℕ) : ℕ := (i + 1) % 2 ^ 32

/-- Makes the range from `a` on, to the end of `m` or with the next higher range to the end of
that. -/
def unionFrom (m : ℕ × ℕ) (i a : ℕ) (ranges : Ranges) : Ranges × Option ℕ :=
  match ranges.after i with
  | [] => (ranges.assign a m.2, none)
  | rangeAfter :: _ =>
    if m.2 < rangeAfter.1 then (ranges.assign a m.2, none)
    else ((ranges.assign a rangeAfter.2).erase rangeAfter.1, some rangeAfter.2)

/-- The case that the lower range is too low to merge. -/
def unionBetween (m : ℕ × ℕ) (i : ℕ) (ranges : Ranges) : Ranges × Option ℕ :=
  match ranges.after i with
  | [] => (ranges.assign i m.2, none)
  | rangeAfter :: _ =>
    if m.2 < rangeAfter.1 then (ranges.assign i m.2, none)
    else if rangeAfter.1 = i then (ranges, some rangeAfter.2)
    else ((ranges.assign i rangeAfter.2).erase rangeAfter.1, some rangeAfter.2)

/-- One turn of the loop of `unionWith` at `i`: the ranges, and where the loop goes on unless it
breaks. -/
def unionStep (m : ℕ × ℕ) (i : ℕ) (ranges : Ranges) : Ranges × Option ℕ :=
  match (ranges.upTo i).getLast? with
  | none => unionBetween m i ranges
  | some it =>
    if it.2 < i then unionBetween m i ranges
    else if it.2 = i then unionFrom m i it.1 ranges
    else (ranges, some it.2)

/-- The loop of `unionWith`, with `none` when it takes more turns than `fuel`. -/
def unionLoop (m : ℕ × ℕ) : ℕ → ℕ → Ranges → Option Ranges
  | fuel, i, ranges =>
    if i < m.2 then
      match fuel with
      | 0 => none
      | fuel + 1 =>
        match unionStep m i ranges with
        | (ranges, none) => some ranges
        | (ranges, some i) => unionLoop m fuel i ranges
    else some ranges

/-- `unionWith(Range)`. -/
def unionWithRange (mask : RangeMask) (m : ℕ × ℕ) : Option RangeMask :=
  (unionLoop m (m.2 - m.1) m.1 mask.ranges).map fun ranges => { mask with ranges }

/-- `unionWith(unsigned)`. -/
def unionWithElement (mask : RangeMask) (i : ℕ) : Option RangeMask :=
  mask.unionWithRange (i, succ i)

/-- `unionWith(RangeMask)`. -/
def unionWithMask (mask m : RangeMask) : Option RangeMask :=
  m.ranges.foldlM unionWithRange { mask with all := (min m.all.1 mask.all.1, max m.all.2 mask.all.2) }

/-- One turn of the loop of `inverted`, on `ret.m_ranges` and `last`. -/
def invertStep (s : Ranges × ℕ) (i : ℕ × ℕ) : Ranges × ℕ :=
  (if i.1 ≠ s.2 then s.1.assign s.2 i.1 else s.1, i.2)

def inverted (mask : RangeMask) : RangeMask :=
  let (ranges, last) := mask.ranges.foldl invertStep ([], mask.all.1)
  ⟨mask.all, if last ≠ mask.all.2 then ranges.assign last mask.all.2 else ranges⟩

/-- `operator-`: the complement of the union of the complement with `m`. -/
def minus (mask m : RangeMask) : Option RangeMask := (mask.inverted.unionWithMask m).map inverted

def clear (mask : RangeMask) : RangeMask := { mask with ranges := [] }

def contains (mask : RangeMask) (i : ℕ) : Bool :=
  match (mask.ranges.upTo i).getLast? with
  | none => false
  | some it => i < it.2

def empty (mask : RangeMask) : Bool := mask.ranges.isEmpty

def full (mask : RangeMask) : Bool := mask.all.1 = mask.all.2 ∨ mask.ranges = [mask.all]

def size (mask : RangeMask) : ℕ :=
  mask.ranges.foldl (fun c r => (c + (r.2 + 2 ^ 32 - r.1) % 2 ^ 32) % 2 ^ 64) 0

def firstOf (mask : RangeMask) : Ranges → ℕ
  | [] => mask.all.2
  | r :: _ => r.1

def next (mask : RangeMask) (t : ℕ) : ℕ :=
  let t := succ t
  let uit := mask.firstOf (mask.ranges.after t)
  match (mask.ranges.upTo t).getLast? with
  | none => uit
  | some it => if it.1 ≤ t ∧ t < it.2 then t else uit

/-- The value of `begin()`. -/
def begin (mask : RangeMask) : ℕ := mask.firstOf mask.ranges

/-- The values that an iterator gives from `value` to `end()`, with `none` when they are more than
`fuel`. -/
def iterate (mask : RangeMask) : ℕ → ℕ → Option (List ℕ)
  | fuel, value =>
    if value = mask.all.2 then some []
    else match fuel with
      | 0 => none
      | fuel + 1 => (mask.iterate fuel (mask.next value)).map (value :: ·)

/-! What one turn of the loop adds. -/

variable {m : ℕ × ℕ} {i a : ℕ} {rs low mid : Ranges}

theorem succ_eq {t : ℕ} (ht : t < 2 ^ 32 - 1) : succ t = t + 1 := Nat.mod_eq_of_lt (by omega)

/-- What a turn of the loop gives: the numbers from `i` to where the loop goes on are in. -/
def Added (m : ℕ × ℕ) (i : ℕ) (rs : Ranges) (out : Ranges × Option ℕ) : Prop :=
  i < out.2.getD m.2 ∧ Apart out.1 ∧
    elements out.1 = elements rs ∪ Finset.Ico i (min (out.2.getD m.2) m.2)

theorem unionBetween_eq (m : ℕ × ℕ) (i : ℕ) (rs : Ranges) :
    unionBetween m i rs = unionFrom m i i rs := by
  unfold unionBetween unionFrom
  cases hafter : rs.after i with
  | nil => rfl
  | cons rangeAfter high =>
    have hhead := List.head?_dropWhile_not (fun r : ℕ × ℕ => decide (r.1 ≤ i)) rs
    have hne : rangeAfter.1 ≠ i := by
      rw [show rs.dropWhile (fun r => decide (r.1 ≤ i)) = rangeAfter :: high from hafter] at hhead
      simp at hhead
      omega
    simp only [if_neg hne]

theorem unionFrom_added (h : Apart rs) (hi : i < m.2) (ha : a ≤ i)
    (hrs : rs = low ++ (mid ++ rs.after i)) (hlow : ∀ r ∈ low, r.2 < a)
    (hmid : ∀ r ∈ mid, r.1 = a) (hcover : elements mid = Finset.Ico a i) :
    Added m i rs (unionFrom m i a rs) := by
  have hafter : ∀ r ∈ rs.after i, i < r.1 := fun r hr => h.after_lt hr
  have hlow' : ∀ r ∈ low, r.1 < a := by
    intro r hr
    have hfilled := h.filled r (by rw [hrs]; exact mem_append_left _ hr)
    have := hlow r hr
    omega
  have hassign : ∀ v, rs.assign a v = low ++ (a, v) :: rs.after i := by
    intro v
    conv_lhs => rw [hrs]
    exact assign_append hlow' hmid fun r hr => by have := hafter r hr; omega
  have hparts : Apart (low ++ (mid ++ rs.after i)) := hrs ▸ h
  have hnew : (∀ r ∈ rs.after i, m.2 < r.1) → Added m i rs (rs.assign a m.2, none) := by
    intro hhigh
    obtain ⟨hapart, helements⟩ := hparts.replace (a := a) (b := m.2) (i := i) (j := m.2) (by omega) hlow hhigh
      (by ext y; simp only [hcover, Finset.mem_union, Finset.mem_Ico]; omega)
    refine ⟨hi, by rw [hassign]; exact hapart, ?_⟩
    rw [hassign, helements, ← hrs, Option.getD_none, min_self]
  unfold unionFrom
  cases hhigh : rs.after i with
  | nil => exact hnew (by simp [hhigh])
  | cons rangeAfter high =>
    have hordered : ∀ s ∈ high, rangeAfter.2 < s.1 := by
      rw [hhigh] at hparts
      exact hparts.append.2.1.append.2.1.head_lt
    have hmem : rangeAfter ∈ rs := by
      rw [hrs, hhigh]
      simp
    have hfilled := h.filled rangeAfter hmem
    have hhead := hafter rangeAfter (by simp [hhigh])
    by_cases htooHigh : m.2 < rangeAfter.1
    · simp only [if_pos htooHigh]
      refine hnew fun r hr => ?_
      obtain rfl | hr := mem_cons.mp (hhigh ▸ hr)
      · exact htooHigh
      · have := hordered r hr
        omega
    · -- The next higher range is in reach: it goes into the new one.
      have hjoin : (rs.assign a rangeAfter.2).erase rangeAfter.1 = low ++ (a, rangeAfter.2) :: high := by
        have hkeys : ∀ r ∈ low ++ [(a, rangeAfter.2)], r.1 ≠ rangeAfter.1 := by
          intro r hr
          obtain hr | hr := mem_append.mp hr
          · have := hlow' r hr
            omega
          · rw [mem_singleton.mp hr]
            change a ≠ rangeAfter.1
            omega
        rw [hassign, hhigh, append_cons]
        exact (erase_append hkeys fun r hr => by have := hordered r hr; omega).trans (append_cons ..).symm
      have hsplit : mid ++ rs.after i = (mid ++ [rangeAfter]) ++ high := by
        rw [hhigh]
        exact append_cons ..
      rw [hsplit] at hparts hrs
      obtain ⟨hapart, helements⟩ :=
        hparts.replace (a := a) (b := rangeAfter.2) (i := i) (j := min rangeAfter.2 m.2) (by omega)
        hlow hordered (by
          ext y
          simp only [elements_append, hcover, elements_cons, elements_nil, Finset.union_empty,
            Finset.mem_union, Finset.mem_Ico]
          omega)
      simp only [if_neg htooHigh]
      refine ⟨hhead.trans hfilled, hjoin ▸ hapart, ?_⟩
      rw [hjoin, helements, ← hrs, Option.getD_some]

theorem unionStep_added (h : Apart rs) (hi : i < m.2) : Added m i rs (unionStep m i rs) := by
  obtain ⟨hlast, hafter⟩ | ⟨low, it, hlast, hrs, hle, hlow⟩ := h.upTo_cases i
  · have hrs : rs = [] ++ ([] ++ rs.after i) := by simp [hafter]
    simp only [unionStep, hlast, unionBetween_eq]
    exact unionFrom_added h hi le_rfl hrs (by simp) (by simp) (by simp)
  · have hfilled := h.filled it (by rw [hrs]; simp)
    simp only [unionStep, hlast]
    by_cases hlt : it.2 < i
    · rw [if_pos hlt, unionBetween_eq]
      have hrs' : rs = (low ++ [it]) ++ ([] ++ rs.after i) := by simpa using hrs
      refine unionFrom_added h hi le_rfl hrs' (fun r hr => ?_) (by simp) (by simp)
      obtain hr | hr := mem_append.mp hr
      · have := hlow r hr
        omega
      · rw [mem_singleton.mp hr]
        exact hlt
    · by_cases heq : it.2 = i
      · rw [if_neg hlt, if_pos heq]
        have hrs' : rs = low ++ ([it] ++ rs.after i) := hrs
        exact unionFrom_added h hi hle hrs' hlow (by simp) (by simp [heq])
      · rw [if_neg hlt, if_neg heq]
        refine ⟨by simpa using by omega, h, ?_⟩
        rw [eq_comm, Finset.union_eq_left]
        intro y hy
        have hy' := Finset.mem_Ico.mp hy
        exact mem_elements.mpr ⟨it, by rw [hrs]; simp, by omega, by simp at hy'; omega⟩

theorem unionLoop_spec (h : Apart rs) {fuel : ℕ} (hfuel : m.2 - i ≤ fuel) :
    ∃ out, unionLoop m fuel i rs = some out ∧ Apart out ∧
    elements out = elements rs ∪ Finset.Ico i m.2 := by
  induction fuel generalizing i rs with
  | zero =>
    have hi : ¬ i < m.2 := by omega
    exact ⟨rs, by rw [unionLoop, if_neg hi], h, by rw [Finset.Ico_eq_empty hi, Finset.union_empty]⟩
  | succ fuel ih =>
    by_cases hi : i < m.2
    · obtain ⟨hlt, hapart, helements⟩ := unionStep_added h hi
      rw [unionLoop, if_pos hi]
      cases hstep : unionStep m i rs with
      | mk out stop =>
        rw [hstep] at hlt hapart helements
        cases stop with
        | none => exact ⟨out, rfl, hapart, by simpa using helements⟩
        | some j =>
          have hlt : i < j := hlt
          obtain ⟨out', hrun, hapart', helements'⟩ := ih hapart (i := j) (by omega)
          refine ⟨out', hrun, hapart', ?_⟩
          rw [helements', helements, Finset.union_assoc]
          congr 1
          ext y
          simp only [Option.getD_some, Finset.mem_union, Finset.mem_Ico]
          omega
    · exact ⟨rs, by rw [unionLoop, if_neg hi], h, by rw [Finset.Ico_eq_empty hi, Finset.union_empty]⟩

theorem invertStep_spec {ret : Ranges} {last : ℕ} {r : ℕ × ℕ} (hret : Apart ret)
    (hlast : ∀ s ∈ ret, s.2 < last) (hle : last ≤ r.1) : Apart (invertStep (ret, last) r).1 ∧
    (∀ s ∈ (invertStep (ret, last) r).1, s.2 ≤ r.1) ∧
      elements (invertStep (ret, last) r).1 = elements ret ∪ Finset.Ico last r.1 := by
  by_cases heq : r.1 ≠ last
  · obtain ⟨hassign, hapart, helements⟩ := hret.assign_last hlast (by omega : last < r.1)
    simp only [invertStep, if_pos heq, hassign]
    refine ⟨hapart, fun s hs => ?_, helements⟩
    obtain hs | hs := mem_append.mp hs
    · have := hlast s hs
      omega
    · rw [mem_singleton.mp hs]
  · simp only [invertStep, if_neg heq]
    refine ⟨hret, fun s hs => ((hlast s hs).trans_le hle).le, ?_⟩
    rw [not_not.mp heq, Finset.Ico_self, Finset.union_empty]

/-- What the loop of `inverted` has at its end: the numbers from the first `last` to the one it ends
with, without those in the ranges. -/
theorem invertLoop_spec {ret : Ranges} {last : ℕ} (h : Apart rs) (hrs : ∀ r ∈ rs, last ≤ r.1)
    (hret : Apart ret)
    (hlast : ∀ r ∈ ret, r.2 < last) {out : Ranges × ℕ} (hout : rs.foldl invertStep (ret, last) = out) :
    Apart out.1 ∧ (∀ r ∈ out.1, r.2 < out.2) ∧ (out.2 = last ∨ ∃ r ∈ rs, out.2 = r.2) ∧
    (∀ r ∈ rs, r.2 ≤ out.2) ∧
      elements out.1 = elements ret ∪ (Finset.Ico last out.2 \ elements rs) := by
  induction rs generalizing ret last with
  | nil =>
    subst hout
    exact ⟨hret, hlast, .inl rfl, by simp, by simp⟩
  | cons i rs ih =>
    have hle := hrs i mem_cons_self
    have hfilled := h.filled i mem_cons_self
    obtain ⟨hapart, hbelow, helements⟩ := invertStep_spec hret hlast hle
    obtain ⟨hout₁, hout₂, hend, hcover, hout₃⟩ := ih h.tail (fun r hr => (h.head_lt r hr).le) hapart
      (fun r hr => (hbelow r hr).trans_lt hfilled) hout
    have hend' : i.2 ≤ out.2 := by
      obtain hend | ⟨r, hr, hend⟩ := hend
      · exact hend.ge
      · have := h.head_lt r hr
        have := h.tail.filled r hr
        omega
    refine ⟨hout₁, hout₂, .inr ?_, fun r hr => ?_, ?_⟩
    · obtain hend | ⟨r, hr, hend⟩ := hend
      · exact ⟨i, mem_cons_self, hend⟩
      · exact ⟨r, mem_cons_of_mem i hr, hend⟩
    · obtain rfl | hr := mem_cons.mp hr
      · exact hend'
      · exact hcover r hr
    · have habove : ∀ y ∈ elements rs, i.2 ≤ y := by
        intro y hy
        obtain ⟨r, hr, hry, _⟩ := mem_elements.mp hy
        have := h.head_lt r hr
        omega
      rw [hout₃, helements, Finset.union_assoc]
      congr 1
      ext y
      rw [elements_cons, Finset.mem_union, Finset.mem_sdiff, Finset.mem_sdiff, Finset.mem_union,
        Finset.mem_Ico, Finset.mem_Ico, Finset.mem_Ico, Finset.mem_Ico]
      by_cases hy : y ∈ elements rs
      · have := habove y hy
        simp only [hy, not_true_eq_false, and_false, or_false, or_true, iff_false]
        omega
      · simp only [hy, not_false_eq_true, and_true, or_false]
        omega

/-! The masks and the sets they stand for. -/

/-- The mask has the ground range `all` and stands for `s`. -/
structure Spans (mask : RangeMask) (all : ℕ × ℕ) (s : Finset ℕ) : Prop where
  all_eq : mask.all = all
  apart : Apart mask.ranges
  elements_eq : elements mask.ranges = s
  inside : s ⊆ Finset.Ico all.1 all.2
  ordered : all.1 ≤ all.2

namespace Spans
variable {mask mask' : RangeMask} {all all' : ℕ × ℕ} {s s' : Finset ℕ}

theorem unionWithRange (h : Spans mask all s) (hm : Finset.Ico m.1 m.2 ⊆ Finset.Ico all.1 all.2) :
    ∃ out, mask.unionWithRange m = some out ∧ Spans out all (s ∪ Finset.Ico m.1 m.2) := by
  obtain ⟨out, hrun, hapart, helements⟩ := unionLoop_spec h.apart (m := m) (le_refl (m.2 - m.1))
  refine ⟨{ mask with ranges := out }, by rw [RangeMask.unionWithRange, hrun]; rfl, ?_⟩
  exact ⟨h.all_eq, hapart, by rw [helements, h.elements_eq], Finset.union_subset h.inside hm,
    h.ordered⟩

theorem unionWithElement (h : Spans mask all s) (hbounded : all.2 < 2 ^ 32)
    (hi : i ∈ Finset.Ico all.1 all.2) : ∃ out, mask.unionWithElement i = some out ∧
    Spans out all (insert i s) := by
  have hi' := Finset.mem_Ico.mp hi
  have hIco : Finset.Ico i (i + 1) = {i} := by
    ext y
    simp only [Finset.mem_Ico, Finset.mem_singleton]
    omega
  obtain ⟨out, hrun, hout⟩ := h.unionWithRange (m := (i, i + 1)) (by simpa [hIco] using hi')
  refine ⟨out, by rw [RangeMask.unionWithElement, succ_eq (by omega), hrun], ?_⟩
  rwa [hIco, Finset.union_comm, Finset.singleton_union] at hout

theorem unionWithRanges (h : Spans mask all s) (hrs : elements rs ⊆ Finset.Ico all.1 all.2) :
    ∃ out, rs.foldlM RangeMask.unionWithRange mask = some out ∧ Spans out all (s ∪ elements rs) := by
  induction rs generalizing mask s with
  | nil => exact ⟨mask, rfl, by simpa using h⟩
  | cons r rs ih =>
    rw [elements_cons, Finset.union_subset_iff] at hrs
    obtain ⟨mid, hmid, hrep⟩ := h.unionWithRange hrs.1
    obtain ⟨out, hrun, hout⟩ := ih hrep hrs.2
    exact ⟨out, by rw [foldlM_cons, hmid]; exact hrun, by rwa [elements_cons, ← Finset.union_assoc]⟩

theorem unionWithMask (h : Spans mask all s) (h' : Spans mask' all' s') :
    ∃ out, mask.unionWithMask mask' = some out ∧
    Spans out (min all'.1 all.1, max all'.2 all.2) (s ∪ s') := by
  have hall : Finset.Ico all.1 all.2 ⊆ Finset.Ico (min all'.1 all.1) (max all'.2 all.2) :=
    Finset.Ico_subset_Ico (min_le_right ..) (le_max_right ..)
  have hall' : Finset.Ico all'.1 all'.2 ⊆ Finset.Ico (min all'.1 all.1) (max all'.2 all.2) :=
    Finset.Ico_subset_Ico (min_le_left ..) (le_max_left ..)
  have hwide : Spans { mask with all := (min all'.1 all.1, max all'.2 all.2) }
    (min all'.1 all.1, max all'.2 all.2) s :=
    ⟨rfl, h.apart, h.elements_eq, h.inside.trans hall, (min_le_right ..).trans
      (h.ordered.trans (le_max_right ..))⟩
  have hinside : elements mask'.ranges ⊆ Finset.Ico (min all'.1 all.1) (max all'.2 all.2) := by
    rw [h'.elements_eq]
    exact h'.inside.trans hall'
  obtain ⟨out, hrun, hout⟩ := hwide.unionWithRanges hinside
  refine ⟨out, ?_, by rwa [h'.elements_eq] at hout⟩
  rw [RangeMask.unionWithMask, h.all_eq, h'.all_eq]
  exact hrun

theorem mem_inside (h : Spans mask all s) {r : ℕ × ℕ} (hr : r ∈ mask.ranges) :
    all.1 ≤ r.1 ∧ r.2 ≤ all.2 :=
  h.apart.inside (h.elements_eq ▸ h.inside) hr

theorem inverted (h : Spans mask all s) : Spans mask.inverted all (Finset.Ico all.1 all.2 \ s) := by
  have hordered := h.ordered
  cases hout : mask.ranges.foldl invertStep ([], mask.all.1) with
  | mk ranges last =>
    have hfirst : ∀ r ∈ mask.ranges, mask.all.1 ≤ r.1 := fun r hr => h.all_eq ▸ (h.mem_inside hr).1
    obtain ⟨hapart, hbelow, hend, hcover, helements⟩ :=
      invertLoop_spec h.apart hfirst Apart.nil (by simp) hout
    rw [h.all_eq] at hend helements
    have hle : all.1 ≤ last ∧ last ≤ all.2 := by
      obtain hend | ⟨r, hr, hend⟩ := hend
      · exact ⟨hend.ge, hend.le.trans hordered⟩
      · have := h.apart.filled r hr
        have := h.mem_inside hr
        exact ⟨by omega, by omega⟩
    have hs : ∀ y ∈ s, y < last := by
      intro y hy
      rw [← h.elements_eq] at hy
      obtain ⟨r, hr, _, hry⟩ := mem_elements.mp hy
      exact hry.trans_le (hcover r hr)
    -- The last gap is added as the loop adds one before a range.
    have heq : mask.inverted = ⟨mask.all, (invertStep (ranges, last) (all.2, all.2)).1⟩ := by
      rw [RangeMask.inverted, hout, invertStep, ← h.all_eq]
      simp only [ne_comm]
    obtain ⟨hapart', -, helements'⟩ := invertStep_spec (r := (all.2, all.2)) hapart hbelow hle.2
    rw [heq]
    refine ⟨h.all_eq, hapart', ?_, Finset.sdiff_subset, hordered⟩
    ext y
    rw [helements', helements, h.elements_eq]
    simp only [elements_nil, Finset.empty_union, Finset.mem_union, Finset.mem_sdiff, Finset.mem_Ico]
    by_cases hy : y ∈ s
    · have := hs y hy
      simp only [hy, not_true_eq_false, and_false, false_or, iff_false]
      omega
    · simp only [hy, not_false_eq_true, and_true]
      omega

theorem clear (h : Spans mask all s) : Spans mask.clear all ∅ :=
  ⟨h.all_eq, Apart.nil, rfl, Finset.empty_subset _, h.ordered⟩

/-! What the mask answers. -/

theorem contains_eq (h : Spans mask all s) (i : ℕ) : mask.contains i = decide (i ∈ s) := by
  rw [← h.elements_eq, Bool.eq_iff_iff, decide_eq_true_iff, h.apart.mem_elements_iff,
    RangeMask.contains]
  cases (mask.ranges.upTo i).getLast? with
  | none => simp
  | some it => simp

theorem empty_iff (h : Spans mask all s) : mask.empty = true ↔ s = ∅ := by
  rw [← h.elements_eq, h.apart.elements_eq_empty, RangeMask.empty, List.isEmpty_iff]

theorem full_iff (h : Spans mask all s) : mask.full = true ↔ s = Finset.Ico all.1 all.2 := by
  have hordered := h.ordered
  rw [RangeMask.full, decide_eq_true_iff, h.all_eq]
  constructor
  · rintro (hall | hranges)
    · have hinside := h.inside
      rw [hall, Finset.Ico_self, Finset.subset_empty] at hinside
      rw [hinside, hall, Finset.Ico_self]
    · rw [← h.elements_eq, hranges, elements_cons, elements_nil, Finset.union_empty]
  · intro hs
    by_cases hall : all.1 = all.2
    · exact .inl hall
    · exact .inr (h.apart.eq_singleton (by omega) (h.elements_eq.trans hs))

end Spans

/-- The same with bounds below the last number of `unsigned`. -/
structure Represents (mask : RangeMask) (all : ℕ × ℕ) (s : Finset ℕ) : Prop where
  all_eq : mask.all = all
  apart : Apart mask.ranges
  elements_eq : elements mask.ranges = s
  inside : s ⊆ Finset.Ico all.1 all.2
  ordered : all.1 ≤ all.2
  bounded : all.2 < 2 ^ 32 - 1

namespace Represents
variable {mask : RangeMask} {all : ℕ × ℕ} {s : Finset ℕ}

theorem spans (h : Represents mask all s) : Spans mask all s :=
  ⟨h.all_eq, h.apart, h.elements_eq, h.inside, h.ordered⟩

theorem size_eq (h : Represents mask all s) : mask.size = s.card := by
  have hfold : ∀ (rs : Ranges) (c : ℕ), (∀ r ∈ rs, r.1 ≤ r.2 ∧ r.2 < 2 ^ 32) →
      c + (rs.map fun r => r.2 - r.1).sum < 2 ^ 64 →
      rs.foldl (fun c r => (c + (r.2 + 2 ^ 32 - r.1) % 2 ^ 32) % 2 ^ 64) c =
        c + (rs.map fun r => r.2 - r.1).sum := by
    intro rs
    induction rs with
    | nil => simp
    | cons r rs ih =>
      intro c hrs hc
      rw [map_cons, sum_cons] at hc
      have hr := hrs r mem_cons_self
      have hstep : (c + (r.2 + 2 ^ 32 - r.1) % 2 ^ 32) % 2 ^ 64 = c + (r.2 - r.1) := by omega
      rw [foldl_cons, hstep, ih _ (fun t ht => hrs t (mem_cons_of_mem r ht)) (by omega), map_cons,
        sum_cons, Nat.add_assoc]
  have hbounded := h.bounded
  have hcard : s.card ≤ 2 ^ 32 := by
    refine (Finset.card_le_card h.inside).trans ?_
    rw [Nat.card_Ico]
    omega
  have hsum := h.apart.card_elements
  rw [h.elements_eq] at hsum
  rw [RangeMask.size, hfold _ 0 _ (by omega), hsum, Nat.zero_add]
  intro r hr
  have := h.spans.mem_inside hr
  have := h.apart.filled r hr
  omega

theorem next_spec (h : Represents mask all s) {t : ℕ} (ht : t < 2 ^ 32 - 1) :
    IsLeast {x | x ∈ s ∧ t < x} (mask.next t) ∨ mask.next t = all.2 ∧ ∀ x ∈ s, x ≤ t := by
  by_cases hmem : t + 1 ∈ s
  · left
    have hnext : mask.next t = t + 1 := by
      rw [← h.elements_eq] at hmem
      obtain ⟨it, hlast, hlt⟩ := h.apart.mem_elements_iff.mp hmem
      have hle : it.1 ≤ t + 1 := le_of_mem_upTo (mem_of_getLast? hlast)
      simp only [RangeMask.next, succ_eq ht, hlast, if_pos (And.intro hle hlt)]
    rw [hnext]
    exact ⟨⟨hmem, Nat.lt_succ_self t⟩, fun x hx => hx.2⟩
  · have hmem' := hmem
    rw [← h.elements_eq] at hmem'
    have hnext : mask.next t = mask.firstOf (mask.ranges.after (t + 1)) := by
      simp only [RangeMask.next, succ_eq ht]
      cases hlast : (mask.ranges.upTo (t + 1)).getLast? with
      | none => rfl
      | some it =>
        have hnot : ¬ (it.1 ≤ t + 1 ∧ t + 1 < it.2) :=
          fun hit => hmem' (h.apart.mem_elements_iff.mpr ⟨it, hlast, hit.2⟩)
        simp only [if_neg hnot]
    obtain ⟨hafter, hlt⟩ | ⟨r, high, hafter, hleast⟩ := h.apart.least_after hmem'
    · rw [hafter] at hnext
      exact .inr ⟨hnext.trans (by rw [firstOf, h.all_eq]), fun x hx =>
        Nat.lt_succ_iff.mp (hlt x (h.elements_eq ▸ hx))⟩
    · rw [hafter, firstOf] at hnext
      rw [h.elements_eq] at hleast
      rw [hnext]
      exact .inl hleast

theorem begin_spec (h : Represents mask all s) :
    IsLeast {x | x ∈ s} mask.begin ∨ mask.begin = all.2 ∧ s = ∅ := by
  have helements := h.elements_eq
  cases hranges : mask.ranges with
  | nil =>
    rw [hranges] at helements
    exact .inr ⟨by rw [RangeMask.begin, hranges, firstOf, h.all_eq], helements.symm⟩
  | cons r rs =>
    have hapart := h.apart
    rw [hranges] at hapart helements
    have hfilled := hapart.filled r mem_cons_self
    rw [RangeMask.begin, hranges, firstOf, ← helements]
    refine .inl ⟨mem_elements.mpr ⟨r, mem_cons_self, le_rfl, hfilled⟩, fun x hx => ?_⟩
    obtain ⟨t, ht, htx, _⟩ := mem_elements.mp hx
    obtain rfl | ht := mem_cons.mp ht
    · exact htx
    · have := hapart.head_lt t ht
      omega

theorem iterate_eq (h : Represents mask all s) {value fuel : ℕ} (hvalue : value ∈ s ∨ value = all.2)
    (hfuel : (s.filter (value ≤ ·)).card ≤ fuel) :
    mask.iterate fuel value = some ((s.filter (value ≤ ·)).sort (· ≤ ·)) := by
  have hbounded := h.bounded
  have hend : ∀ x ∈ s, x < all.2 := fun x hx => (Finset.mem_Ico.mp (h.inside hx)).2
  induction fuel generalizing value with
  | zero =>
    have hnone := Finset.card_eq_zero.mp (Nat.le_zero.mp hfuel)
    have heq : value = mask.all.2 := by
      rw [h.all_eq]
      refine hvalue.resolve_left fun hmem => ?_
      exact Finset.notMem_empty value (hnone ▸ Finset.mem_filter.mpr ⟨hmem, le_rfl⟩)
    rw [RangeMask.iterate, if_pos heq, hnone, Finset.sort_empty]
  | succ fuel ih =>
    by_cases heq : value = all.2
    · have hnone : s.filter (value ≤ ·) = ∅ := by
        refine Finset.filter_eq_empty_iff.mpr fun x hx => ?_
        have := hend x hx
        omega
      rw [RangeMask.iterate, if_pos (by rw [h.all_eq, heq]), hnone, Finset.sort_empty]
    · have hmem := hvalue.resolve_right heq
      have hlt := hend value hmem
      have hnext : (mask.next value ∈ s ∨ mask.next value = all.2) ∧ value < mask.next value ∧
          ∀ x ∈ s, value < x → mask.next value ≤ x := by
        obtain hleast | ⟨hnext, hnone⟩ := h.next_spec (by omega : value < 2 ^ 32 - 1)
        · exact ⟨.inl hleast.1.1, hleast.1.2, fun x hx hvx => hleast.2 ⟨hx, hvx⟩⟩
        · refine ⟨.inr hnext, by omega, fun x hx hvx => ?_⟩
          have := hnone x hx
          omega
      obtain ⟨hvalue', hlt', hleast⟩ := hnext
      have hnotMem : value ∉ s.filter (mask.next value ≤ ·) := fun hin => by
        have := (Finset.mem_filter.mp hin).2
        omega
      have hinsert : s.filter (value ≤ ·) = insert value (s.filter (mask.next value ≤ ·)) := by
        ext x
        rw [Finset.mem_filter, Finset.mem_insert, Finset.mem_filter]
        constructor
        · rintro ⟨hx, hle⟩
          obtain rfl | hvx := hle.eq_or_lt
          · exact .inl rfl
          · exact .inr ⟨hx, hleast x hx hvx⟩
        · rintro (rfl | ⟨hx, hle⟩)
          · exact ⟨hmem, le_rfl⟩
          · exact ⟨hx, hlt'.le.trans hle⟩
      rw [hinsert, Finset.card_insert_of_notMem hnotMem] at hfuel
      rw [RangeMask.iterate, if_neg (by rwa [h.all_eq])]
      change (mask.iterate fuel (mask.next value)).map (value :: ·) = _
      rw [ih hvalue' (by omega), hinsert,
        Finset.sort_insert _ (fun x hx => hlt'.le.trans (Finset.mem_filter.mp hx).2) hnotMem,
        Option.map_some]

theorem iterate_begin (h : Represents mask all s) {fuel : ℕ} (hfuel : s.card ≤ fuel) :
    mask.iterate fuel mask.begin = some (s.sort (· ≤ ·)) := by
  have hbegin : (mask.begin ∈ s ∨ mask.begin = all.2) ∧ s.filter (mask.begin ≤ ·) = s := by
    rw [Finset.filter_eq_self]
    obtain hleast | ⟨hend, hs⟩ := h.begin_spec
    · exact ⟨.inl hleast.1, fun x hx => hleast.2 hx⟩
    · exact ⟨.inr hend, fun x hx => absurd (hs ▸ hx) (Finset.notMem_empty x)⟩
  rw [h.iterate_eq hbegin.1 (by rwa [hbegin.2]), hbegin.2]

end Represents

/-- How a mask is made, from an empty one with a ground range. -/
inductive Build where
  | empty (all : ℕ × ℕ)
  | unionWithElement (b : Build) (i : ℕ)
  | unionWithRange (b : Build) (m : ℕ × ℕ)
  | unionWithMask (b m : Build)
  | invert (b : Build)
  | clear (b : Build)

namespace Build

def run : Build → Option RangeMask
  | empty all => some ⟨all, []⟩
  | unionWithElement b i => do (← b.run).unionWithElement i
  | unionWithRange b m => do (← b.run).unionWithRange m
  | unionWithMask b m => do (← b.run).unionWithMask (← m.run)
  | invert b => return (← b.run).inverted
  | clear b => return (← b.run).clear

/-- The ground range: the union with a mask takes the smallest range around both. -/
def all : Build → ℕ × ℕ
  | empty all => all
  | unionWithElement b _ => b.all
  | unionWithRange b _ => b.all
  | unionWithMask b m => (min m.all.1 b.all.1, max m.all.2 b.all.2)
  | invert b => b.all
  | clear b => b.all

def set : Build → Finset ℕ
  | empty _ => ∅
  | unionWithElement b i => insert i b.set
  | unionWithRange b m => b.set ∪ Finset.Ico m.1 m.2
  | unionWithMask b m => b.set ∪ m.set
  | invert b => Finset.Ico b.all.1 b.all.2 \ b.set
  | clear _ => ∅

/-- All elements are inside the ground range, and the bounds below the last number of `unsigned`. -/
def Meets : Build → Prop
  | empty all => all.1 ≤ all.2 ∧ all.2 < 2 ^ 32 - 1
  | unionWithElement b i => b.Meets ∧ i ∈ Finset.Ico b.all.1 b.all.2
  | unionWithRange b m => b.Meets ∧ Finset.Ico m.1 m.2 ⊆ Finset.Ico b.all.1 b.all.2
  | unionWithMask b m => b.Meets ∧ m.Meets
  | invert b => b.Meets
  | clear b => b.Meets

theorem Meets.bounded {b : Build} (hb : b.Meets) : b.all.2 < 2 ^ 32 - 1 := by
  induction b with
  | empty all => exact hb.2
  | unionWithElement b i ih => exact ih hb.1
  | unionWithRange b m ih => exact ih hb.1
  | unionWithMask b m ihb ihm => exact max_lt (ihm hb.2) (ihb hb.1)
  | invert b ih => exact ih hb
  | clear b ih => exact ih hb

theorem run_spans (b : Build) (hb : b.Meets) : ∃ mask, b.run = some mask ∧ mask.Spans b.all b.set := by
  induction b with
  | empty all => exact ⟨_, rfl, rfl, Apart.nil, rfl, Finset.empty_subset _, hb.1⟩
  | unionWithElement b i ih =>
    obtain ⟨mask, hrun, h⟩ := ih hb.1
    have hbounded := hb.1.bounded
    obtain ⟨out, hout, h'⟩ := h.unionWithElement (by omega) hb.2
    exact ⟨out, by rw [run, hrun]; exact hout, h'⟩
  | unionWithRange b m ih =>
    obtain ⟨mask, hrun, h⟩ := ih hb.1
    obtain ⟨out, hout, h'⟩ := h.unionWithRange hb.2
    exact ⟨out, by rw [run, hrun]; exact hout, h'⟩
  | unionWithMask b m ihb ihm =>
    obtain ⟨mask, hrun, h⟩ := ihb hb.1
    obtain ⟨mask', hrun', h'⟩ := ihm hb.2
    obtain ⟨out, hout, h''⟩ := h.unionWithMask h'
    exact ⟨out, by rw [run, hrun, hrun']; exact hout, h''⟩
  | invert b ih =>
    obtain ⟨mask, hrun, h⟩ := ih hb
    exact ⟨mask.inverted, by rw [run, hrun]; rfl, h.inverted⟩
  | clear b ih =>
    obtain ⟨mask, hrun, h⟩ := ih hb
    exact ⟨mask.clear, by rw [run, hrun]; rfl, h.clear⟩

theorem run_represents (b : Build) (hb : b.Meets) :
    ∃ mask, b.run = some mask ∧ mask.Represents b.all b.set := by
  obtain ⟨mask, hrun, h⟩ := b.run_spans hb
  exact ⟨mask, hrun, h.all_eq, h.apart, h.elements_eq, h.inside, h.ordered, hb.bounded⟩

end Build

/-- After any operations the loops have ended, the ranges are not empty, sorted, disjoint, not
adjacent and inside the ground range, and what the mask answers is so of the set that the operations
describe; the iteration gives it in ascending order. -/
theorem mask_isSet (b : Build) (hb : b.Meets) :
    ∃ mask, b.run = some mask ∧ mask.all = b.all ∧
      mask.ranges.Apart ∧ (∀ r ∈ mask.ranges, b.all.1 ≤ r.1 ∧ r.2 ≤ b.all.2) ∧
      (∀ i, mask.contains i = decide (i ∈ b.set)) ∧ mask.size = b.set.card ∧
      (mask.empty = true ↔ b.set = ∅) ∧ (mask.full = true ↔ b.set = Finset.Ico b.all.1 b.all.2) ∧
      (∀ t < 2 ^ 32 - 1, IsLeast {x | x ∈ b.set ∧ t < x} (mask.next t) ∨ mask.next t = b.all.2 ∧
        ∀ x ∈ b.set, x ≤ t) ∧
      ∀ fuel ≥ b.set.card, mask.iterate fuel mask.begin = some (b.set.sort (· ≤ ·)) := by
  obtain ⟨mask, hrun, h⟩ := b.run_represents hb
  exact ⟨mask, hrun, h.all_eq, h.apart, fun r hr => h.spans.mem_inside hr, h.spans.contains_eq,
    h.size_eq, h.spans.empty_iff, h.spans.full_iff, fun t ht => h.next_spec ht, fun fuel hfuel =>
    h.iterate_begin hfuel⟩

/-- Two ranges that a third one joins, and the complement. -/
theorem mask_isSet_joined :
    let b := Build.invert (.unionWithRange
      (.unionWithRange (.unionWithElement (.empty (2, 20)) 4) (10, 12)) (5, 10))
    b.Meets ∧ b.run = some ⟨(2, 20), [(2, 4), (12, 20)]⟩ ∧
      ∃ mask, b.run = some mask ∧ mask.ranges.Apart ∧ mask.size = b.set.card := by
  intro b
  have hb : b.Meets := by
    refine ⟨⟨⟨⟨by decide, by decide⟩, by decide⟩, ?_⟩, ?_⟩
    · decide
    · decide
  refine ⟨hb, by decide +kernel, ?_⟩
  obtain ⟨mask, hrun, _, hapart, _, _, hsize, _⟩ := mask_isSet b hb
  exact ⟨mask, hrun, hapart, hsize⟩

section Difference
variable {mask m : RangeMask} {all all' : ℕ × ℕ} {s s' : Finset ℕ}

/-- The second complement is relative to the ground range that the union has widened. -/
theorem Spans.minus (h : Spans mask all s) (h' : Spans m all' s') :
    ∃ out, mask.minus m = some out ∧ Spans out (min all'.1 all.1, max all'.2 all.2)
      (Finset.Ico (min all'.1 all.1) (max all'.2 all.2) \ (Finset.Ico all.1 all.2 \ s ∪ s')) := by
  obtain ⟨out, hrun, hout⟩ := h.inverted.unionWithMask h'
  exact ⟨out.inverted, by rw [RangeMask.minus, hrun]; rfl, hout.inverted⟩

/-- The difference is that of the sets exactly when `m` contains all numbers that its ground range
adds to that of the mask. -/
theorem minus_isDifference_iff (h : Spans mask all s) (h' : Spans m all' s') :
    ∃ out, mask.minus m = some out ∧
      ((∀ x, out.contains x = (mask.contains x && !m.contains x)) ↔
        ∀ x, min all'.1 all.1 ≤ x → x < max all'.2 all.2 → ¬ (all.1 ≤ x ∧ x < all.2) →
        m.contains x = true) := by
  obtain ⟨out, hrun, hout⟩ := h.minus h'
  refine ⟨out, hrun, ?_⟩
  have hcontains (x : ℕ) : out.contains x = true ↔
      (min all'.1 all.1 ≤ x ∧ x < max all'.2 all.2) ∧ x ∉ s' ∧ (all.1 ≤ x ∧ x < all.2 → x ∈ s) := by
    rw [hout.contains_eq, decide_eq_true_iff]
    simp only [Finset.mem_sdiff, Finset.mem_union, Finset.mem_Ico]
    tauto
  constructor
  · intro hdifference x hfirst hend houtside
    rw [h'.contains_eq, decide_eq_true_iff]
    by_contra hx
    have hin := (hcontains x).mpr ⟨⟨hfirst, hend⟩, hx, fun hground => absurd hground houtside⟩
    rw [hdifference, h.contains_eq, Bool.and_eq_true, decide_eq_true_iff] at hin
    exact houtside (Finset.mem_Ico.mp (h.inside hin.1))
  · intro hfill x
    rw [Bool.eq_iff_iff, hcontains, h.contains_eq, h'.contains_eq, Bool.and_eq_true,
      decide_eq_true_iff, Bool.not_eq_true', decide_eq_false_iff_not]
    constructor
    · intro hx
      obtain ⟨hground, hx', hs⟩ := hx
      refine ⟨hs ?_, hx'⟩
      by_contra houtside
      have hm := hfill x hground.1 hground.2 houtside
      rw [h'.contains_eq, decide_eq_true_iff] at hm
      exact hx' hm
    · intro hx
      have hground := Finset.mem_Ico.mp (h.inside hx.1)
      refine ⟨⟨?_, ?_⟩, hx.2, fun _ => hx.1⟩
      · exact (min_le_right ..).trans hground.1
      · exact hground.2.trans_le (le_max_right ..)

/-- Ground ranges that overlap, where the subtracted mask fills the rest of its own. -/
theorem minus_isDifference_iff_filled :
    let mask : RangeMask := ⟨(0, 4), [(1, 3)]⟩
    let m : RangeMask := ⟨(2, 6), [(2, 3), (4, 6)]⟩
    mask.minus m = some ⟨(0, 6), [(1, 2)]⟩ ∧
      ∃ out, mask.minus m = some out ∧ ∀ x, out.contains x = (mask.contains x && !m.contains x) := by
  intro mask m
  have h : Spans mask (0, 4) {1, 2} := by
    refine ⟨rfl, ⟨by decide, by decide⟩, by decide, by decide, by decide⟩
  have h' : Spans m (2, 6) {2, 4, 5} := by
    refine ⟨rfl, ⟨by decide, by decide⟩, by decide, by decide, by decide⟩
  obtain ⟨out, hrun, hiff⟩ := minus_isDifference_iff h h'
  refine ⟨by decide +kernel, out, hrun, hiff.mpr fun x hfirst hend houtside => ?_⟩
  rw [h'.contains_eq, decide_eq_true_iff]
  have hx : x = 4 ∨ x = 5 := by
    have hend' : x < 6 := hend
    omega
  obtain rfl | rfl := hx <;> decide

/-- The numbers from the end of the first ground range to the end of the second come in. -/
theorem minus_disjoint :
    let mask : RangeMask := ⟨(0, 2), [(0, 1)]⟩
    let m : RangeMask := ⟨(5, 7), [(5, 6)]⟩
    mask.minus m = some ⟨(0, 7), [(0, 1), (2, 5), (6, 7)]⟩ ∧
      (RangeMask.mk (0, 7) [(0, 1), (2, 5), (6, 7)]).contains 3 = true ∧
      mask.contains 3 = false := by decide +kernel

end Difference

end RangeMask
end Vapory
