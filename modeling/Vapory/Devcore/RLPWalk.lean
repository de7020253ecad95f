import Vapory.Devcore.RLPItems

/-! The walk of `operator[]` over any bytes. It ends at the item asked for, behind the last item, or
at an item that is malformed, and it leaves the object with the item in its cache or, if it threw,
with the rest of the payload. -/
namespace Vapory
open List Vapory.Except Nat

namespace RLP
open BytesRef

section Sane

/-- A view that stays in its buffer. -/
inductive Sane : BytesRef → Prop where
  | null (buf : Bytes) : Sane (null buf)
  | window {buf : Bytes} {p n : ℕ} (h : p + n ≤ buf.length) : Sane (window buf p n)

variable {d pl : BytesRef} {e i j k : ℕ}

theorem count_croppedFrom (h : Sane d) (e : ℕ) : (d.croppedFrom e).count = d.count - e := by
  cases h with
  | null buf => exact (Nat.zero_sub e).symm
  | @window buf p n h =>
    by_cases he : e ≤ n
    · rw [window_croppedFrom buf p n he]
      rfl
    · have hnull : (window buf p n).croppedFrom e = null buf := by simp [window, croppedFrom, he]
      rw [hnull, window_count]
      exact (Nat.sub_eq_zero_of_le (not_le.mp he).le).symm

theorem Sane.croppedFrom (h : Sane d) (e : ℕ) : Sane (d.croppedFrom e) := by
  cases h with
  | null buf => exact .null buf
  | @window buf p n h =>
    by_cases he : e ≤ n
    · rw [window_croppedFrom buf p n he]
      exact .window (by omega)
    · have hnull : (BytesRef.window buf p n).croppedFrom e = BytesRef.null buf := by
        simp [BytesRef.window, BytesRef.croppedFrom, he]
      rw [hnull]
      exact .null buf

theorem Sane.croppedFrom_zero (h : Sane d) : d.croppedFrom 0 = d := by
  cases h with
  | null buf => rfl
  | @window buf p n h => exact window_croppedFrom buf p n (zero_le n)

theorem sizeAsEncoded_of_count (h : d.count = 0) : sizeAsEncoded d = .ok 0 := by
  have hnull : ({ data := d } : RLP).isNull = true := by
    show (d.count == 0) = true
    rw [h]
    rfl
  have hsize : ({ data := d } : RLP).actualSize = .ok 0 := by
    rw [actualSize, hnull]
    rfl
  rw [sizeAsEncoded, parse_throwIfTooSmall, hsize, ok_bind, if_neg (not_lt_zero _), ok_bind, hsize]

/-- The item at the front of a view: it is there, it is as large as it says, and it is accepted. -/
structure Item (d item : BytesRef) (k : ℕ) : Prop where
  count : item.count = k
  le : k ≤ d.count
  parse : RLP.parse item .throwIfTooSmall = .ok { data := item }
  pos : d.count ≠ 0 → 0 < k

theorem Sane.item (h : Sane d) (hk : sizeAsEncoded d = .ok k) : Item d (d.cropped 0 k) k := by
  cases h with
  | null buf =>
    rw [sizeAsEncoded_of_count rfl] at hk
    obtain rfl := Except.ok.inj hk
    exact ⟨rfl, le_rfl, rfl, fun hne => absurd rfl hne⟩
  | @window buf p n h =>
    obtain ⟨hsize, hle⟩ := sizeAsEncoded_eq_ok.mp hk
    rw [window_cropped buf p n (by omega : 0 + k ≤ n)]
    exact ⟨rfl, hle, parse_item (actualSize_crop h hle hsize), fun hne => actualSize_pos h hne hle hsize⟩

end Sane

/-- The size of the item that starts so many bytes into the payload. Nothing is there at its end. -/
def itemSize (pl : BytesRef) (e : ℕ) : Except RLPError ℕ := sizeAsEncoded (pl.croppedFrom e)

/-- Where item `i` starts. -/
def itemStart (pl : BytesRef) : ℕ → Except RLPError ℕ
  | 0 => .ok 0
  | i + 1 => do
    let e ← itemStart pl i
    let k ← itemSize pl e
    return e + k

/-- Item `i`, or an empty view behind the last. -/
def itemAt (pl : BytesRef) (i : ℕ) : Except RLPError BytesRef := do
  let e ← itemStart pl i
  let k ← itemSize pl e
  return (pl.croppedFrom e).cropped 0 k

section Items
variable {pl : BytesRef} {e i j k : ℕ} {err : RLPError}

theorem itemStart_succ (hs : itemStart pl j = .ok e) (hk : itemSize pl e = .ok k) :
    itemStart pl (j + 1) = .ok (e + k) := by
  rw [itemStart, hs, ok_bind, hk]
  rfl

theorem itemAt_eq (hs : itemStart pl j = .ok e) (hk : itemSize pl e = .ok k) :
    itemAt pl j = .ok ((pl.croppedFrom e).cropped 0 k) := by
  rw [itemAt, hs, ok_bind, hk]
  rfl

theorem itemAt_error (hs : itemStart pl j = .ok e) (hk : itemSize pl e = .error err) (hij : j ≤ i) :
    itemAt pl i = .error err := by
  have hstart (n : ℕ) : itemStart pl (j + n + 1) = .error err := by
    induction n with
    | zero =>
      rw [add_zero, itemStart, hs, ok_bind, hk]
      rfl
    | succ n ih =>
      rw [← add_assoc, itemStart, ih]
      rfl
  rcases eq_or_lt_of_le hij with rfl | hlt
  · rw [itemAt, hs, ok_bind, hk]
    rfl
  · obtain ⟨n, rfl⟩ : ∃ n, i = j + n + 1 := ⟨i - j - 1, by omega⟩
    rw [itemAt, hstart n]
    rfl

theorem exists_first (hs : itemStart pl j = .ok e) (hk : itemSize pl e = .ok k) :
    ∃ k₀, itemSize pl 0 = .ok k₀ := by
  cases hfirst : itemSize pl 0 with
  | ok k₀ => exact ⟨k₀, rfl⟩
  | error err => cases (itemAt_eq hs hk).symm.trans (itemAt_error rfl hfirst (zero_le j))

theorem itemAt_error_mono (h : itemAt pl j = .error err) (hij : j ≤ i) : itemAt pl i = .error err := by
  cases hs : itemStart pl j with
  | ok e =>
    rw [itemAt, hs, ok_bind] at h
    cases hk : itemSize pl e with
    | ok k =>
      rw [hk] at h
      cases h
    | error err' =>
      rw [hk] at h
      obtain rfl := Except.error.inj h
      exact itemAt_error hs hk hij
  | error err' =>
    have hstart (n : ℕ) : itemStart pl (j + n) = .error err' := by
      induction n with
      | zero => exact hs
      | succ n ih =>
        rw [← add_assoc, itemStart, ih]
        rfl
    rw [itemAt, hs] at h
    obtain rfl := Except.error.inj h
    obtain ⟨n, rfl⟩ : ∃ n, i = j + n := ⟨i - j, by omega⟩
    rw [itemAt, hstart n]
    rfl

theorem itemAt_end (hs : itemStart pl j = .ok e) (hk : itemSize pl e = .ok 0) (hij : j ≤ i) :
    itemAt pl i = .ok ((pl.croppedFrom e).cropped 0 0) := by
  have hstart (n : ℕ) : itemStart pl (j + n) = .ok e := by
    induction n with
    | zero => exact hs
    | succ n ih => exact itemStart_succ ih hk
  obtain ⟨n, rfl⟩ : ∃ n, i = j + n := ⟨i - j, by omega⟩
  exact itemAt_eq (hstart n) hk

end Items

section Walk
variable {r₀ r : RLP} {pl : BytesRef} {e i j k fuel : ℕ} {err : RLPError}

/-- The object with item `j` in its cache. -/
def cell (r₀ : RLP) (pl : BytesRef) (j e k : ℕ) : RLP :=
  atItem r₀ j (e + k) ((pl.croppedFrom e).cropped 0 k)

/-- The object after a walk that threw behind item `j`: all that is left of the payload is in its
cache. -/
def torn (r₀ : RLP) (pl : BytesRef) (j e : ℕ) : RLP := atItem r₀ j e (pl.croppedFrom e)

/-- How a walk to item `i` ends. -/
inductive Walked (r₀ : RLP) (pl : BytesRef) (i : ℕ) : Except RLPError Unit × RLP → Prop where
  | found {j e k : ℕ} (hs : itemStart pl j = .ok e) (hk : itemSize pl e = .ok k)
      (hat : itemAt pl i = .ok ((pl.croppedFrom e).cropped 0 k)) (hji : j ≤ i) :
      Walked r₀ pl i (.ok (), cell r₀ pl j e k)
  | broke {j e k : ℕ} {err : RLPError} (hs : itemStart pl j = .ok e) (hk : itemSize pl e = .ok k)
      (herr : itemSize pl (e + k) = .error err) (hat : itemAt pl i = .error err) (hji : j < i) :
      Walked r₀ pl i (.error err, torn r₀ pl j (e + k))

section Step
variable (hpl : r₀.payload = .ok pl) (hji : j < i)
  (hne : ((pl.croppedFrom e).cropped 0 k).count ≠ 0)
include hpl hji hne

theorem indexLoop_torn (herr : itemSize pl (e + k) = .error err) :
    indexLoop (fuel + 1) (cell r₀ pl j e k) i = (.error err, torn r₀ pl j (e + k)) := by
  have hcell : (cell r₀ pl j e k).payload = .ok pl := hpl
  have hsize : sizeAsEncoded (pl.croppedFrom (cell r₀ pl j e k).lastEnd) = .error err := herr
  rw [indexLoop, if_pos ⟨hji, hne⟩]
  simp only [hcell, hsize]
  rfl

theorem indexLoop_next {k' : ℕ} (hk' : itemSize pl (e + k) = .ok k')
    (hcount : ((pl.croppedFrom (e + k)).cropped 0 k').count = k') :
    indexLoop (fuel + 1) (cell r₀ pl j e k) i = indexLoop fuel (cell r₀ pl (j + 1) (e + k) k') i := by
  have hcell : (cell r₀ pl j e k).payload = .ok pl := hpl
  have hend : (cell r₀ pl j e k).lastEnd = e + k := rfl
  have hsize : sizeAsEncoded (pl.croppedFrom (e + k)) = .ok k' := hk'
  rw [indexLoop, if_pos ⟨hji, hne⟩]
  simp only [hcell, hend, hsize, hcount]
  rfl

end Step

/-- A walk goes on until the item, the end, or an item that is malformed. Every turn takes bytes off
the payload. -/
theorem walked_indexLoop (hpl : r₀.payload = .ok pl) (hsane : Sane pl) (hs : itemStart pl j = .ok e)
    (hk : itemSize pl e = .ok k) (hji : j ≤ i)
    (hfuel : (if k = 0 then 0 else pl.count - (e + k) + 1) < fuel) :
    Walked r₀ pl i (indexLoop fuel (cell r₀ pl j e k) i) := by
  induction fuel generalizing j e k with
  | zero => omega
  | succ fuel ih =>
    have hitem := (hsane.croppedFrom e).item hk
    by_cases hstop : j = i ∨ k = 0
    · have hgo : ¬ ((cell r₀ pl j e k).lastIndex < i ∧ (cell r₀ pl j e k).lastItem.count ≠ 0) := by
        rintro ⟨hlt, hne⟩
        have hne : ((pl.croppedFrom e).cropped 0 k).count ≠ 0 := hne
        have hlt : j < i := hlt
        rw [hitem.count] at hne
        exact hstop.elim (fun h => (Nat.ne_of_lt hlt) h) hne
      rw [indexLoop, if_neg hgo]
      rcases hstop with rfl | rfl
      · exact .found hs hk (itemAt_eq hs hk) le_rfl
      · exact .found hs hk (itemAt_end hs hk hji) hji
    · obtain ⟨hji', hk0⟩ := not_or.mp hstop
      have hlt : j < i := by omega
      have hne : ((pl.croppedFrom e).cropped 0 k).count ≠ 0 := by
        rw [hitem.count]
        exact hk0
      cases hsize : itemSize pl (e + k) with
      | error err =>
        rw [indexLoop_torn hpl hlt hne hsize]
        exact .broke hs hk hsize (itemAt_error (itemStart_succ hs hk) hsize hlt) hlt
      | ok k' =>
        have hitem' := (hsane.croppedFrom (e + k)).item hsize
        have hle := hitem'.le
        rw [count_croppedFrom hsane] at hle
        rw [indexLoop_next hpl hlt hne hsize hitem'.count]
        refine ih (itemStart_succ hs hk) hsize hlt ?_
        rw [if_neg hk0] at hfuel
        split_ifs
        · omega
        · omega

end Walk

section Access
variable {r₀ r : RLP} {pl : BytesRef} {e i j k : ℕ} {err : RLPError} {is : List ℕ}

/-- A new object, of whose payload all views stay in the buffer. -/
structure Readable (r₀ : RLP) (pl : BytesRef) : Prop where
  eq : r₀ = { data := r₀.data }
  payload : r₀.payload = .ok pl
  sane : Sane pl
  le : pl.count ≤ r₀.data.count
  lt : pl.count < sizeMax

/-- What an access to item `i` gives, and the object after it. -/
inductive Accessed (r₀ : RLP) (pl : BytesRef) (i : ℕ) : Except RLPError RLP × RLP → Prop where
  | found {j e k : ℕ} {item : BytesRef} (hs : itemStart pl j = .ok e) (hk : itemSize pl e = .ok k)
      (hat : itemAt pl i = .ok item) (hji : j ≤ i) : Accessed r₀ pl i (.ok { data := item }, cell r₀ pl j e k)
  | broke {j e k : ℕ} {err : RLPError} (hs : itemStart pl j = .ok e) (hk : itemSize pl e = .ok k)
      (herr : itemSize pl (e + k) = .error err) (hat : itemAt pl i = .error err) (hji : j < i) :
      Accessed r₀ pl i (.error err, torn r₀ pl j (e + k))

def settle (r : Except RLPError Unit × RLP) : Except RLPError RLP × RLP :=
  match r with
  | (.error e, r) => (.error e, r)
  | (.ok _, r) => (parse r.lastItem .throwIfTooSmall, r)

theorem Walked.accessed {w : Except RLPError Unit × RLP} (hsane : Sane pl) (h : Walked r₀ pl i w) :
    Accessed r₀ pl i (settle w) := by
  cases h with
  | @found j e k hs hk hat hji =>
    have hparse := ((hsane.croppedFrom e).item hk).parse
    have hcell : (cell r₀ pl j e k).lastItem = (pl.croppedFrom e).cropped 0 k := rfl
    rw [settle, hcell, hparse]
    exact .found hs hk hat hji
  | broke hs hk herr hat hji => exact .broke hs hk herr hat hji

theorem walk_fuel (h : Readable r₀ pl) (hk : itemSize pl e = .ok k) :
    (if k = 0 then 0 else pl.count - (e + k) + 1) < r₀.data.count + 1 := by
  have hle := ((h.sane.croppedFrom e).item hk).le
  rw [count_croppedFrom h.sane] at hle
  have := h.le
  split_ifs
  · omega
  · omega

theorem accessed_forward (h : Readable r₀ pl) (hs : itemStart pl j = .ok e)
    (hk : itemSize pl e = .ok k) (hji : j ≤ i) : Accessed r₀ pl i ((cell r₀ pl j e k).index i) := by
  have hlast : ¬ i < (cell r₀ pl j e k).lastIndex := not_lt.mpr hji
  have hindex : (cell r₀ pl j e k).index i =
    settle (indexLoop (r₀.data.count + 1) (cell r₀ pl j e k) i) := by
    simp only [index, if_neg hlast]
    rfl
  rw [hindex]
  exact (walked_indexLoop h.payload h.sane hs hk hji (walk_fuel h hk)).accessed h.sane

theorem accessed_restart (h : Readable r₀ pl) (hdata : r.data = r₀.data) (hi : i < r.lastIndex)
    (hk : itemSize pl 0 = .ok k) : Accessed r₀ pl i (r.index i) := by
  have hpl : r.payload = .ok pl := by
    rw [payload_eq_data, hdata, ← payload_eq_data]
    exact h.payload
  have hsize : sizeAsEncoded pl = .ok k := by
    rw [itemSize, h.sane.croppedFrom_zero] at hk
    exact hk
  have hcell : ({ r with lastEnd := k, lastItem := pl.cropped 0 k, lastIndex := 0 } : RLP) =
    cell r₀ pl 0 0 k := by
    rw [cell, h.sane.croppedFrom_zero, zero_add]
    simp only [atItem, hdata]
  have hindex : r.index i = settle (indexLoop (r₀.data.count + 1) (cell r₀ pl 0 0 k) i) := by
    simp only [index, if_pos hi, hpl, hsize, ok_bind, pure, Except.pure, hcell]
    rfl
  rw [hindex]
  exact (walked_indexLoop h.payload h.sane rfl hk (zero_le i) (walk_fuel h hk)).accessed h.sane

theorem index_of_first_error (h : Readable r₀ pl) (hi : i < r₀.lastIndex)
    (herr : itemSize pl 0 = .error err) : r₀.index i = (.error err, r₀) := by
  have hsize : sizeAsEncoded pl = .error err := by
    rw [itemSize, h.sane.croppedFrom_zero] at herr
    exact herr
  simp only [index, if_pos hi, h.payload, hsize, ok_bind]
  rfl

theorem parse_of_sizeAsEncoded {d : BytesRef} (h : sizeAsEncoded d = .error err) :
    parse d .throwIfTooSmall = .error err := by
  rw [sizeAsEncoded, parse_throwIfTooSmall] at h
  rw [parse_throwIfTooSmall]
  cases hsize : ({ data := d } : RLP).actualSize with
  | error e' =>
    rw [hsize] at h
    obtain rfl := Except.error.inj h
    rfl
  | ok a =>
    rw [hsize, ok_bind] at h
    rw [ok_bind]
    by_cases hsmall : d.count < a
    · rw [if_pos hsmall] at h
      rw [if_pos hsmall]
      obtain rfl := Except.error.inj h
      rfl
    · rw [if_neg hsmall, ok_bind, hsize] at h
      cases h

/-- An object that threw throws again, also for the item that comes before the malformed one. -/
theorem index_torn (h : Readable r₀ pl) (herr : itemSize pl e = .error err) (hji : j ≤ i) :
    (torn r₀ pl j e).index i = (.error err, torn r₀ pl j e) := by
  have hlast : ¬ i < (torn r₀ pl j e).lastIndex := not_lt.mpr hji
  have hpl : (torn r₀ pl j e).payload = .ok pl := h.payload
  have hsize : sizeAsEncoded (pl.croppedFrom (torn r₀ pl j e).lastEnd) = .error err := herr
  have hcount : (torn r₀ pl j e).lastItem.count ≠ 0 := by
    intro hzero
    have hok : sizeAsEncoded (torn r₀ pl j e).lastItem = .ok 0 := sizeAsEncoded_of_count hzero
    cases hok.symm.trans hsize
  have hparse : parse (torn r₀ pl j e).lastItem .throwIfTooSmall = .error err :=
    parse_of_sizeAsEncoded herr
  simp only [index, if_neg hlast, indexLoop]
  by_cases hlt : j < i
  · rw [if_pos ⟨hlt, hcount⟩]
    simp only [hpl, hsize]
    rfl
  · rw [if_neg fun hgo => hlt hgo.1]
    simp only [hparse]

theorem accessed_first (h : Readable r₀ pl) (hi : i < sizeMax) (hk : itemSize pl 0 = .ok k) :
    Accessed r₀ pl i (r₀.index i) := by
  refine accessed_restart h rfl ?_ hk
  rw [h.eq]
  exact hi

theorem Accessed.result {w : Except RLPError RLP × RLP} (h : Accessed r₀ pl i w) :
    w.1 = (itemAt pl i).map fun item => { data := item } := by
  cases h with
  | found hs hk hat hji =>
    rw [hat]
    rfl
  | broke hs hk herr hat hji =>
    rw [hat]
    rfl

theorem index_new (h : Readable r₀ pl) (hi : i < sizeMax) :
    (r₀.index i).1 = (itemAt pl i).map fun item => { data := item } := by
  cases hk : itemSize pl 0 with
  | ok k => exact (accessed_first h hi hk).result
  | error err =>
    have hlast : i < r₀.lastIndex := by
      rw [h.eq]
      exact hi
    rw [index_of_first_error h hlast hk, itemAt_error rfl hk (zero_le i)]
    rfl

end Access

section Tiled
variable {buf : Bytes} {p q n m e i : ℕ} {rs us : List RLP} {r₀ r x : RLP} {pl item : BytesRef}

theorem tiles_append :
    Tiles buf q m (rs ++ us) ↔ ∃ e n, m = e + n ∧ Tiles buf q e rs ∧ Tiles buf (q + e) n us := by
  constructor
  · intro h
    induction rs generalizing q m with
    | nil => exact ⟨0, m, (zero_add m).symm, .nil q, h⟩
    | cons r rs ih =>
      cases h with
      | @cons _ k m' _ hk hs ht =>
        obtain ⟨e, n, rfl, hrs, hus⟩ := ih ht
        refine ⟨k + e, n, (add_assoc k e n).symm, .cons hk hs hrs, ?_⟩
        rwa [← add_assoc]
  · rintro ⟨e, n, rfl, hrs, hus⟩
    induction hrs with
    | nil q => rwa [zero_add]
    | @cons q k m rs hk hs ht ih =>
      rw [add_assoc]
      refine .cons hk hs (ih ?_)
      rwa [add_assoc]

theorem itemSize_of_tiles {n : ℕ} (hq : q + m ≤ buf.length) (hen : e + n ≤ m)
    (h : Tiles buf (q + e) n (x :: us)) : ∃ k n', n = k + n' ∧ 0 < k ∧ x = view buf (q + e) k ∧
    itemSize (window buf q m) e = .ok k ∧ Tiles buf (q + e + k) n' us := by
  cases h with
  | @cons _ k n' _ hk hs ht =>
    refine ⟨k, n', rfl, hk, rfl, ?_, ht⟩
    rw [itemSize, window_croppedFrom _ _ _ (by omega), sizeAsEncoded_eq_ok]
    exact ⟨actualSize_extend (by omega) hk (by omega) hs, by omega⟩

theorem itemStart_of_tiles (hq : q + m ≤ buf.length) (hem : e ≤ m) (h : Tiles buf q e rs) :
    itemStart (window buf q m) rs.length = .ok e := by
  induction rs using List.reverseRecOn generalizing e with
  | nil =>
    cases h with
    | nil => rfl
  | append_singleton rs r ih =>
    obtain ⟨e', n, rfl, hrs, hr⟩ := tiles_append.mp h
    obtain ⟨k, n', rfl, -, -, hsize, hnil⟩ := itemSize_of_tiles hq hem hr
    have hstart := itemStart_succ (ih (by omega) hrs) hsize
    cases hnil with
    | nil =>
      rw [length_append, length_singleton]
      exact hstart

theorem itemAt_of_tiles (hq : q + m ≤ buf.length) (hem : e ≤ m) (h : Tiles buf q e rs)
    (hi : rs[i]? = some x) :
    ∃ s k, x = view buf s k ∧ 0 < k ∧ itemAt (window buf q m) i = .ok (window buf s k) := by
  obtain ⟨hlt, hget⟩ := List.getElem?_eq_some_iff.mp hi
  have hcut : rs = rs.take i ++ x :: rs.drop (i + 1) := by
    rw [← hget, ← drop_eq_getElem_cons hlt, take_append_drop]
  rw [hcut] at h
  obtain ⟨e', n, rfl, hfront, hrest⟩ := tiles_append.mp h
  obtain ⟨k, n', rfl, hk, hview, hsize, -⟩ := itemSize_of_tiles hq hem hrest
  have hstart := itemStart_of_tiles hq (by omega) hfront
  rw [length_take, min_eq_left hlt.le] at hstart
  refine ⟨q + e', k, hview, hk, (itemAt_eq hstart hsize).trans ?_⟩
  rw [window_croppedFrom _ _ _ (by omega), window_cropped _ _ _ (by omega)]
  rfl

theorem itemAt_past_tiles (hq : q + m ≤ buf.length) (h : Tiles buf q m rs) (hi : rs.length ≤ i) :
    itemAt (window buf q m) i = .ok (window buf (q + m) 0) := by
  have hend : itemSize (window buf q m) m = .ok 0 := by
    refine sizeAsEncoded_of_count ?_
    rw [count_croppedFrom (.window hq)]
    exact Nat.sub_self m
  rw [itemAt_end (itemStart_of_tiles hq le_rfl h) hend hi, window_croppedFrom _ _ _ le_rfl,
    window_cropped _ _ _ (zero_le _)]
  rfl

/-- The object after some accesses, all to items that are there or behind the last. -/
inductive Cached (r₀ : RLP) (pl : BytesRef) : RLP → Prop where
  | new : Cached r₀ pl r₀
  | cell {j e k : ℕ} (hs : itemStart pl j = .ok e) (hk : itemSize pl e = .ok k) :
      Cached r₀ pl (cell r₀ pl j e k)

theorem Cached.data (h : Cached r₀ pl r) : r.data = r₀.data := by
  cases h <;> rfl

theorem Accessed.cached {w : Except RLPError RLP × RLP} (h : Accessed r₀ pl i w)
    (hat : itemAt pl i = .ok item) : w.1 = .ok { data := item } ∧ Cached r₀ pl w.2 := by
  refine ⟨by rw [h.result, hat]; rfl, ?_⟩
  cases h with
  | found hs hk _ _ => exact .cell hs hk
  | broke _ _ _ herr _ => cases hat.symm.trans herr

/-- An access gives the item and leaves a cache that serves the next access, whatever was
accessed before. -/
theorem Cached.index (hc : Cached r₀ pl r) (h : Readable r₀ pl) (hi : i < sizeMax)
    (hat : itemAt pl i = .ok item) :
    (r.index i).1 = .ok { data := item } ∧ Cached r₀ pl (r.index i).2 := by
  cases hc with
  | new =>
    cases hk : itemSize pl 0 with
    | ok k => exact (accessed_first h hi hk).cached hat
    | error err => cases hat.symm.trans (itemAt_error rfl hk (zero_le i))
  | @cell j e k hs hk =>
    rcases lt_or_ge i j with hij | hji
    · obtain ⟨k₀, hk₀⟩ := exists_first hs hk
      exact (accessed_restart (r := RLP.cell r₀ pl j e k) h rfl hij hk₀).cached hat
    · exact (accessed_forward h hs hk hji).cached hat

theorem readable_view {l : Bool} {off : ℕ} (h : Framed buf p l off m) (hn : off + m ≤ n)
    (hp : p + n ≤ buf.length) : Readable (view buf p n) (window buf (p + off) m) := by
  refine ⟨rfl, payload_view h hn, .window (by omega), ?_, ?_⟩
  · show m ≤ n
    omega
  · exact (Nat.le_add_left m off).trans_lt h.size_lt_sizeMax

theorem indexFrom_cached (h : Readable r₀ (window buf q m)) (hq : q + m ≤ buf.length)
    (ht : Tiles buf q m rs) (hc : Cached r₀ (window buf q m) r) (hus : rs.drop i = us) :
    indexFrom us.length r i = .ok us := by
  induction us generalizing i r with
  | nil => rfl
  | cons x us ih =>
    have hget : rs[i]? = some x := by
      rw [← head?_drop, hus]
      rfl
    have hlt := (List.getElem?_eq_some_iff.mp hget).1
    have hlen := ht.length_le
    have hmax : m < sizeMax := h.lt
    obtain ⟨s, k, rfl, -, hat⟩ := itemAt_of_tiles hq le_rfl ht hget
    obtain ⟨hitem, hc'⟩ := hc.index h (by omega) hat
    rw [length_cons, indexFrom, hitem, ok_bind, ih hc' (by rw [← tail_drop, hus]; rfl)]
    rfl

/-- `operator[]` in order accepts the same lists as iteration and gives the same items. -/
theorem itemsByIndex_eq_ok {off : ℕ} (h : Framed buf p true off m) (hn : off + m = n)
    (hp : p + n ≤ buf.length) :
    (view buf p n).itemsByIndex = .ok rs ↔ Tiles buf (p + off) m rs := by
  have hindex {us : List RLP} (ht : Tiles buf (p + off) m us) :
      indexFrom us.length (view buf p n) 0 = .ok us :=
    indexFrom_cached (readable_view h hn.le hp) (by omega) ht .new rfl
  rw [itemsByIndex, bind_eq_ok]
  constructor
  · rintro ⟨j, hj, hx⟩
    obtain ⟨us, hus, rfl⟩ := (itemCount_eq_ok h hn hp).mp hj
    rw [hindex hus] at hx
    exact Except.ok.inj hx ▸ hus
  · intro ht
    exact ⟨rs.length, (itemCount_eq_ok h hn hp).mpr ⟨rs, ht, rfl⟩, hindex ht⟩

end Tiled

end RLP
end Vapory
