import Vapory.Devcore.RLPRead

/-! The items of a list. The iterator and the index operator both cut the payload into
adjacent well-formed items, and both accept exactly the payloads that can be cut so. -/
namespace Vapory
open List Vapory.Except Nat

namespace RLP
open BytesRef

variable {buf : Bytes} {p q n m k : ℕ} {rs : List RLP}

/-- The `m` bytes from offset `q` are adjacent items, which `rs` views one by one. -/
inductive Tiles (buf : Bytes) : ℕ → ℕ → List RLP → Prop where
  | nil (q : ℕ) : Tiles buf q 0 []
  | cons {q k m : ℕ} {rs : List RLP} (hk : 0 < k) (hs : (view buf q k).actualSize = .ok k)
      (ht : Tiles buf (q + k) m rs) : Tiles buf q (k + m) (view buf q k :: rs)

theorem tiles_zero : Tiles buf q 0 rs ↔ rs = [] := by
  constructor
  · intro h
    generalize hz : 0 = z at h
    cases h with
    | nil => rfl
    | cons hk => omega
  · rintro rfl
    exact .nil q

theorem actualSize_extend (hp : p + n ≤ buf.length) (hk : 0 < k) (hkn : k ≤ n)
    (h : (view buf p k).actualSize = .ok k) : (view buf p n).actualSize = .ok k := by
  obtain hF := (actualSize_iff (by omega) (by omega) le_rfl).mp h
  exact (actualSize_iff hp (by omega) hkn).mpr hF

theorem tiles_of_size (hp : q + m ≤ buf.length) (hk : 0 < k) (hkm : k ≤ m)
    (hs : (view buf q m).actualSize = .ok k) :
    Tiles buf q m rs ↔ ∃ us, rs = view buf q k :: us ∧ Tiles buf (q + k) (m - k) us := by
  constructor
  · intro h
    cases h with
    | nil => omega
    | @cons _ k' m' us hk' hs' ht =>
      have he := actualSize_extend hp hk' (by omega) hs'
      obtain rfl : k' = k := by rw [hs] at he; exact (Except.ok.inj he).symm
      exact ⟨us, rfl, by rwa [Nat.add_sub_cancel_left]⟩
  · rintro ⟨us, rfl, ht⟩
    have hc := Tiles.cons hk (actualSize_crop hp hkm hs) ht
    rwa [Nat.add_sub_cancel' hkm] at hc

theorem payload_view {l : Bool} {off : ℕ} (h : Framed buf p l off m) (hn : off + m ≤ n) :
    (view buf p n).payload = .ok (window buf (p + off) m) := by
  obtain ⟨-, hl, ho⟩ := h.spec hn
  have hc : ¬ (view buf p n).data.count < m := by simp only [view_data, window_count]; omega
  rw [payload, hl, ho, ok_bind, if_neg hc, view_data, window_cropped _ _ _ hn]
  rfl

section Iteration

/-- The iterator at the first item of the `m` bytes from `q`. -/
def startIter (buf : Bytes) (q m : ℕ) : Except RLPError Iterator := do
  let s ← sizeAsEncoded (window buf q m)
  return ⟨m - s, window buf q s⟩

theorem begin_eq {r : RLP} (hl : r.isList = true) (hp : r.payload = .ok (window buf q m)) :
    r.begin = startIter buf q m := by
  rw [RLP.begin, hl, hp, startIter]
  cases hs : sizeAsEncoded (window buf q m) with
  | error e => simp [hs]
  | ok s =>
    have hle := (sizeAsEncoded_eq_ok.mp hs).2
    simp only [ok_bind, hs, window_cropped buf q m (by omega : 0 + s ≤ m)]
    rfl

theorem incr_eq : Iterator.incr ⟨m, window buf q k⟩ = startIter buf (q + k) m := by
  have hw : (window buf q k).retarget (window buf q k).next m = window buf (q + k) m := rfl
  by_cases hm : m = 0
  · subst hm
    have hz : sizeAsEncoded (window buf (q + k) 0) = .ok 0 :=
      sizeAsEncoded_eq_ok.mpr ⟨actualSize_view_zero, le_rfl⟩
    rw [startIter, hz]
    rfl
  · rw [Iterator.incr, if_pos hm, startIter]
    simp only [hw]
    cases hs : sizeAsEncoded (window buf (q + k) m) with
    | error e => simp
    | ok s =>
      have hle := (sizeAsEncoded_eq_ok.mp hs).2
      simp only [ok_bind, window_cropped buf (q + k) m (by omega : 0 + s ≤ m), window_count,
        min_eq_right hle]
      rfl

theorem startIter_eq_ok {it : Iterator} : startIter buf q m = .ok it ↔
    ∃ s, (view buf q m).actualSize = .ok s ∧ s ≤ m ∧ it = ⟨m - s, window buf q s⟩ := by
  rw [startIter, bind_eq_ok]
  constructor
  · rintro ⟨s, hs, h⟩
    obtain ⟨ha, hle⟩ := sizeAsEncoded_eq_ok.mp hs
    exact ⟨s, ha, hle, (Except.ok.inj h).symm⟩
  · rintro ⟨s, ha, hle, rfl⟩
    exact ⟨s, sizeAsEncoded_eq_ok.mpr ⟨ha, hle⟩, rfl⟩

/-- The iteration from `q` yields `rs` exactly if `rs` tiles the bytes that are left. -/
theorem iterLoop_eq_ok (fuel : ℕ) (fin : Iterator) (hm : m < fuel) (hp : q + m ≤ buf.length)
    (hfin : fin.currentItem = window buf (q + m) 0) :
    (startIter buf q m >>= fun it => iterLoop fuel it fin) = .ok rs ↔ Tiles buf q m rs := by
  induction fuel generalizing q m rs with
  | zero => omega
  | succ fuel ih =>
    by_cases h0 : m = 0
    · subst h0
      have hs : startIter buf q 0 = .ok ⟨0, window buf q 0⟩ :=
        startIter_eq_ok.mpr ⟨0, actualSize_view_zero, le_rfl, rfl⟩
      have hsame : (window buf q 0).same fin.currentItem = true := by rw [hfin]; simp [same]
      rw [hs, ok_bind, iterLoop, if_pos hsame, tiles_zero, Except.ok.injEq, eq_comm]
    · rw [bind_eq_ok]
      -- the tail of the loop is the iteration from the end of the first item
      have step : ∀ s, (view buf q m).actualSize = .ok s → s ≤ m →
          (iterLoop (fuel + 1) ⟨m - s, window buf q s⟩ fin = .ok rs ↔ Tiles buf q m rs) := by
        intro s hs hle
        have hpos := actualSize_pos hp h0 hle hs
        have hne : ¬ (window buf q s).same fin.currentItem = true := by rw [hfin]; simp [same]; omega
        have hd : Iterator.deref ⟨m - s, window buf q s⟩ = .ok (view buf q s) :=
          parse_veryStrict_eq_ok.mpr ⟨rfl, actualSize_crop hp hle hs⟩
        have hrec : ∀ us, (startIter buf (q + s) (m - s) >>= fun it => iterLoop fuel it fin) = .ok us ↔
            Tiles buf (q + s) (m - s) us := fun us => ih (by omega) (by omega) (by rw [hfin]; congr 1; omega)
        rw [iterLoop, if_neg hne, hd, ok_bind, incr_eq, tiles_of_size hp hpos hle hs]
        simp only [← hrec, bind_eq_ok, pure, Except.pure, Except.ok.injEq]
        constructor
        · rintro ⟨it, hit, us, hus, rfl⟩
          exact ⟨us, rfl, it, hit, hus⟩
        · rintro ⟨us, rfl, it, hit, hus⟩
          exact ⟨it, hit, us, hus, rfl⟩
      constructor
      · rintro ⟨it, hit, h⟩
        obtain ⟨s, hs, hle, rfl⟩ := startIter_eq_ok.mp hit
        exact (step s hs hle).mp h
      · intro ht
        cases ht with
        | nil => omega
        | @cons _ k m' us hk hs htl =>
          have hx := actualSize_extend hp hk (by omega) hs
          exact ⟨_, startIter_eq_ok.mpr ⟨k, hx, by omega, rfl⟩, (step k hx (by omega)).mpr (.cons hk hs htl)⟩

theorem toList_eq_ok {off : ℕ} (s : Strictness) (h : Framed buf p true off m) (hn : off + m = n)
    (hp : p + n ≤ buf.length) :
    (view buf p n).toList s = .ok rs ↔ Tiles buf (p + off) m rs := by
  obtain ⟨hl, -, -⟩ := h.spec hn.le
  have hfin : (view buf p n).finish.currentItem = window buf (p + off + m) 0 := by
    rw [finish, view_data, window_count, window_croppedFrom _ _ _ le_rfl, Nat.sub_self, Nat.add_assoc, hn]
  rw [toList, if_pos hl, begin_eq hl (payload_view h hn.le)]
  exact iterLoop_eq_ok _ _ (by simp only [view_data, window_count]; omega) (by omega) hfin

end Iteration

section Indexing

theorem itemsLoop_eq_ok (fuel i j : ℕ) (hm : m < fuel) (hp : q + m ≤ buf.length) :
    itemsLoop fuel (window buf q m) i = .ok j ↔ ∃ rs, Tiles buf q m rs ∧ j = i + rs.length := by
  induction fuel generalizing q m i with
  | zero => omega
  | succ fuel ih =>
    rw [itemsLoop, window_count]
    split_ifs with h0
    · subst h0
      simp [tiles_zero, eq_comm]
    · rw [bind_eq_ok]
      constructor
      · rintro ⟨s, hs, h⟩
        obtain ⟨ha, hle⟩ := sizeAsEncoded_eq_ok.mp hs
        have hpos := actualSize_pos hp h0 hle ha
        rw [window_croppedFrom _ _ _ hle, ih (i + 1) (by omega) (by omega)] at h
        obtain ⟨us, ht, rfl⟩ := h
        refine ⟨view buf q s :: us, (tiles_of_size hp hpos hle ha).mpr ⟨us, rfl, ht⟩, ?_⟩
        simp only [length_cons]
        omega
      · rintro ⟨rs, ht, rfl⟩
        cases ht with
        | nil => omega
        | @cons _ k m' us hk hs htl =>
          have hx := actualSize_extend hp hk (by omega) hs
          refine ⟨k, sizeAsEncoded_eq_ok.mpr ⟨hx, by omega⟩, ?_⟩
          rw [window_croppedFrom _ _ _ (by omega), ih (i + 1) (by omega) (by omega)]
          refine ⟨us, by rwa [Nat.add_sub_cancel_left], ?_⟩
          simp only [length_cons]
          omega

theorem itemCount_eq_ok {off j : ℕ} (h : Framed buf p true off m) (hn : off + m = n)
    (hp : p + n ≤ buf.length) :
    (view buf p n).itemCount = .ok j ↔ ∃ rs, Tiles buf (p + off) m rs ∧ j = rs.length := by
  obtain ⟨hl, -, -⟩ := h.spec hn.le
  rw [itemCount, if_pos hl, items, if_pos hl, payload_view h hn.le, ok_bind,
    itemsLoop_eq_ok _ _ _ (by simp only [window_count]; omega) (by omega)]
  simp

theorem parse_item (hs : (view buf q k).actualSize = .ok k) :
    parse (window buf q k) .throwIfTooSmall = .ok (view buf q k) := by
  have hr : ({ data := window buf q k } : RLP) = view buf q k := rfl
  rw [parse_throwIfTooSmall, hr, hs, ok_bind, window_count, if_neg (lt_irrefl k)]

/-- The object after an access to item `i`, which ends `e` bytes into the payload. -/
def atItem (r : RLP) (i e : ℕ) (item : BytesRef) : RLP :=
  { r with lastIndex := i, lastEnd := e, lastItem := item }

theorem Tiles.length_le (h : Tiles buf q m rs) : rs.length ≤ m := by
  induction h with
  | nil => exact le_rfl
  | cons hk hs ht ih =>
    rw [length_cons]
    omega

theorem payload_eq_data (r : RLP) : r.payload = ({ data := r.data } : RLP).payload := rfl

end Indexing

end RLP
end Vapory
