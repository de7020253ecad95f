import Vapory.Devcore.RLPIndex

/-! The loop from `begin()` to `end()` over any list that a constructor accepts. The end is where
the bytes in view end, not where the payload does, so the loop meets it only if the list fills its
view. -/
namespace Vapory
open Vapory.Except

namespace RLP
open BytesRef

/-- The loop from `begin()` to `end()`, left after `fuel` rounds. -/
def sweep (r : RLP) (fuel : ℕ) : Except RLPError (List RLP) := do
  let it ← r.begin
  iterLoop fuel it r.finish

def SweepsTo (r : RLP) (res : Except RLPError (List RLP)) : Prop :=
  res ≠ .error .diverges ∧ ∃ rounds, ∀ fuel, rounds ≤ fuel → r.sweep fuel = res

section Errors
variable {ε α β : Type} {r : RLP} {d : BytesRef}

theorem bind_ne_error {x : Except ε α} {f : α → Except ε β} {e : ε} (hx : x ≠ .error e)
    (hf : ∀ a, f a ≠ .error e) : (x >>= f) ≠ .error e := by
  cases x with
  | error e' =>
    rw [error_bind]
    intro h
    obtain rfl := Except.error.inj h
    exact hx rfl
  | ok a => exact hf a

theorem indirectLength_ne_diverges {l k : ℕ} : r.indirectLength l k ≠ .error .diverges := by
  simp only [indirectLength]
  split_ifs
  all_goals simp

theorem requireGood_ne_diverges : r.requireGood ≠ .error .diverges := by
  unfold requireGood
  split_ifs
  all_goals simp

theorem length_ne_diverges : r.length ≠ .error .diverges := by
  unfold length
  split_ifs
  · simp [pure, Except.pure]
  · refine bind_ne_error requireGood_ne_diverges fun _ => ?_
    simp only
    split_ifs
    · simp [pure, Except.pure]
    · simp [pure, Except.pure]
    · exact indirectLength_ne_diverges
    · simp [pure, Except.pure]
    · exact indirectLength_ne_diverges

theorem actualSize_ne_diverges : r.actualSize ≠ .error .diverges := by
  unfold actualSize
  split_ifs
  · simp [pure, Except.pure]
  · simp [pure, Except.pure]
  · exact bind_ne_error length_ne_diverges fun l => by simp [pure, Except.pure]
  · simp [pure, Except.pure]

theorem sizeAsEncoded_ne_diverges : sizeAsEncoded d ≠ .error .diverges := by
  rw [sizeAsEncoded, parse_throwIfTooSmall]
  refine bind_ne_error (bind_ne_error actualSize_ne_diverges fun a => ?_) fun r =>
    actualSize_ne_diverges
  split_ifs
  all_goals simp

theorem payload_ne_diverges : r.payload ≠ .error .diverges := by
  refine bind_ne_error length_ne_diverges fun l => ?_
  split_ifs
  · simp
  · simp [pure, Except.pure]

end Errors

section Loop
variable {buf : Bytes} {q m fuel : ℕ} {fin : Iterator} {rs : List RLP}

theorem iterLoop_stuck {d : BytesRef} (hd : d = null buf ∨ d = window buf q 0)
    (hfin : ¬ d.same fin.currentItem = true) : iterLoop fuel ⟨0, d⟩ fin = .error .diverges := by
  have hderef : Iterator.deref ⟨0, d⟩ = .ok { data := d } := by
    rcases hd with rfl | rfl
    · rfl
    · exact parse_veryStrict_eq_ok.mpr ⟨rfl, actualSize_view_zero⟩
  have hincr : Iterator.incr ⟨0, d⟩ = .ok ⟨0, d⟩ := by
    rcases hd with rfl | rfl
    · rfl
    · rfl
  induction fuel with
  | zero => rfl
  | succ fuel ih =>
    rw [iterLoop, if_neg hfin, hderef, ok_bind, hincr, ok_bind, ih]
    rfl

theorem startIter_zero : startIter buf q 0 = .ok ⟨0, window buf q 0⟩ :=
  startIter_eq_ok.mpr ⟨0, actualSize_view_zero, le_rfl, rfl⟩

theorem iterLoop_succ {s : ℕ} (hp : q + m ≤ buf.length) (hm : m ≠ 0)
    (hs : sizeAsEncoded (window buf q m) = .ok s) (hfin : fin.currentItem.count = 0) :
    (startIter buf q m >>= fun it => iterLoop (fuel + 1) it fin) =
      (startIter buf (q + s) (m - s) >>= fun it => iterLoop fuel it fin) >>= fun rs =>
      .ok (view buf q s :: rs) := by
  obtain ⟨hsize, hle⟩ := sizeAsEncoded_eq_ok.mp hs
  have hpos := actualSize_pos hp hm hle hsize
  have hne : ¬ (window buf q s).same fin.currentItem = true := by
    simp only [same, hfin, decide_eq_true_eq]
    exact fun h => hpos.ne' h.2
  have hd : Iterator.deref ⟨m - s, window buf q s⟩ = .ok (view buf q s) :=
    parse_veryStrict_eq_ok.mpr ⟨rfl, actualSize_crop hp hle hsize⟩
  rw [startIter_eq_ok.mpr ⟨s, hsize, hle, rfl⟩, ok_bind, iterLoop, if_neg hne, hd, ok_bind, incr_eq,
    bind_assoc]
  rfl

/-- Over a payload of items whose end is not the end of the view, the loop does not stop. -/
theorem iterLoop_diverges (htiles : Tiles buf q m rs) (hp : q + m ≤ buf.length)
    (hfin : fin.currentItem.count = 0)
    (hend : ¬ (window buf (q + m) 0).same fin.currentItem = true) :
    (startIter buf q m >>= fun it => iterLoop fuel it fin) = .error .diverges := by
  induction htiles generalizing fuel with
  | nil q =>
    rw [startIter_zero, ok_bind]
    exact iterLoop_stuck (.inr rfl) hend
  | @cons q k m rs hk hs ht ih =>
    have hs' : sizeAsEncoded (window buf q (k + m)) = .ok k :=
      sizeAsEncoded_eq_ok.mpr ⟨actualSize_extend hp hk (by omega) hs, by omega⟩
    cases fuel with
    | zero => 
      rw [startIter, hs']
      rfl
    | succ fuel =>
      rw [iterLoop_succ hp (by omega) hs' hfin, Nat.add_sub_cancel_left,
        ih (by omega) (by rwa [Nat.add_assoc])]
      rfl

theorem iterLoop_error (hno : ¬ ∃ rs, Tiles buf q m rs) (hp : q + m ≤ buf.length)
    (hfin : fin.currentItem.count = 0) : ∃ e, e ≠ .diverges ∧ ∀ fuel, m ≤ fuel →
    (startIter buf q m >>= fun it => iterLoop fuel it fin) = .error e := by
  induction m using Nat.strong_induction_on generalizing q with
  | _ m ih =>
    have hm : m ≠ 0 := by
      rintro rfl
      exact hno ⟨[], .nil q⟩
    cases hs : sizeAsEncoded (window buf q m) with
    | error e =>
      refine ⟨e, fun he => ?_, fun fuel _ => ?_⟩
      · rw [he] at hs
        exact sizeAsEncoded_ne_diverges hs
      · rw [startIter, hs]
        rfl
    | ok s =>
      obtain ⟨hsize, hle⟩ := sizeAsEncoded_eq_ok.mp hs
      have hpos := actualSize_pos hp hm hle hsize
      have hrest : ¬ ∃ rs, Tiles buf (q + s) (m - s) rs := by
        rintro ⟨rs, hrs⟩
        exact hno ⟨_, (tiles_of_size hp hpos hle hsize).mpr ⟨rs, rfl, hrs⟩⟩
      obtain ⟨e, he, hloop⟩ := ih (m - s) (by omega) hrest (by omega)
      refine ⟨e, he, fun fuel hfuel => ?_⟩
      obtain ⟨fuel, rfl⟩ : ∃ f, fuel = f + 1 := ⟨fuel - 1, by omega⟩
      rw [iterLoop_succ hp hm hs hfin, hloop fuel (by omega)]
      rfl

end Loop

/-- The loop visited as many items as the list counts, and those that the index operator gives. -/
structure Exact (r : RLP) (rs : List RLP) : Prop where
  itemCount : r.itemCount = .ok rs.length
  index : ∀ i x, rs[i]? = some x → (r.index i).1 = .ok x

section Lists
variable {b : Bytes} {s : Strictness} {r : RLP} {q m : ℕ} {rs : List RLP}

theorem itemCount_window (hlist : r.isList = true) (hpl : r.payload = .ok (window b q m))
    (hq : q + m ≤ b.length) {j : ℕ} : r.itemCount = .ok j ↔ ∃ rs, Tiles b q m rs ∧
    j = rs.length := by
  rw [RLP.itemCount, if_pos hlist, items, if_pos hlist, hpl, ok_bind, window_count,
    itemsLoop_eq_ok _ _ _ (Nat.lt_succ_self _) hq]
  simp

theorem exact_of_tiles (hr : parse (.ofBytes b) s = .ok r) (hlist : r.isList = true)
    (hpl : r.payload = .ok (window b q m)) (hq : q + m ≤ b.length) (htiles : Tiles b q m rs) :
    Exact r rs := by
  have h := readable_of_parse hr hpl
  refine ⟨(itemCount_window hlist hpl hq).mpr ⟨rs, htiles, rfl⟩, fun i x hx => ?_⟩
  obtain ⟨hlt, -⟩ := List.getElem?_eq_some_iff.mp hx
  have hi : i < sizeMax := (hlt.trans_le htiles.length_le).trans h.lt
  obtain ⟨item, hat, -, rfl⟩ := (hasItem_iff h.sane).mp ⟨q, m, rs, rfl, le_rfl, htiles, hx⟩
  rw [index_new h hi, hat]
  rfl

theorem sweep_window (hlist : r.isList = true) (hpl : r.payload = .ok (window b q m)) (fuel : ℕ) :
    r.sweep fuel = startIter b q m >>= fun it => iterLoop fuel it r.finish := by
  rw [sweep, begin_eq hlist hpl]

theorem not_sweepsTo_of_diverges {res : Except RLPError (List RLP)}
    (h : ∀ fuel, r.sweep fuel = .error .diverges) : ¬ r.SweepsTo res := by
  rintro ⟨hne, rounds, hres⟩
  exact hne ((hres rounds le_rfl).symm.trans (h rounds))

theorem eq_view_of_isList (hr : parse (.ofBytes b) s = .ok r) (hlist : r.isList = true) :
    r = view b 0 b.length ∧ b.length ≠ 0 := by
  rcases eq_of_parse hr with rfl | rfl
  · refine ⟨rfl, fun hzero => ?_⟩
    have hnull : (view b 0 b.length).isNull = true := beq_iff_eq.mpr hzero
    have hnot : (view b 0 b.length).isList = false := by
      rw [isList, hnull]
      rfl
    cases hlist.symm.trans hnot
  · cases hlist

/-- The cases of a list: it has no payload, its payload lies in view, or the payload is longer than
what is in view behind the head. -/
theorem payload_cases (hr : parse (.ofBytes b) s = .ok r) (hlist : r.isList = true) :
    (∃ e, r.payload = .error e) ∨
    (∃ off m, r.payload = .ok (window b off m) ∧ off + m ≤ b.length ∧ r.actualSize = .ok (off + m)) ∨
    (r.payload = .ok (null b) ∧ ∃ a, r.actualSize = .ok a ∧ b.length < a) := by
  obtain ⟨rfl, hn⟩ := eq_view_of_isList hr hlist
  cases hpl : (view b 0 b.length).payload with
  | error e => exact .inl ⟨e, rfl⟩
  | ok pl =>
    obtain ⟨m, hm, hpay⟩ := bind_eq_ok.mp hpl
    have hsize : (view b 0 b.length).actualSize = .ok ((view b 0 b.length).payloadOffset + m) := by
      rw [actualSize_eq hn, hm]
      rfl
    by_cases hcount : (view b 0 b.length).data.count < m
    · rw [if_pos hcount] at hpay
      cases hpay
    · rw [if_neg hcount] at hpay
      obtain rfl : (window b 0 b.length).cropped (view b 0 b.length).payloadOffset m = pl :=
        Except.ok.inj hpay
      by_cases hfits : (view b 0 b.length).payloadOffset + m ≤ b.length
      · refine .inr (.inl ⟨(view b 0 b.length).payloadOffset, m, ?_, hfits, hsize⟩)
        rw [window_cropped _ _ _ hfits, Nat.zero_add]
      · refine .inr (.inr ⟨?_, _, hsize, not_le.mp hfits⟩)
        simp [window, cropped, hfits]

section End
variable (hr : parse (.ofBytes b) s = .ok r) (hlist : r.isList = true)
include hr hlist

theorem finish_currentItem : r.finish.currentItem = window b b.length 0 := by
  obtain ⟨rfl, -⟩ := eq_view_of_isList hr hlist
  rw [finish, view_data, window_count, window_croppedFrom _ _ _ le_rfl, Nat.sub_self, Nat.zero_add]

theorem sweepsTo_of_tiles (hpl : r.payload = .ok (window b q m)) (hq : q + m = b.length)
    (htiles : Tiles b q m rs) : r.SweepsTo (.ok rs) := by
  refine ⟨by simp, m + 1, fun fuel hfuel => ?_⟩
  rw [sweep_window hlist hpl]
  refine (iterLoop_eq_ok fuel r.finish hfuel hq.le ?_).mpr htiles
  rw [finish_currentItem hr hlist, hq]

/-- Items, and bytes behind them: the iterator passes the end of the payload, and the end of the
loop is elsewhere. -/
theorem sweep_diverges_of_tiles (hpl : r.payload = .ok (window b q m)) (hq : q + m < b.length)
    (htiles : Tiles b q m rs) (fuel : ℕ) : r.sweep fuel = .error .diverges := by
  have hend := finish_currentItem hr hlist
  rw [sweep_window hlist hpl]
  refine iterLoop_diverges htiles hq.le ?_ ?_
  · rw [hend]
    rfl
  · rw [hend]
    simp [same, hq.ne]

theorem sweepsTo_of_untiled (hpl : r.payload = .ok (window b q m)) (hq : q + m ≤ b.length)
    (hno : ¬ ∃ rs, Tiles b q m rs) : (∃ e, r.SweepsTo (.error e)) ∧
    ∃ e, r.itemCount = .error e := by
  have hfin : r.finish.currentItem.count = 0 := by
    rw [finish_currentItem hr hlist]
    rfl
  obtain ⟨e, he, hloop⟩ := iterLoop_error hno hq hfin
  constructor
  · refine ⟨e, by simpa using he, m, fun fuel hfuel => ?_⟩
    rw [sweep_window hlist hpl]
    exact hloop fuel hfuel
  · cases hitems : r.itemCount with
    | error e => exact ⟨e, rfl⟩
    | ok j =>
      obtain ⟨rs, htiles, -⟩ := (itemCount_window hlist hpl hq).mp hitems
      exact absurd ⟨rs, htiles⟩ hno

/-- A head that promises more than there is: an iterator without a place. -/
theorem sweep_diverges_of_null (hpl : r.payload = .ok (null b)) (fuel : ℕ) :
    r.sweep fuel = .error .diverges := by
  have hbegin : r.begin = .ok ⟨0, null b⟩ := by
    rw [RLP.begin, if_pos hlist, hpl]
    rfl
  have hne : ¬ (null b).same r.finish.currentItem = true := by
    rw [finish_currentItem hr hlist]
    simp [same, null]
  rw [sweep, hbegin, ok_bind]
  exact iterLoop_stuck (q := 0) (.inl rfl) hne

end End

theorem sweepsTo_of_payload_error {e : RLPError} (hlist : r.isList = true)
    (hpl : r.payload = .error e) : r.SweepsTo (.error e) ∧ r.itemCount = .error e := by
  refine ⟨⟨fun he => ?_, 0, fun fuel _ => ?_⟩, ?_⟩
  · rw [Except.error.inj he] at hpl
    exact payload_ne_diverges hpl
  · rw [sweep, RLP.begin, if_pos hlist, hpl]
    rfl
  · rw [RLP.itemCount, if_pos hlist, items, if_pos hlist, hpl]
    rfl

/-- The loop over a list ends, and is exact unless it throws, if and only if the list fills its view
or counting its items throws. -/
theorem sweep_exact_iff (hr : parse (.ofBytes b) s = .ok r) (hlist : r.isList = true) :
    (∃ res, r.SweepsTo res ∧ ∀ rs, res = .ok rs → Exact r rs) ↔
      r.actualSize = .ok r.data.count ∨ ∃ e, r.itemCount = .error e := by
  have hcount : r.data.count = b.length := by
    rw [(eq_view_of_isList hr hlist).1]
    rfl
  have hthrows {e : RLPError} (h : r.SweepsTo (.error e)) : ∃ res, r.SweepsTo res ∧
    ∀ rs, res = .ok rs → Exact r rs := by
    refine ⟨.error e, h, fun rs hrs => ?_⟩
    cases hrs
  -- a loop that does not stop, over a list whose items can be counted and that does not fill its view
  have hnever {a j : ℕ} (hloop : ∀ fuel, r.sweep fuel = .error .diverges)
      (hsize : r.actualSize = .ok a) (ha : a ≠ b.length)
      (hitems : r.itemCount = .ok j) : (∃ res, r.SweepsTo res ∧ ∀ rs, res = .ok rs → Exact r rs) ↔
        r.actualSize = .ok r.data.count ∨ ∃ e, r.itemCount = .error e := by
    refine iff_of_false ?_ ?_
    · rintro ⟨res, hres, -⟩
      exact not_sweepsTo_of_diverges hloop hres
    · rintro (hfills | ⟨e, he⟩)
      · rw [hcount] at hfills
        exact ha (Except.ok.inj (hsize.symm.trans hfills))
      · cases he.symm.trans hitems
  rcases payload_cases hr hlist with ⟨e, hpl⟩ | ⟨off, m, hpl, hle, hsize⟩ | ⟨hpl, a, hsize, hlt⟩
  · obtain ⟨hsweep, hitems⟩ := sweepsTo_of_payload_error hlist hpl
    exact iff_of_true (hthrows hsweep) (.inr ⟨e, hitems⟩)
  · by_cases htiled : ∃ rs, Tiles b off m rs
    · obtain ⟨rs, htiles⟩ := htiled
      have hexact := exact_of_tiles hr hlist hpl hle htiles
      rcases Nat.eq_or_lt_of_le hle with hfull | hmore
      · refine iff_of_true ⟨.ok rs, sweepsTo_of_tiles hr hlist hpl hfull htiles, fun rs' hrs => ?_⟩ (.inl ?_)
        · rwa [← Except.ok.inj hrs]
        · rw [hsize, hfull, hcount]
      · exact hnever (sweep_diverges_of_tiles hr hlist hpl hmore htiles) hsize hmore.ne hexact.itemCount
    · obtain ⟨⟨e, hsweep⟩, hitems⟩ := sweepsTo_of_untiled hr hlist hpl hle htiled
      exact iff_of_true (hthrows hsweep) (.inr hitems)
  · have hitems : r.itemCount = .ok 0 := by
      rw [RLP.itemCount, if_pos hlist, items, if_pos hlist, hpl]
      rfl
    exact hnever (sweep_diverges_of_null hr hlist hpl) hsize hlt.ne' hitems

/-- An empty list with a byte behind it. -/
theorem sweep_trailing : ∃ r, parse (.ofBytes [0xc0, 0x00]) .laissezFaire = .ok r ∧
    r.isList = true ∧ r.itemCount = .ok 0 ∧ ∀ fuel, r.sweep fuel = .error .diverges := by
  have hr : parse (.ofBytes [0xc0, 0x00]) .laissezFaire = .ok (view [0xc0, 0x00] 0 2) := rfl
  have hpl : (view [0xc0, 0x00] 0 2).payload = .ok (window [0xc0, 0x00] 1 0) := by decide +kernel
  have hlist : (view [0xc0, 0x00] 0 2).isList = true := by decide +kernel
  exact ⟨view [0xc0, 0x00] 0 2, hr, hlist, by decide +kernel, sweep_diverges_of_tiles hr hlist hpl
    (by decide) (.nil 1)⟩

theorem sweep_exact_two : ∃ r res, parse (.ofBytes [0xc2, 0x01, 0x02]) .veryStrict = .ok r ∧
    r.SweepsTo res ∧ ∀ rs, res = .ok rs → Exact r rs := by
  obtain ⟨r, hr, hlist, hsize⟩ : ∃ r, parse (.ofBytes [0xc2, 0x01, 0x02]) .veryStrict = .ok r ∧
      r.isList = true ∧ r.actualSize = .ok r.data.count := exists_ok_and (by decide +kernel)
  obtain ⟨res, hres⟩ := (sweep_exact_iff hr hlist).mpr (.inl hsize)
  exact ⟨r, res, hr, hres⟩

end Lists

end RLP
end Vapory
