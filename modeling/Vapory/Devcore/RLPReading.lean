import Vapory.Devcore.RLPConvert

/-! Reading the items of one RLP object by `operator[]`. Whatever was accessed before, an access
gives the item, and past the last item a null object. -/
namespace Vapory
open List Vapory.Except

namespace RLP
open RLPTree BytesRef

/-- `rlp[_i]` and a conversion of it; the state is the object, whose cache the access moves. -/
def readItem {ε α : Type} (raise : RLPError → ε) (i : ℕ) (convert : RLP → Except RLPError α) :
    StateT RLP (Except ε) α := fun r => do
  let x ← (r.index i).1.mapError raise
  let a ← (convert x).mapError raise
  return (a, (r.index i).2)

/-- `r` is an object, in some state of its cache, whose payload is cut into items of bytes `xs`. -/
inductive Lists : RLP → List Bytes → Prop where
  | intro {buf : Bytes} {p n off m : ℕ} {l : Bool} {rs : List RLP} {r : RLP} (hF : Framed buf p l off m)
      (hn : off + m = n) (hp : p + n ≤ buf.length) (ht : Tiles buf (p + off) m rs)
      (hc : Cached (view buf p n) (window buf (p + off) m) r) :
      Lists r (rs.map fun r => r.data.toBytes)

variable {buf : Bytes} {p n m q : ℕ} {r : RLP} {xs : List Bytes} {rs : List RLP}

theorem Tiles.flatten (h : Tiles buf q m rs) :
    (buf.drop q).take m = (rs.map fun r => r.data.toBytes).flatten := by
  induction h with
  | nil => simp
  | @cons q k m rs hk hs ht ih =>
    rw [map_cons, flatten_cons, take_add, drop_drop, ih]
    rfl

theorem Tiles.fills {i : ℕ} {item : RLP} (h : Tiles buf q m rs) (hq : q + m ≤ buf.length)
    (hi : rs[i]? = some item) : Fills item item.data.toBytes := by
  induction h generalizing i with
  | nil => cases hi
  | @cons q k m rs hk hs ht ih =>
    cases i with
    | zero =>
      cases hi
      exact .intro (by omega) hs
    | succ i => exact ih (by omega) hi

namespace Lists

theorem index (h : Lists r xs) {i : ℕ} (hi : i < sizeMax) :
    ∃ x, (r.index i).1 = .ok x ∧ Fills x (xs.getD i []) ∧ Lists (r.index i).2 xs := by
  cases h with
  | @intro buf p n off m l rs _ hF hn hp ht hc =>
    have hread := readable_view hF hn.le hp
    by_cases hlt : i < rs.length
    · have hget : rs[i]? = some (rs.get ⟨i, hlt⟩) := List.getElem?_eq_getElem hlt
      have hitem : (rs.map fun r => r.data.toBytes).getD i [] = (rs.get ⟨i, hlt⟩).data.toBytes := by
        rw [getD_eq_getElem?_getD, List.getElem?_map, hget]
        rfl
      obtain ⟨s, k, hview, -, hat⟩ := itemAt_of_tiles (by omega) le_rfl ht hget
      obtain ⟨hx, hc'⟩ := hc.index hread hi hat
      refine ⟨_, hx.trans (congrArg _ hview.symm), ?_, .intro hF hn hp ht hc'⟩
      rw [hitem]
      exact ht.fills (by omega) hget
    · obtain ⟨hx, hc'⟩ := hc.index hread hi (itemAt_past_tiles (by omega) ht (Nat.not_lt.mp hlt))
      have hnone : (rs.map fun r => r.data.toBytes).getD i [] = [] := by
        rw [getD_eq_getElem?_getD, List.getElem?_eq_none (by rw [length_map]; omega)]
        rfl
      rw [hnone]
      exact ⟨_, hx, .intro (n := 0) (by omega) actualSize_view_zero, .intro hF hn hp ht hc'⟩

theorem itemCount (h : Lists r xs) (hl : r.isList = true) : r.itemCount = .ok xs.length := by
  cases h with
  | @intro buf p n off m l rs _ hF hn hp ht hc =>
    have hd : r.data = window buf p n := hc.data
    have hcount : r.itemCount = (view buf p n).itemCount := by
      show (RLP.mk r.data r.lastIndex r.lastEnd r.lastItem).itemCount = _
      rw [hd]
      rfl
    have hlist : r.isList = (view buf p n).isList := by
      show (RLP.mk r.data r.lastIndex r.lastEnd r.lastItem).isList = _
      rw [hd]
      rfl
    obtain rfl : l = true := by rw [← (hF.spec hn.le).1, ← hlist, hl]
    rw [hcount, itemCount_eq_ok hF hn hp, length_map]
    exact ⟨rs, ht, rfl⟩

end Lists

theorem fills_of_parse {bs : Bytes} (hr : parse (.ofBytes bs) .veryStrict = .ok r) : Fills r bs := by
  rw [ofBytes_eq_window, parse_veryStrict_eq_ok] at hr
  obtain ⟨rfl, hs⟩ := hr
  have hfills := Fills.intro (p := 0) (by omega) hs
  rwa [drop_zero, take_length] at hfills

theorem lists_of_itemCount {bs : Bytes} {k : ℕ} (hr : parse (.ofBytes bs) .veryStrict = .ok r)
    (hl : r.isList = true) (hk : r.itemCount = .ok k) :
    ∃ xs, xs.length = k ∧ Lists r xs ∧ bs = header 0xc0 xs.flatten.length ++ xs.flatten ∧
    bs.length < 256 ^ 8 := by
  rw [ofBytes_eq_window, parse_veryStrict_eq_ok] at hr
  obtain ⟨rfl, hs⟩ := hr
  have hne : bs.length ≠ 0 := by
    intro h0
    rw [h0] at hl
    cases hl
  obtain ⟨l, off, m, hF, hsum⟩ := (actualSize_iff (by omega) hne le_rfl).mp hs
  obtain rfl : l = true := (hF.spec hsum.le).1.symm.trans hl
  obtain ⟨rs, ht, rfl⟩ := (itemCount_eq_ok hF hsum (by omega)).mp hk
  refine ⟨_, length_map _, .intro hF hsum (by omega) ht .new, ?_,
    by have := hF.size_lt; omega⟩
  cases hF with
  | list hh hm =>
    have hflat := ht.flatten
    have hlen : (rs.map fun r => r.data.toBytes).flatten.length = m := by
      rw [← hflat, length_take, length_drop]
      omega
    have hbs := take_header_append (m := m) hh
    rw [hflat, hsum, drop_zero, take_length] at hbs
    rw [hlen]
    exact hbs

theorem map_itemViews {rest : Bytes} {ts : List RLPTree} (h : buf.drop q = encodeItems ts ++ rest) :
    (itemViews buf q ts).map (fun r => r.data.toBytes) = ts.map encode := by
  induction ts generalizing q with
  | nil => rfl
  | cons t ts ih =>
    rw [encodeItems_cons, append_assoc] at h
    have hd : buf.drop (q + (encode t).length) = encodeItems ts ++ rest := by
      rw [← drop_drop, h, drop_left]
    rw [itemViews, map_cons, map_cons, ih hd, view_data, window_toBytes, h, take_left]

theorem lists_encode {ts : List RLPTree} (hs : (encode (.list ts)).length < encodedSizeLimit) :
    ∃ r, parse (.ofBytes (encode (.list ts))) .veryStrict = .ok r ∧ r.isList = true ∧
    Lists r (ts.map encode) := by
  have hd : (encode (.list ts)).drop 0 = encode (.list ts) ++ [] := by simp
  have hF := framed_list hd hs
  have hlen : (header 0xc0 (encodeItems ts).length).length + (encodeItems ts).length =
    (encode (.list ts)).length := by
    rw [encode_list, length_append]
  have hitems : (encode (.list ts)).drop (0 + (header 0xc0 (encodeItems ts).length).length) =
    encodeItems ts ++ [] := by
    rw [Nat.zero_add, encode_list, drop_left, append_nil]
  have ht := tiles_itemViews hitems (by omega)
  refine ⟨_, parse_veryStrict_eq_ok.mpr ⟨rfl, actualSize_encode hd hs⟩, (hF.spec hlen.le).1, ?_⟩
  rw [← map_itemViews hitems]
  exact .intro hF hlen (by omega) ht .new

section Read
variable {ε α : Type}

theorem yields_readItem (raise : RLPError → ε) (i : ℕ) (convert : RLP → Except RLPError α)
    (h : Lists r xs) (hi : i < sizeMax) :
    ∃ x r', Fills x (xs.getD i []) ∧ Lists r' xs ∧
      ∀ P, Yields (readItem raise i convert) r P ↔ ∃ a, convert x = .ok a ∧ P a r' := by
  obtain ⟨x, hx, hf, hl⟩ := h.index hi
  refine ⟨x, _, hf, hl, fun P => ?_⟩
  constructor
  · rintro ⟨a, r', hrun, hP⟩
    obtain ⟨y, hy, hrun⟩ := bind_eq_ok.mp hrun
    obtain rfl : y = x := Except.ok.inj ((mapError_eq_ok.mp hy).symm.trans hx)
    obtain ⟨b, hb, hrun⟩ := bind_eq_ok.mp hrun
    cases hrun
    exact ⟨a, mapError_eq_ok.mp hb, hP⟩
  · rintro ⟨a, ha, hP⟩
    refine ⟨a, _, ?_, hP⟩
    apply bind_eq_ok.mpr
    refine ⟨x, mapError_eq_ok.mpr hx, ?_⟩
    exact bind_eq_ok.mpr ⟨a, mapError_eq_ok.mpr ha, rfl⟩

theorem yields_readInt (raise : RLPError → ε) (i size : ℕ) (h : Lists r xs) (hi : i < sizeMax)
    (hsize : size < 256 ^ 8) : ∃ r', Lists r' xs ∧
    ∀ P, Yields (readItem raise i (toInt size .strict)) r P ↔
      ∃ v, (v < 256 ^ size ∧ xs.getD i [] = encodeLeaf (BigEndian.digits v)) ∧ P v r' := by
  obtain ⟨x, r', hf, hl, hy⟩ := yields_readItem raise i (toInt size .strict) h hi
  refine ⟨r', hl, fun P => ?_⟩
  rw [hy P]
  apply exists_congr
  intro v
  have hlen : v < 256 ^ size → (BigEndian.digits v).length < 256 ^ 8 := fun hv =>
    ((BigEndian.digits_length_le_iff v size).mpr hv).trans_lt hsize
  rw [hf.toInt_eq_ok, and_comm (a := Holds _ _)]
  exact and_congr_left' (and_congr_right fun hv => hf.holds_iff (hlen hv))

theorem yields_readHash (raise : RLPError → ε) (i size : ℕ) (h : Lists r xs) (hi : i < sizeMax)
    (hsize : size < 256 ^ 8) : ∃ r', Lists r' xs ∧
    ∀ P, Yields (readItem raise i (toHash size .veryStrict)) r P ↔
      ∃ b, (b.length = size ∧ xs.getD i [] = encodeLeaf b) ∧ P b r' := by
  obtain ⟨x, r', hf, hl, hy⟩ := yields_readItem raise i (toHash size .veryStrict) h hi
  refine ⟨r', hl, fun P => ?_⟩
  rw [hy P]
  apply exists_congr
  intro b
  rw [hf.toHash_eq_ok, and_comm (a := Holds _ _)]
  exact and_congr_left' (and_congr_right fun hb => hf.holds_iff (hb.trans_lt hsize))

theorem yields_readRaw (raise : RLPError → ε) (h : Lists r xs) (is : List ℕ)
    (hi : ∀ i ∈ is, i < sizeMax) : ∃ r', Lists r' xs ∧
    ∀ P, Yields (is.mapM fun i => readItem raise i fun x => pure x.data.toBytes) r P ↔
      P (is.map fun i => xs.getD i []) r' := by
  induction is generalizing r with
  | nil => exact ⟨r, h, fun P => yields_pure []⟩
  | cons i is ih =>
    obtain ⟨x, r₁, hf, h₁, e₁⟩ :=
      yields_readItem raise i (fun x => pure x.data.toBytes) h (hi i mem_cons_self)
    obtain ⟨r₂, h₂, e₂⟩ := ih h₁ fun j hj => hi j (mem_cons_of_mem i hj)
    refine ⟨r₂, h₂, fun P => ?_⟩
    simp only [mapM_cons, yields_bind, e₁, e₂, yields_pure, map_cons, hf.toBytes_data]
    constructor
    · rintro ⟨_, ⟨⟩, hP⟩
      exact hP
    · intro hP
      exact ⟨_, rfl, hP⟩

end Read

end RLP
end Vapory
