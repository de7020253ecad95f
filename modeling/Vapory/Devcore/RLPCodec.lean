import Vapory.Devcore.RLPWalk

/-! The writer and the reader are inverse: what `RLPStream` writes is read back, and
what the reader accepts in `VeryStrict` mode is what `RLPStream` writes. -/
namespace Vapory
open List

namespace RLP
open RLPTree BytesRef

variable {buf rest : Bytes} {p q n m : ℕ}

/-- A way to take lists apart that accepts exactly the tiled payloads. -/
def CutsIntoTiles (items : RLP → Except RLPError (List RLP)) : Prop :=
  ∀ {buf : Bytes} {p n m off : ℕ} {rs : List RLP}, Framed buf p true off m → off + m = n →
    p + n ≤ buf.length → (items (view buf p n) = .ok rs ↔ Tiles buf (p + off) m rs)

theorem cutsIntoTiles_toList (s : Strictness) : CutsIntoTiles fun r => r.toList s :=
  fun h hn hp => toList_eq_ok s h hn hp

theorem cutsIntoTiles_itemsByIndex : CutsIntoTiles itemsByIndex :=
  fun h hn hp => itemsByIndex_eq_ok h hn hp

/-- The largest encoding whose payload length the reader accepts is below this size. -/
def encodedSizeLimit : ℕ := 2 ^ 64 - 256

theorem length_le_of_drop {t : Bytes} (h : buf.drop p = t ++ rest) (ht : 0 < t.length) :
    p + t.length ≤ buf.length := by
  have hl := congrArg List.length h
  simp only [length_drop, length_append] at hl
  omega

theorem framed_leaf {b : Bytes} (h : buf.drop p = encodeLeaf b ++ rest)
    (hs : (encodeLeaf b).length < encodedSizeLimit) :
    ∃ off, Framed buf p false off b.length ∧ off + b.length = (encodeLeaf b).length ∧
      (buf.drop (p + off)).take b.length = b := by
  have hlim : encodedSizeLimit = sizeMax - 0x100 + 1 := rfl
  rw [encodeLeaf] at h hs ⊢
  split_ifs at h hs ⊢ with hb
  · obtain ⟨x, rfl⟩ := length_eq_one_iff.mp hb.1
    have hp := length_le_of_drop h (by simp)
    refine ⟨0, ?_, by simp, by simp [h]⟩
    exact .byte (by simp at hp; omega) (by rw [h]; simpa using hb.2)
  · have hpos := length_header_pos 0x80 b.length
    rw [append_assoc] at h
    rw [length_append] at hs ⊢
    refine ⟨(header 0x80 b.length).length, .data ⟨b ++ rest, h.symm⟩ (by omega) ?_, rfl, ?_⟩
    · intro h1
      obtain ⟨x, rfl⟩ := length_eq_one_iff.mp h1
      rw [h, header_short (by simp)]
      simpa using hb
    · rw [← drop_drop, h, drop_left, take_left]

variable {ts : List RLPTree}

theorem framed_list (h : buf.drop p = encode (.list ts) ++ rest)
    (hs : (encode (.list ts)).length < encodedSizeLimit) :
    Framed buf p true (header 0xc0 (encodeItems ts).length).length (encodeItems ts).length := by
  have hlim : encodedSizeLimit = sizeMax - 0x100 + 1 := rfl
  have hpos := length_header_pos 0xc0 (encodeItems ts).length
  rw [encode_list, append_assoc] at h
  rw [encode_list, length_append] at hs
  exact .list ⟨_, h.symm⟩ (by omega)

theorem actualSize_encode {t : RLPTree} (h : buf.drop p = encode t ++ rest)
    (hs : (encode t).length < encodedSizeLimit) :
    (view buf p (encode t).length).actualSize = .ok (encode t).length := by
  have hpos := encode_length_pos t
  rw [actualSize_iff (length_le_of_drop h hpos) (by omega) le_rfl]
  cases t with
  | leaf b =>
    rw [encode_leaf] at h hs
    obtain ⟨off, hF, ho, -⟩ := framed_leaf h hs
    exact ⟨_, off, _, hF, by rw [encode_leaf, ho]⟩
  | list ts => exact ⟨_, _, _, framed_list h hs, by rw [encode_list, length_append]⟩

/-- The views of encoded items that lie one after another from offset `q`. -/
def itemViews (buf : Bytes) : ℕ → List RLPTree → List RLP
  | _, [] => []
  | q, t :: ts => view buf q (encode t).length :: itemViews buf (q + (encode t).length) ts

@[simp] theorem length_itemViews (ts : List RLPTree) : (itemViews buf q ts).length = ts.length := by
  induction ts generalizing q with
  | nil => rfl
  | cons t ts ih => rw [itemViews, length_cons, ih, length_cons]

theorem tiles_itemViews (h : buf.drop q = encodeItems ts ++ rest)
    (hs : (encodeItems ts).length < encodedSizeLimit) :
    Tiles buf q (encodeItems ts).length (itemViews buf q ts) := by
  induction ts generalizing q with
  | nil => exact .nil q
  | cons t ts ih =>
    rw [encodeItems_cons, append_assoc] at h
    rw [encodeItems_cons, length_append] at hs ⊢
    have hd : buf.drop (q + (encode t).length) = encodeItems ts ++ rest := by
      rw [← drop_drop, h, drop_left]
    exact .cons (encode_length_pos t) (actualSize_encode h (by omega)) (ih hd (by omega))

theorem length_encode_le_of_mem {t : RLPTree} (h : t ∈ ts) :
    (encode t).length ≤ (encodeItems ts).length := by
  induction ts with
  | nil => cases h
  | cons u us ih =>
    rw [encodeItems_cons, length_append]
    cases h with
    | head => omega
    | tail _ h => have := ih h; omega

variable {R : RLP → RLPTree → Prop}

/-- What holds of every encoded item in place holds along the views of adjacent items. -/
theorem forall₂_itemViews
    (h : buf.drop q = encodeItems ts ++ rest)
    (hR : ∀ t ∈ ts, ∀ q rest, buf.drop q = encode t ++ rest → R (view buf q (encode t).length) t) :
    List.Forall₂ R (itemViews buf q ts) ts := by
  induction ts generalizing q with
  | nil => exact .nil
  | cons t ts ih =>
    rw [encodeItems_cons, append_assoc] at h
    have hd : buf.drop (q + (encode t).length) = encodeItems ts ++ rest := by
      rw [← drop_drop, h, drop_left]
    exact .cons (hR t mem_cons_self q _ h) (ih hd fun u hu => hR u (mem_cons_of_mem t hu))

theorem take_header_append {hd : Bytes} (h : hd <+: buf.drop p) :
    (buf.drop p).take (hd.length + m) = hd ++ (buf.drop (p + hd.length)).take m := by
  rw [take_add, ← prefix_iff_eq_take.mp h, drop_drop]

theorem encodeLeaf_of_framed {off : ℕ} (h : Framed buf p false off m)
    (hp : p + (off + m) ≤ buf.length) :
    (buf.drop p).take (off + m) = encodeLeaf ((buf.drop (p + off)).take m) := by
  have hlen : ((buf.drop (p + off)).take m).length = m := by
    rw [length_take, length_drop]; omega
  cases h with
  | byte hb hx =>
    rw [encodeLeaf, if_pos]
    · simp
    · refine ⟨hlen, ?_⟩
      rw [drop_eq_getElem_cons hb] at hx
      rw [Nat.add_zero, drop_eq_getElem_cons hb]
      exact hx
  | data hh hm h1 =>
    rw [encodeLeaf, hlen, if_neg, take_header_append hh]
    rintro ⟨rfl, hx⟩
    have hge := h1 rfl
    rw [header_short (by omega), length_singleton] at hx hp
    rw [drop_eq_getElem_cons (by omega : p + 1 < buf.length)] at hx
    rw [getD_eq_getElem?_getD, List.getElem?_drop, List.getElem?_eq_getElem (by omega)] at hge
    simp only [take_succ_cons, headD_cons, Option.getD_some] at hx hge
    omega

theorem encodeItems_of_tiles {rs : List RLP}
    (h : Tiles buf q m rs) (hq : q + m ≤ buf.length) (hts : List.Forall₂ R rs ts)
    (hR : ∀ q k t, q + k ≤ buf.length → (view buf q k).actualSize = .ok k → R (view buf q k) t →
      (buf.drop q).take k = encode t) :
    (buf.drop q).take m = encodeItems ts := by
  induction h generalizing ts with
  | nil =>
    cases hts
    simp
  | @cons q k m rs hk hs ht ih =>
    cases hts with
    | cons hr hrs =>
      rw [take_add, drop_drop, encodeItems_cons, hR q k _ (by omega) hs hr,
        ih (by omega) hrs]

theorem toBytes_view {off : ℕ} (s : Strictness) (h : Framed buf p false off m) (hn : off + m ≤ n) :
    (view buf p n).toBytes s = .ok ((buf.drop (p + off)).take m) := by
  have h0 : (view buf p n).isNull = false := by have := h.pos; simp; omega
  obtain ⟨hl, -, -⟩ := h.spec hn
  have hd : (view buf p n).isData = true := by rw [isData_eq h0, hl]; rfl
  rw [toBytes, hd, payload_view h hn]
  rfl

section Read
variable {items : RLP → Except RLPError (List RLP)} (hi : CutsIntoTiles items)
include hi

/-- Reading an encoded tree gives the tree. The fuel bounds the size of the encoding, which
shrinks from a list to its items. -/
theorem readTreeWith_encode (fuel : ℕ) (t : RLPTree) (hf : (encode t).length < fuel)
    (h : buf.drop p = encode t ++ rest) (hs : (encode t).length < encodedSizeLimit) :
    readTreeWith items fuel (view buf p (encode t).length) = .ok t := by
  induction fuel generalizing t p rest with
  | zero => omega
  | succ fuel ih =>
    cases t with
    | leaf b =>
      rw [encode_leaf] at h hs ⊢
      obtain ⟨off, hF, ho, hb⟩ := framed_leaf h hs
      obtain ⟨hl, -, -⟩ := hF.spec ho.le
      rw [readTreeWith, hl, toBytes_view .strict hF ho.le, hb]
      rfl
    | list ts =>
      have hF := framed_list h hs
      have hlen : (header 0xc0 (encodeItems ts).length).length + (encodeItems ts).length =
          (encode (.list ts)).length := by rw [encode_list, length_append]
      have hpos := length_header_pos 0xc0 (encodeItems ts).length
      obtain ⟨hl, -, -⟩ := hF.spec hlen.le
      have hd : buf.drop (p + (header 0xc0 (encodeItems ts).length).length) = encodeItems ts ++ rest := by
        rw [← drop_drop, h, encode_list, append_assoc, drop_left]
      have hv := (hi hF hlen (length_le_of_drop h (encode_length_pos _))).mpr
        (tiles_itemViews hd (by omega))
      have hm : (itemViews buf (p + (header 0xc0 (encodeItems ts).length).length) ts).mapM
          (readTreeWith items fuel) = .ok ts := by
        refine Except.mapM_eq_ok.mpr (forall₂_itemViews hd fun t ht q rest hq => ?_)
        have hle := length_encode_le_of_mem ht
        exact ih t (by omega) hq (by omega)
      rw [readTreeWith, hl, if_pos rfl, hv, Except.ok_bind, hm]
      rfl

theorem encode_of_readTreeWith (fuel : ℕ) (t : RLPTree) (hp : p + n ≤ buf.length)
    (hs : (view buf p n).actualSize = .ok n) (h : readTreeWith items fuel (view buf p n) = .ok t) :
    (buf.drop p).take n = encode t := by
  induction fuel generalizing t p n with
  | zero => cases h
  | succ fuel ih =>
    rw [readTreeWith] at h
    by_cases h0 : n = 0
    · -- nothing in view is neither data nor a list
      subst h0
      simp [isList, toBytes, isData, Strictness.strict] at h
    obtain ⟨l, off, m, hF, rfl⟩ := (actualSize_iff hp h0 le_rfl).mp hs
    obtain ⟨hl, -, -⟩ := hF.spec le_rfl
    rw [hl] at h
    cases l with
    | false =>
      rw [toBytes_view .strict hF le_rfl] at h
      obtain rfl := Except.ok.inj h
      rw [encode_leaf, encodeLeaf_of_framed hF hp]
    | true =>
      obtain ⟨rs, hrs, h⟩ := Except.bind_eq_ok.mp h
      obtain ⟨ts, hts, h⟩ := Except.bind_eq_ok.mp h
      obtain rfl := Except.ok.inj h
      have hitems := encodeItems_of_tiles ((hi hF rfl hp).mp hrs) (by omega)
        (Except.mapM_eq_ok.mp hts) fun q k t hq hk ht => ih t hq hk ht
      cases hF with
      | list hh hm =>
        have hlen := congrArg List.length hitems
        rw [length_take, length_drop, Nat.min_eq_left (by omega)] at hlen
        rw [take_header_append hh, hitems, encode_list, ← hlen]

end Read

end RLP

open RLP RLPTree BytesRef

theorem RLP.eq_encode_of_read {bs : Bytes} {r : RLP} {t : RLPTree}
    (hr : RLP.parse (.ofBytes bs) .veryStrict = .ok r)
    (ht : r.readTree = .ok t ∨ r.readTreeAt = .ok t) : bs = t.encode ∧ bs.length < 256 ^ 8 := by
  rw [ofBytes_eq_window, parse_veryStrict_eq_ok] at hr
  obtain ⟨rfl, hs⟩ := hr
  constructor
  · have h := ht.elim
      (encode_of_readTreeWith (cutsIntoTiles_toList .strict) _ t (by simp) hs)
      (encode_of_readTreeWith cutsIntoTiles_itemsByIndex _ t (by simp) hs)
    simpa using h
  · by_cases h0 : bs.length = 0
    · omega
    · obtain ⟨l, off, m, hF, hsum⟩ := (actualSize_iff (by simp) h0 le_rfl).mp hs
      exact hsum ▸ hF.size_lt

/-- What the writer makes of a tree is accepted in `VeryStrict` mode and read back as the
tree, by iteration and by `operator[]`; a list has as many items as were written. -/
theorem RLPTree.read_write (t : RLPTree) (hs : t.encode.length < encodedSizeLimit) :
    ∃ bs r, t.write = .ok bs ∧ RLP.parse (.ofBytes bs) .veryStrict = .ok r ∧
      r.readTree = .ok t ∧ r.readTreeAt = .ok t ∧
      ∀ ts, t = .list ts → r.itemCount = .ok ts.length := by
  have hd : t.encode.drop 0 = t.encode ++ [] := by simp
  refine ⟨t.encode, view t.encode 0 t.encode.length, write_eq t (hs.trans (by decide)), ?_, ?_, ?_, ?_⟩
  · exact parse_veryStrict_eq_ok.mpr ⟨rfl, actualSize_encode hd hs⟩
  · exact readTreeWith_encode (cutsIntoTiles_toList .strict) _ t (Nat.lt_succ_self _) hd hs
  · exact readTreeWith_encode cutsIntoTiles_itemsByIndex _ t (Nat.lt_succ_self _) hd hs
  · rintro ts rfl
    have hlen : (header 0xc0 (encodeItems ts).length).length + (encodeItems ts).length =
        (encode (.list ts)).length := by rw [encode_list, length_append]
    have hitems : (encode (.list ts)).drop (0 + (header 0xc0 (encodeItems ts).length).length) =
        encodeItems ts ++ [] := by
      rw [Nat.zero_add, encode_list, drop_left, append_nil]
    rw [itemCount_eq_ok (framed_list hd hs) hlen (by simp)]
    exact ⟨_, tiles_itemViews hitems (by omega), (length_itemViews ts).symm⟩

theorem RLPTree.read_write_nested :
    ∃ bs r, (RLPTree.list [.leaf [1], .list [], .leaf [0x80, 2]]).write = .ok bs ∧
      RLP.parse (.ofBytes bs) .veryStrict = .ok r ∧
      r.readTree = .ok (.list [.leaf [1], .list [], .leaf [0x80, 2]]) ∧
      r.readTreeAt = .ok (.list [.leaf [1], .list [], .leaf [0x80, 2]]) ∧
      ∀ ts, RLPTree.list [.leaf [1], .list [], .leaf [0x80, 2]] = .list ts → r.itemCount = .ok ts.length :=
  RLPTree.read_write _ (by simp [encodeLeaf, header, encodedSizeLimit])

/-- Bytes accepted in `VeryStrict` mode and read to the end are what the writer makes of
the tree that was read, and no other bytes are read as that tree. -/
theorem RLPTree.write_read (bs : Bytes) (r : RLP) (t : RLPTree)
    (hr : RLP.parse (.ofBytes bs) .veryStrict = .ok r)
    (ht : r.readTree = .ok t ∨ r.readTreeAt = .ok t) :
    t.write = .ok bs ∧ ∀ bs' r', RLP.parse (.ofBytes bs') .veryStrict = .ok r' →
      r'.readTree = .ok t ∨ r'.readTreeAt = .ok t → bs' = bs := by
  obtain ⟨he, hlt⟩ := eq_encode_of_read hr ht
  refine ⟨?_, fun bs' r' hr' ht' => ?_⟩
  · rw [he] at hlt ⊢
    exact write_eq t hlt
  · rw [(eq_encode_of_read hr' ht').1, he]

theorem RLPTree.write_read_pair :
    (RLPTree.list [.leaf [1], .leaf [0x80]]).write = .ok [0xc3, 1, 0x81, 0x80] ∧
      ∀ bs' r', RLP.parse (.ofBytes bs') .veryStrict = .ok r' →
        r'.readTree = .ok (.list [.leaf [1], .leaf [0x80]]) ∨
          r'.readTreeAt = .ok (.list [.leaf [1], .leaf [0x80]]) → bs' = [0xc3, 1, 0x81, 0x80] :=
  RLPTree.write_read _ (view [0xc3, 1, 0x81, 0x80] 0 4) _ (by decide) (.inl rfl)

end Vapory
