import Vapory.Devcore.RLPReading

/-! Items that are encoded trees: how the stream writes them, and what the conversions give of
them. -/
namespace Vapory
open RLPTree List

def intTree (i : ℕ) : RLPTree := .leaf (BigEndian.digits i)

namespace RLPStream

theorem appendInt_eq (s : RLPStream) {i : ℕ} (h : i < 256 ^ 32) :
    s.appendInt i = s.appendTree (intTree i) := by
  have hlen : (BigEndian.digits i).length < 256 ^ 8 :=
    ((BigEndian.digits_length_le_iff i 32).mpr h).trans_lt (by norm_num)
  exact (appends_appendInt hlen s).trans (appends_append hlen s).symm

theorem appendTrees_singleton (s : RLPStream) (t : RLPTree) : s.appendTrees [t] = s.appendTree t := by
  rw [appendTrees]
  exact bind_pure _

theorem appendTrees_append (s : RLPStream) (ts us : List RLPTree) :
    s.appendTrees (ts ++ us) = s.appendTrees ts >>= fun s => s.appendTrees us := by
  induction ts generalizing s with
  | nil => rfl
  | cons t ts ih =>
    rw [cons_append, appendTrees, appendTrees, bind_assoc]
    exact bind_congr fun s => ih s

theorem appendTrees_map {α : Type} (f : α → RLPTree) (s : RLPStream) (as : List α) :
    s.appendTrees (as.map f) = as.foldlM (fun s a => s.appendTree (f a)) s := by
  induction as generalizing s with
  | nil => rfl
  | cons a as ih =>
    rw [map_cons, appendTrees, foldlM_cons]
    exact bind_congr fun s => ih s

end RLPStream

namespace RLP
open BytesRef

variable {x : RLP} {b y : Bytes} {i size : ℕ} {ts : List RLPTree}

/-- `RLP::size`. -/
def sizeOfItem (r : RLP) : Except RLPError ℕ := if r.isData then r.length else pure 0

/-! Strings. -/

theorem Fills.length_lt (h : Fills x y) : y.length < 256 ^ 8 := by
  cases h with
  | @intro buf p n hp hs =>
    rw [length_take, length_drop]
    by_cases hn : n = 0
    · omega
    · obtain ⟨l, off, m, hF, hsum⟩ := (actualSize_iff hp hn le_rfl).mp hs
      have := hF.size_lt
      omega

theorem holds_leaf (h : Fills x (encode (.leaf b))) : Holds x b := by
  have hlt := h.length_lt
  rw [encode_leaf] at hlt
  exact (h.holds_iff ((length_le_encodeLeaf b).trans_lt hlt)).mpr (encode_leaf b)

theorem toInt_intTree (h : Fills x (encode (intTree i))) (hi : i < 256 ^ size) :
    x.toInt size .strict = .ok i :=
  (holds_leaf h).toInt hi

theorem toHash_leaf (s : Strictness) (h : Fills x (encode (.leaf b))) (hb : b.length = size) :
    x.toHash size s = .ok b := by
  have hold := holds_leaf h
  obtain ⟨d, hpayload, hd, hcount⟩ := hold.payload
  have hgood : ¬ (!x.isData ∨ size < d.count ∧ s.failIfTooBig ∨ d.count < size ∧
    s.failIfTooSmall) := by
    rw [hold.isData, hcount, hb]
    simp
  rw [toHash, hold.good, hpayload, Except.ok_bind, Except.ok_bind, if_neg hgood, hcount, hb,
    min_self, Nat.sub_self, hd, ← hb, take_length]
  rfl

theorem toBytes_leaf (h : Fills x (encode (.leaf b))) : x.toBytes .laissezFaire = .ok b :=
  ((h.toBytes_eq_ok .laissezFaire).mpr (holds_leaf h)).2

theorem length_of_holds (h : Fills x y) (hold : Holds x b) : x.length = .ok b.length := by
  obtain ⟨d, hpayload, -, hcount⟩ := hold.payload
  have hnull := isNull_of_isData hold.isData
  cases h with
  | @intro buf p n hp hs =>
    have hn : n ≠ 0 := by simpa using hnull
    obtain ⟨l, off, m, hF, hsum⟩ := (actualSize_iff hp hn le_rfl).mp hs
    obtain rfl : window buf (p + off) m = d := Except.ok.inj ((payload_view hF hsum.le).symm.trans hpayload)
    exact (hF.spec hsum.le).2.1.trans (congrArg Except.ok hcount)

theorem sizeOfItem_leaf (h : Fills x (encode (.leaf b))) : sizeOfItem x = .ok b.length := by
  have hold := holds_leaf h
  rw [sizeOfItem, if_pos hold.isData, length_of_holds h hold]

/-! Lists. -/

theorem header_ne_encodeLeaf {c : Bytes} (hb : b.length < 256 ^ 8) (hc : c.length < 256 ^ 8) :
    header 0xc0 c.length ++ c ≠ encodeLeaf b := by
  intro h
  have hlist := (headD_header le_rfl hc c).1
  rw [h] at hlist
  have := headD_encodeLeaf hb
  omega

theorem Fills.framed (h : Fills x (encode (.list ts))) :
    ∃ buf p off m, x = view buf p (off + m) ∧ Framed buf p true off m ∧ p + (off + m) ≤ buf.length ∧
    m < encodedSizeLimit ∧
      buf.drop (p + off) = encodeItems ts ++ buf.drop (p + (off + m)) ∧ m = (encodeItems ts).length := by
  have hlt := h.length_lt
  have hpos := encode_length_pos (.list ts)
  generalize he : encode (.list ts) = e at h hlt hpos
  rw [encode_list] at he
  cases h with
  | @intro buf p n hp hs =>
    have hn : n ≠ 0 := by
      rintro rfl
      simp at hpos
    obtain ⟨l, off, m, hF, rfl⟩ := (actualSize_iff hp hn le_rfl).mp hs
    have hdata : l = true := by
      by_contra hl
      rw [Bool.not_eq_true] at hl
      subst hl
      rw [encodeLeaf_of_framed hF hp] at he hlt
      have hitems : (encodeItems ts).length < 256 ^ 8 := by
        rw [← he, length_append] at hlt
        omega
      exact header_ne_encodeLeaf ((length_le_encodeLeaf _).trans_lt hlt) hitems he
    subst hdata
    have hF' := hF
    cases hF with
    | list hh hm =>
      have hpayload : ((buf.drop (p + (header 0xc0 m).length)).take m).length = m := by
        rw [length_take, length_drop]
        omega
      have heq : encodeItems ts = (buf.drop (p + (header 0xc0 m).length)).take m := by
        apply @header_append_inj 0xc0
        rw [he, take_header_append hh, hpayload]
      refine ⟨buf, p, _, m, rfl, hF', hp, hm.trans (by decide), ?_, by rw [heq, hpayload]⟩
      have hrest : buf.drop (p + ((header 0xc0 m).length + m)) =
        (buf.drop (p + (header 0xc0 m).length)).drop m := by
        rw [drop_drop, Nat.add_assoc]
      rw [heq, hrest, take_append_drop]

theorem Fills.isList (h : Fills x (encode (.list ts))) : x.isList = true := by
  obtain ⟨buf, p, off, m, rfl, hF, -⟩ := h.framed
  exact (hF.spec le_rfl).1

theorem Fills.lists (h : Fills x (encode (.list ts))) : Lists x (ts.map encode) := by
  obtain ⟨buf, p, off, m, rfl, hF, hp, hm, hdrop, rfl⟩ := h.framed
  rw [← map_itemViews hdrop]
  exact .intro hF rfl hp (tiles_itemViews hdrop hm) .new

theorem Fills.toList (s : Strictness) (h : Fills x (encode (.list ts))) :
    ∃ rs, x.toList s = .ok rs ∧ List.Forall₂ (fun r t => Fills r (encode t)) rs ts := by
  obtain ⟨buf, p, off, m, rfl, hF, hp, hm, hdrop, rfl⟩ := h.framed
  refine ⟨_, (toList_eq_ok s hF rfl hp).mpr (tiles_itemViews hdrop hm),
    forall₂_itemViews hdrop fun t ht q rest hq => ?_⟩
  have hsize := (length_encode_le_of_mem ht).trans_lt hm
  have hfills : Fills (view buf q (encode t).length) _ :=
    .intro (length_le_of_drop hq (encode_length_pos t)) (actualSize_encode hq hsize)
  rwa [hq, take_left] at hfills

end RLP
end Vapory
