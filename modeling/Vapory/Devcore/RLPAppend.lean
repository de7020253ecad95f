import Vapory.Devcore.RLPCodec

/-! What the calls of `RLPStream` add to an open list, so that a serialiser is read as the list
of its items; and that an item's header and bytes determine the bytes. -/
namespace Vapory
open List BigEndian

namespace RLPStream
open RLPTree

/-- `op` appends one item, of bytes `x`. -/
def Appends (op : RLPStream → Except RLPError RLPStream) (x : Bytes) : Prop :=
  ∀ s, op s = noteAppendedLoop s.listStack (s.bytes ++ x) 1

theorem appends_append {b : Bytes} (h : b.length < 256 ^ 8) :
    Appends (fun s => s.append b false) (encodeLeaf b) :=
  fun s => append_eq s b h

theorem appends_raw (b : Bytes) : Appends (fun s => s.appendRaw b 1) b := fun _ => rfl

theorem encodeLeaf_digits_of_lt {i : ℕ} (h0 : i ≠ 0) (h : i < 0x80) :
    encodeLeaf (digits i) = [UInt8.ofNat i] := by
  have hd : digits i = [UInt8.ofNat i] := by
    rw [digits_succ h0, Nat.div_eq_of_lt (by omega), Nat.mod_eq_of_lt (by omega)]
    rfl
  rw [hd, encodeLeaf, if_pos]
  constructor
  · rfl
  · show (UInt8.ofNat i).toNat < 0x80
    rw [RLP.toNat_ofNat_of_lt (by omega)]
    exact h

theorem encodeLeaf_digits_of_le {i : ℕ} (h : 0x80 ≤ i) :
    encodeLeaf (digits i) = header 0x80 (digits i).length ++
    digits i := by
  rw [encodeLeaf, if_neg]
  rintro ⟨hlen, hlt⟩
  obtain ⟨b, hb⟩ := length_eq_one_iff.mp hlen
  have hv := value_digits i
  rw [hb] at hv hlt
  have hbi : b.toNat = i := by simpa [value] using hv
  have hb' : b.toNat < 0x80 := hlt
  omega

theorem appends_appendInt {i : ℕ} (h : (digits i).length < 256 ^ 8) :
    Appends (fun s => s.appendInt i) (encodeLeaf (digits i)) := by
  have hc : rlpDataImmLenCount = 56 := rfl
  have hst : rlpDataImmLenStart = 0x80 := rfl
  have hz : rlpDataIndLenZero = 0x80 + 55 := rfl
  intro s
  show s.appendInt i = _
  by_cases h0 : i = 0
  · subst h0
    rfl
  by_cases hlt : i < 0x80
  · rw [encodeLeaf_digits_of_lt h0 hlt]
    simp only [appendInt, hst, if_neg h0, if_pos hlt]
    rfl
  · have hb : bytesRequired (digits i).length ≤ 8 := (bytesRequired_le_iff _ _).mpr h
    have hi : ¬ 0x80 + 55 + bytesRequired (digits i).length > 0xff := by omega
    have hp : pushIntBytes i (digits i).length = digits i := by
      rw [← bytesRequired_eq, pushIntBytes_bytesRequired]
    rw [encodeLeaf_digits_of_le (by omega), header]
    simp only [appendInt, hst, hc, hz, if_neg h0, if_neg hlt, bytesRequired_eq i, hp]
    by_cases h56 : (digits i).length < 56
    · simp [h56, pushByte, noteAppended, Nat.add_comm]
    · simp only [if_neg h56, if_neg hi, pushIntBytes_bytesRequired]
      simp [pushByte, noteAppended, bytesRequired_eq]

section
variable {op : RLPStream → Except RLPError RLPStream} {x o : Bytes} {k p : ℕ} {st : List (ℕ × ℕ)}

theorem Appends.step (h : Appends op x) :
    op ⟨o, (k + 2, p) :: st⟩ = .ok ⟨o ++ x, (k + 1, p) :: st⟩ := by
  rw [h, noteAppendedLoop]
  simp

theorem Appends.last (h : Appends op x) (hlen : (o ++ x).length < 256 ^ 8) :
    op ⟨o, [(1, 0)]⟩ = .ok ⟨header 0xc0 (o ++ x).length ++ (o ++ x), []⟩ :=
  (h _).trans (noteAppendedLoop_close [] [] (o ++ x) hlen)

end

theorem foldlM_appends {α : Type} {op : α → RLPStream → Except RLPError RLPStream} {x : α → Bytes}
    {as : List α} (h : ∀ a ∈ as, Appends (op a) (x a)) (hne : as ≠ []) (o : Bytes)
    (hlen : (o ++ as.flatMap x).length < 256 ^ 8) :
    as.foldlM (fun s a => op a s) ⟨o, [(as.length, 0)]⟩ =
      .ok ⟨header 0xc0 (o ++ as.flatMap x).length ++ (o ++ as.flatMap x), []⟩ := by
  induction as generalizing o with
  | nil => exact absurd rfl hne
  | cons a as ih =>
    have ha := h a mem_cons_self
    have hflat : o ++ (a :: as).flatMap x = o ++ x a ++ as.flatMap x := by
      rw [flatMap_cons, append_assoc]
    rw [hflat] at hlen ⊢
    cases as with
    | nil =>
      rw [flatMap_nil, append_nil] at hlen ⊢
      rw [foldlM_cons, length_singleton, ha.last hlen, Except.ok_bind]
      rfl
    | cons b bs =>
      rw [foldlM_cons, length_cons, length_cons, ha.step, Except.ok_bind]
      exact ih (fun c hc => h c (mem_cons_of_mem a hc)) (cons_ne_nil b bs) (o ++ x a) hlen

/-- `op` appends one item whenever it returns. -/
def AppendsItem (op : RLPStream → Except RLPError RLPStream) : Prop :=
  ∀ s s', op s = .ok s' → ∃ x, noteAppendedLoop s.listStack (s.bytes ++ x) 1 = .ok s'

theorem Appends.appendsItem {op : RLPStream → Except RLPError RLPStream} {x : Bytes}
    (h : Appends op x) : AppendsItem op := by
  intro s s' hs
  rw [h] at hs
  exact ⟨x, hs⟩

theorem appendsItem_append (b : Bytes) : AppendsItem fun s => s.append b false := by
  intro s s' h
  have h : s.append b false = .ok s' := h
  simp only [append, Bool.false_eq_true, if_false] at h
  split_ifs at h
  · exact ⟨_, h⟩
  · refine ⟨UInt8.ofNat (b.length + rlpDataImmLenStart) :: b, ?_⟩
    rw [append_cons]
    exact h
  · obtain ⟨s₁, hs₁, h⟩ := Except.bind_eq_ok.mp h
    rw [pushCount] at hs₁
    split_ifs at hs₁
    cases hs₁
    refine ⟨UInt8.ofNat (bytesRequired b.length + rlpDataIndLenZero) :: pushIntBytes b.length
      (bytesRequired b.length) ++ b, ?_⟩
    rw [← append_assoc]
    exact h

theorem headD_closeList {o o' : Bytes} (h : closeList o 0 = .ok o') : 0xc0 ≤ (o'.headD 0).toNat := by
  have hc : rlpListImmLenCount = 56 := rfl
  have hs : rlpListStart = 0xc0 := rfl
  have hz : rlpListIndLenZero = 0xf7 := rfl
  simp only [closeList, hc, hs, hz] at h
  split_ifs at h with h₁ h₂
  · cases h
    simp only [take_zero, nil_append, singleton_append, headD_cons]
    rw [RLP.toNat_ofNat_of_lt (by omega)]
    omega
  · cases h
    simp only [take_zero, nil_append, cons_append, headD_cons]
    rw [RLP.toNat_ofNat_of_lt (by omega)]
    omega

/-- Whatever completes the only open list, the first byte is that of a list. -/
theorem headD_foldlM {α : Type} {op : α → RLPStream → Except RLPError RLPStream} {as : List α}
    {o : Bytes} {s' : RLPStream} (h : ∀ a ∈ as, AppendsItem (op a)) (hne : as ≠ [])
    (hs : as.foldlM (fun s a => op a s) ⟨o, [(as.length, 0)]⟩ = .ok s') :
    0xc0 ≤ (s'.bytes.headD 0).toNat := by
  induction as generalizing o with
  | nil => exact absurd rfl hne
  | cons a as ih =>
    rw [foldlM_cons] at hs
    obtain ⟨s₁, hs₁, hs⟩ := Except.bind_eq_ok.mp hs
    obtain ⟨x, hx⟩ := h a mem_cons_self _ _ hs₁
    have hx : noteAppendedLoop [((a :: as).length, 0)] (o ++ x) 1 = .ok s₁ := hx
    cases as with
    | nil =>
      rw [noteAppendedLoop] at hx
      obtain ⟨o', ho', hx⟩ := Except.bind_eq_ok.mp hx
      cases hx
      cases hs
      exact headD_closeList ho'
    | cons b bs =>
      cases hx
      exact ih (fun c hc => h c (mem_cons_of_mem a hc)) (cons_ne_nil b bs) hs

end RLPStream

namespace RLPTree

theorem encodeLeaf_ne_nil (b : Bytes) : encodeLeaf b ≠ [] :=
  ne_nil_of_length_pos (by simpa using encode_length_pos (.leaf b))

theorem encodeItems_eq_flatten (ts : List RLPTree) : encodeItems ts = (ts.map encode).flatten := by
  induction ts with
  | nil => simp
  | cons t ts ih => rw [encodeItems_cons, ih, map_cons, flatten_cons]

theorem encodeItems_leaves (bs : List Bytes) :
    encodeItems (bs.map .leaf) = bs.foldl (fun o b => o ++ encodeLeaf b) [] := by
  suffices h : ∀ o, o ++ encodeItems (bs.map .leaf) =
    bs.foldl (fun o b => o ++ encodeLeaf b) o from h []
  induction bs with
  | nil => simp
  | cons b bs ih =>
    intro o
    rw [map_cons, encodeItems_cons, encode_leaf, foldl_cons, ← ih, append_assoc]

theorem digits_length_mono {m n : ℕ} (h : m ≤ n) :
    (digits m).length ≤ (digits n).length := by
  rw [digits_length_le_iff]
  exact lt_of_le_of_lt h ((digits_length_le_iff n _).mp le_rfl)

theorem length_header_mono (start : ℕ) {m n : ℕ} (h : m ≤ n) :
    (header start m).length ≤ (header start n).length := by
  have hd := digits_length_mono h
  rw [RLP.length_header, RLP.length_header]
  split_ifs <;> omega

/-- The bytes after a header are determined: longer bytes have no shorter header. -/
theorem header_append_inj {start : ℕ} {x y : Bytes}
    (h : header start x.length ++ x = header start y.length ++ y) : x = y := by
  have hlen : x.length = y.length := by
    have hl := congrArg List.length h
    rw [length_append, length_append] at hl
    rcases le_total x.length y.length with hle | hle
    · have := length_header_mono start hle
      omega
    · have := length_header_mono start hle
      omega
  rw [hlen] at h
  exact append_cancel_left h

theorem headD_header {start m : ℕ} (hs : start ≤ 0xc0) (hm : m < 256 ^ 8) (x : Bytes) :
    start ≤ ((header start m ++ x).headD 0).toNat ∧
    ((header start m ++ x).headD 0).toNat < start + 64 := by
  have hk : (digits m).length ≤ 8 := (digits_length_le_iff m 8).mpr hm
  rw [header]
  split_ifs with h
  · have ht : (UInt8.ofNat (start + m)).toNat = start + m := RLP.toNat_ofNat_of_lt (by omega)
    simp only [singleton_append, headD_cons, ht]
    omega
  · have ht : (UInt8.ofNat (start + 55 + (digits m).length)).toNat =
      start + 55 + (digits m).length :=
      RLP.toNat_ofNat_of_lt (by omega)
    simp only [cons_append, headD_cons, ht]
    omega

theorem headD_encodeLeaf {b : Bytes} (h : b.length < 256 ^ 8) :
    ((encodeLeaf b).headD 0).toNat < 0xc0 := by
  rw [encodeLeaf]
  split_ifs with hb
  · omega
  · exact (headD_header (by omega) h b).2

theorem encodeLeaf_injective {b c : Bytes} (hb : b.length < 256 ^ 8) (hc : c.length < 256 ^ 8)
    (h : encodeLeaf b = encodeLeaf c) : b = c := by
  rw [encodeLeaf, encodeLeaf] at h
  split_ifs at h with h₁ h₂ h₂
  · exact h
  · have hge : 0x80 ≤ ((header 0x80 c.length ++ c).headD 0).toNat := (headD_header (by omega) hc c).1
    rw [← h] at hge
    omega
  · have hge : 0x80 ≤ ((header 0x80 b.length ++ b).headD 0).toNat := (headD_header (by omega) hb b).1
    rw [h] at hge
    omega
  · exact header_append_inj h

end RLPTree
end Vapory
