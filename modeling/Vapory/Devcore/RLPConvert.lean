import Vapory.Base.Yields
import Vapory.Devcore.RLPAppend

/-! The conversions of an RLP item to integers and to strings of a fixed size. Each accepts one
encoding of each value. -/
namespace Vapory
open List Vapory.Except BigEndian

namespace RLP
open RLPTree BytesRef

def isInt (r : RLP) : Except RLPError Bool := do
  if r.isNull then return false
  r.requireGood
  let n := r.first
  if n < rlpDataImmLenStart then return n ≠ 0
  else if n = rlpDataImmLenStart then return true
  else if n ≤ rlpDataIndLenZero then
    if r.data.count ≤ 1 then throw .badRLP
    return r.data.get 1 ≠ 0
  else if n < rlpListStart then
    if r.data.count ≤ 1 + n - rlpDataIndLenZero then throw .badRLP
    return r.data.get (1 + n - rlpDataIndLenZero) ≠ 0
  else return false

/-- `toInt<_T>(_flags)` for an unsigned type of `maxSize` bytes. -/
def toInt (maxSize : ℕ) (s : Strictness) (r : RLP) : Except RLPError ℕ := do
  r.requireGood
  let int ← r.isInt
  if (!int && !s.allowNonCanon) || r.isList || r.isNull then
    if s.throwOnFail then throw .badCast else return 0
  let p ← r.payload
  if maxSize < p.count ∧ s.failIfTooBig then
    if s.throwOnFail then throw .badCast else return 0
  return value p.toBytes % 256 ^ maxSize

/-- `toHash<_N>(_flags)` for a type of `size` bytes: a shorter string is aligned to the right, and
of a longer one the front is taken. -/
def toHash (size : ℕ) (s : Strictness) (r : RLP) : Except RLPError Bytes := do
  r.requireGood
  let p ← r.payload
  let l := p.count
  if !r.isData ∨ size < l ∧ s.failIfTooBig ∨ l < size ∧ s.failIfTooSmall then
    if s.throwOnFail then throw .badCast else return List.replicate size 0
  return List.replicate (size - min size l) 0 ++ p.toBytes.take (min size l)

/-- `r` is a data item of bytes `b`. -/
structure Holds (r : RLP) (b : Bytes) : Prop where
  isData : r.isData = true
  good : r.requireGood = .ok ()
  payload : ∃ d, r.payload = .ok d ∧ d.toBytes = b ∧ d.count = b.length
  isInt : r.isInt = .ok (decide (b.head? ≠ some 0))

variable {buf x b : Bytes} {p n m : ℕ} {r : RLP}

theorem isNull_of_isData (h : r.isData = true) : r.isNull = false := by
  cases hn : r.isNull with
  | false => rfl
  | true =>
    rw [RLP.isData, hn] at h
    cases h

theorem isList_of_isData (h : r.isData = true) : r.isList = false := by
  have hd := isData_eq (isNull_of_isData h)
  rw [h] at hd
  cases hl : r.isList with
  | false => rfl
  | true =>
    rw [hl] at hd
    cases hd

section View
variable (hp : p + n ≤ buf.length)
include hp

theorem head?_take_drop {off : ℕ} (hn : off + m = n) :
    decide (((buf.drop (p + off)).take m).head? ≠ some 0) =
    decide (m = 0 ∨ (view buf p n).data.get off ≠ 0) := by
  cases m with
  | zero => simp
  | succ m =>
    have hlt : p + off < buf.length := by omega
    have hget : (view buf p n).data.get off = buf[p + off] := by
      rw [view_data, window_get, getD_eq_getElem?_getD, List.getElem?_drop, List.getElem?_eq_getElem hlt]
      rfl
    rw [hget, drop_eq_getElem_cons hlt, take_succ_cons, List.head?_cons]
    simp

omit hp in
theorem isInt_view {off : ℕ} (h : Framed buf p false off m) (hn : off + m = n) :
    (view buf p n).isInt = .ok (decide (m = 0 ∨ (view buf p n).data.get off ≠ 0)) := by
  have h0 : (view buf p n).isNull = false := by have := h.pos; simp; omega
  have hg : (view buf p n).requireGood = .ok () := requireGood_of_length h0 (h.spec hn.le).2.1
  have hst : rlpDataImmLenStart = 0x80 := rfl
  have hz : rlpDataIndLenZero = 0xb7 := rfl
  have hl : rlpListStart = 0xc0 := rfl
  have hcount : (view buf p n).data.count = n := rfl
  simp only [RLP.isInt, h0, hg, hst, hz, hl, hcount, Bool.false_eq_true, if_false, ok_bind]
  cases h with
  | byte hb hx =>
    rw [← first_view (n := n)] at hx
    rw [if_pos hx]
    have hfirst : (view buf p n).first = 0 ↔ (view buf p n).data.get 0 = 0 := UInt8.toNat_inj (b := 0)
    simp only [ne_eq, hfirst, Nat.one_ne_zero, false_or]
    rfl
  | data hh hm h1 =>
    have hf := first_header (n := n) (by omega) hm hh
    have hk := digits_length_le_eight hm
    have hlen := length_header (m := m) 0x80
    rw [if_neg (by split_ifs at hf <;> omega)]
    by_cases h56 : m < 56
    · rw [if_pos h56] at hf hlen
      rw [hf, hlen]
      by_cases hm0 : m = 0
      · rw [if_pos (by omega)]
        simp [hm0]
        rfl
      · rw [if_neg (by omega), if_pos (by omega), if_neg (by omega)]
        simp [hm0]
        rfl
    · have hkp := digits_length_pos (m := m) (by omega)
      rw [if_neg h56] at hf hlen
      have hoff : 1 + (view buf p n).first - 0xb7 = (header 0x80 m).length := by omega
      rw [if_neg (by omega), if_neg (by omega), if_pos (by omega), hoff, if_neg (by omega)]
      have hm0 : m ≠ 0 := by omega
      simp [hm0]
      rfl

theorem holds_view {off : ℕ} (h : Framed buf p false off m) (hn : off + m = n) :
    Holds (view buf p n) ((buf.drop (p + off)).take m) := by
  have h0 : (view buf p n).isNull = false := by have := h.pos; simp; omega
  have hlen : ((buf.drop (p + off)).take m).length = m := by
    rw [length_take, length_drop]
    omega
  constructor
  · rw [isData_eq h0, (h.spec hn.le).1]
    rfl
  · exact requireGood_of_length h0 (h.spec hn.le).2.1
  · exact ⟨_, payload_view h hn.le, rfl, hlen.symm⟩
  · rw [isInt_view h hn, head?_take_drop hp hn]

end View

/-- `r` is a new object on the bytes `x`, which it fills. Without bytes it is the null object. -/
inductive Fills : RLP → Bytes → Prop where
  | intro {buf : Bytes} {p n : ℕ} (hp : p + n ≤ buf.length)
      (hs : (view buf p n).actualSize = .ok n) : Fills (view buf p n) ((buf.drop p).take n)

namespace Fills

theorem toBytes_data (h : Fills r x) : r.data.toBytes = x := by
  cases h with
  | intro hp hs => rfl

theorem isNull_iff (h : Fills r x) : r.isNull = true ↔ x = [] := by
  cases h with
  | intro hp hs =>
    rw [isNull_view, decide_eq_true_iff, ← length_eq_zero_iff, length_take, length_drop]
    omega

theorem first_eq (h : Fills r x) (hx : x ≠ []) : r.first = (x.headD 0).toNat := by
  cases h with
  | @intro buf p n hp hs =>
    have hn : n ≠ 0 := by
      rintro rfl
      exact hx (take_zero)
    have hlt : p < buf.length := by omega
    obtain ⟨n, rfl⟩ := Nat.exists_eq_succ_of_ne_zero hn
    rw [first_view, drop_eq_getElem_cons hlt, take_succ_cons]
    rfl

theorem exists_holds (h : Fills r x) (hd : r.isData = true) :
    ∃ b, x = encodeLeaf b ∧ b.length < 256 ^ 8 ∧ Holds r b := by
  have h0 := isNull_of_isData hd
  have hl := isList_of_isData hd
  cases h with
  | @intro buf p n hp hs =>
    have hn : n ≠ 0 := by simpa using h0
    obtain ⟨l, off, m, hF, hsum⟩ := (actualSize_iff hp hn le_rfl).mp hs
    obtain rfl : l = false := (hF.spec hsum.le).1.symm.trans hl
    have hlt := hF.size_lt
    refine ⟨_, ?_, ?_, holds_view hp hF hsum⟩
    · subst hsum
      exact encodeLeaf_of_framed hF hp
    · rw [length_take]
      omega

end Fills

theorem Holds.injective {c : Bytes} (h : Holds r b) (h' : Holds r c) : b = c := by
  obtain ⟨d, hp, rfl, -⟩ := h.payload
  obtain ⟨d', hp', rfl, -⟩ := h'.payload
  rw [hp] at hp'
  cases hp'
  rfl

theorem Fills.holds_iff (h : Fills r x) (hb : b.length < 256 ^ 8) : Holds r b ↔ x = encodeLeaf b := by
  constructor
  · intro hold
    obtain ⟨c, hx, -, hc⟩ := h.exists_holds hold.isData
    rwa [hold.injective hc]
  · intro hx
    have hne : x ≠ [] := by
      rw [hx]
      exact encodeLeaf_ne_nil b
    have h0 : r.isNull = false := by
      rw [Bool.eq_false_iff]
      exact fun hn => hne (h.isNull_iff.mp hn)
    have hd : r.isData = true := by
      have hlt := headD_encodeLeaf hb
      rw [← hx, ← h.first_eq hne] at hlt
      rw [isData_eq h0, isList_eq h0, decide_eq_false (by omega)]
      rfl
    obtain ⟨c, hxc, hlt, hc⟩ := h.exists_holds hd
    rwa [encodeLeaf_injective hb hlt (hx.symm.trans hxc)]

theorem Fills.isData_iff (h : Fills r x) :
    r.isData = true ↔ ∃ b, b.length < 256 ^ 8 ∧ x = encodeLeaf b := by
  constructor
  · intro hd
    obtain ⟨b, hx, hlt, -⟩ := h.exists_holds hd
    exact ⟨b, hlt, hx⟩
  · rintro ⟨b, hlt, hx⟩
    exact ((h.holds_iff hlt).mpr hx).isData

theorem Fills.isEmpty_iff (h : Fills r x) : r.isEmpty = true ↔ x = [0x80] ∨ x = [0xc0] := by
  have hst : rlpDataImmLenStart = 0x80 := rfl
  have hl : rlpListStart = 0xc0 := rfl
  constructor
  · intro he
    cases h with
    | @intro buf p n hp hs =>
      simp only [RLP.isEmpty, hst, hl, Bool.and_eq_true, Bool.or_eq_true, beq_iff_eq, isNull_view,
        Bool.not_eq_true', decide_eq_false_iff_not] at he
      obtain ⟨hn, hfirst⟩ := he
      obtain ⟨l, off, m, hF, rfl⟩ := (actualSize_iff hp hn le_rfl).mp hs
      cases hF with
      | byte hb hx =>
        rw [← first_view (n := 0 + 1)] at hx
        omega
      | data hh hm h1 =>
        left
        have hf := first_header (n := (header 0x80 m).length + m) (by omega) hm hh
        have hk := digits_length_le_eight hm
        obtain rfl : m = 0 := by split_ifs at hf <;> omega
        exact (prefix_iff_eq_take.mp hh).symm
      | list hh hm =>
        right
        have hf := first_header (n := (header 0xc0 m).length + m) (by omega) hm hh
        have hk := digits_length_le_eight hm
        obtain rfl : m = 0 := by split_ifs at hf <;> omega
        exact (prefix_iff_eq_take.mp hh).symm
  · intro hx
    have hne : x ≠ [] := by rcases hx with rfl | rfl <;> simp
    have h0 : r.isNull = false := by
      rw [Bool.eq_false_iff]
      exact fun hn => hne (h.isNull_iff.mp hn)
    rw [RLP.isEmpty, h0, h.first_eq hne, hst, hl]
    rcases hx with rfl | rfl <;> rfl

section Convert
variable {maxSize size v : ℕ}

theorem Holds.toInt (h : Holds r (digits v)) (hv : v < 256 ^ maxSize) :
    r.toInt maxSize .strict = .ok v := by
  have hhead : decide ((digits v).head? ≠ some 0) = true := by
    rw [decide_eq_true_iff]
    intro h0
    by_cases hz : v = 0
    · rw [hz] at h0
      cases h0
    · apply head_digits_ne_zero hz
      rw [head_eq_iff_head?_eq_some]
      exact h0
  obtain ⟨d, hp, hb, hc⟩ := h.payload
  have hle : ¬ maxSize < d.count := by
    rw [hc, Nat.not_lt, digits_length_le_iff]
    exact hv
  rw [RLP.toInt, h.good, h.isInt, hhead, isList_of_isData h.isData, isNull_of_isData h.isData, hp]
  simp [ok_bind, hle, hb, Nat.mod_eq_of_lt hv]

theorem Fills.toInt_eq_ok (h : Fills r x) :
    r.toInt maxSize .strict = .ok v ↔ Holds r (digits v) ∧ v < 256 ^ maxSize := by
  constructor
  · intro hv
    rw [RLP.toInt] at hv
    obtain ⟨-, -, hv⟩ := bind_eq_ok.mp hv
    obtain ⟨int, hint, hv⟩ := bind_eq_ok.mp hv
    by_cases hbad : ((!int && !Strictness.strict.allowNonCanon) || r.isList || r.isNull) = true
    · rw [if_pos hbad] at hv
      cases hv
    rw [if_neg hbad] at hv
    obtain ⟨p, hp, hv⟩ := bind_eq_ok.mp hv
    by_cases hbig : maxSize < p.count ∧ Strictness.strict.failIfTooBig = true
    · rw [if_pos hbig] at hv
      cases hv
    rw [if_neg hbig] at hv
    have hv : value p.toBytes % 256 ^ maxSize = v := Except.ok.inj hv
    simp only [Strictness.strict, Bool.not_false, Bool.and_true, Bool.or_eq_true, Bool.not_eq_true',
      not_or, Bool.not_eq_true, Bool.not_eq_false] at hbad
    have hd : r.isData = true := by rw [isData_eq hbad.2, hbad.1.2, Bool.not_false]
    obtain ⟨b, -, -, hold⟩ := h.exists_holds hd
    obtain ⟨d, hp', hb, hc⟩ := hold.payload
    obtain rfl : p = d := Except.ok.inj (hp.symm.trans hp')
    have hle : b.length ≤ maxSize := by
      rw [← hc]
      exact Nat.not_lt.mp fun hlt => hbig ⟨hlt, rfl⟩
    have hlt : value b < 256 ^ maxSize :=
      (value_lt b).trans_le (Nat.pow_le_pow_right (by norm_num) hle)
    rw [hb, Nat.mod_eq_of_lt hlt] at hv
    have hhead : b.head? ≠ some 0 := by
      have hi := hold.isInt
      rw [hint, hbad.1.1] at hi
      exact of_decide_eq_true (Except.ok.inj hi).symm
    have hdigits : digits v = b := by
      rw [← hv]
      apply digits_value
      rintro c hc rfl
      exact hhead hc
    rw [hdigits, ← hv]
    exact ⟨hold, hlt⟩
  · rintro ⟨hd, hv⟩
    exact hd.toInt hv

theorem Holds.toHash (h : Holds r b) (hb : b.length = size) : r.toHash size .veryStrict = .ok b := by
  obtain ⟨d, hp, hd, hc⟩ := h.payload
  have hcount : d.count = size := hc.trans hb
  rw [RLP.toHash, h.good, hp]
  simp only [ok_bind, h.isData, hcount, Nat.min_self, Nat.sub_self, hd, ← hb, take_length]
  simp
  rfl

theorem Fills.toHash_eq_ok (h : Fills r x) :
    r.toHash size .veryStrict = .ok b ↔ Holds r b ∧ b.length = size := by
  constructor
  · intro hb
    have hv := hb
    rw [RLP.toHash] at hv
    obtain ⟨-, -, hv⟩ := bind_eq_ok.mp hv
    obtain ⟨p, hp, hv⟩ := bind_eq_ok.mp hv
    by_cases hbad : !r.isData ∨ size < p.count ∧ Strictness.veryStrict.failIfTooBig = true ∨
        p.count < size ∧ Strictness.veryStrict.failIfTooSmall = true
    · rw [if_pos hbad] at hv
      cases hv
    rw [if_neg hbad] at hv
    simp only [Strictness.veryStrict, and_true, not_or, Bool.not_eq_true', Bool.not_eq_false,
      Nat.not_lt] at hbad
    obtain ⟨c, -, -, hold⟩ := h.exists_holds hbad.1
    obtain ⟨d, hp', hc, hcount⟩ := hold.payload
    obtain rfl : p = d := Except.ok.inj (hp.symm.trans hp')
    have hsize : c.length = size := by omega
    obtain rfl : c = b := Except.ok.inj ((hold.toHash hsize).symm.trans hb)
    exact ⟨hold, hsize⟩
  · rintro ⟨hd, hb⟩
    exact hd.toHash hb

theorem Fills.toBytes_eq_ok (h : Fills r x) (s : Strictness) :
    r.isData = true ∧ r.toBytes s = .ok b ↔ Holds r b := by
  have hold (c : Bytes) (hc : Holds r c) : r.toBytes s = .ok c := by
    obtain ⟨d, hp, hd, -⟩ := hc.payload
    rw [RLP.toBytes, hc.isData, hp, ← hd]
    rfl
  constructor
  · rintro ⟨hd, hv⟩
    obtain ⟨c, -, -, hc⟩ := h.exists_holds hd
    rw [hold c hc] at hv
    rwa [← Except.ok.inj hv]
  · intro hb
    exact ⟨hb.isData, hold b hb⟩

end Convert

end RLP
end Vapory
