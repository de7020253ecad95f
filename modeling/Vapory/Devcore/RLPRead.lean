import Vapory.Devcore.RLP

/-! What the reader makes of the bytes in view. A header decodes to a length exactly if
it is the header the writer gives to a payload of that length. -/
namespace Vapory
open List BigEndian

namespace RLP
open RLPTree BytesRef

/-- The object that views `n` bytes of `buf` from offset `p`. -/
def view (buf : Bytes) (p n : ℕ) : RLP := { data := window buf p n }

variable {buf : Bytes} {p n m : ℕ}

@[simp] theorem view_data : (view buf p n).data = window buf p n := rfl

@[simp] theorem isNull_view : (view buf p n).isNull = decide (n = 0) := by
  by_cases h : n = 0 <;> simp [isNull, h]

@[simp] theorem first_view : (view buf p n).first = ((buf.drop p).getD 0 0).toNat := by
  simp [first]

theorem first_lt (r : RLP) : r.first < 256 := by
  have := (r.data.get 0).toNat_lt
  simpa [first] using this

variable {k : ℕ} {start : ℕ} {off : ℕ} {l : Bool}

theorem header_short (h : m < 56) : header start m = [UInt8.ofNat (start + m)] := by
  rw [header, if_pos h]

theorem header_long (h : 56 ≤ m) :
    header start m = UInt8.ofNat (start + 55 + (digits m).length) :: digits m := by
  rw [header, if_neg (by omega)]

theorem map_get_view (ds rest : Bytes) (b : UInt8) (h : buf.drop p = b :: ds ++ rest) :
    ((List.range ds.length).map fun i => (view buf p n).data.get (i + 1)) = ds := by
  apply ext_getElem
  · simp
  · intro i h₁ h₂
    simp only [getElem_map, getElem_range, view_data, window_get, h, cons_append,
      getD_cons_succ]
    rw [getD_eq_getElem?_getD, List.getElem?_append_left h₂, List.getElem?_eq_getElem h₂]
    rfl

theorem indirectLength_digits (b : UInt8) (rest : Bytes)
    (h : buf.drop p = b :: digits m ++ rest) (hn : (digits m).length < n)
    (h56 : 56 ≤ m) (hm : m < sizeMax - 0x100) :
    (view buf p n).indirectLength (digits m).length 56 = .ok m := by
  have hne : digits m ≠ [] := digits_ne_nil (by omega)
  have hk : (digits m).length ≤ 8 := by
    rw [digits_length_le_iff]
    simp only [sizeMax] at hm
    omega
  have h1 : (view buf p n).data.get 1 ≠ 0 := by
    have hd := head_digits_ne_zero (n := m) (by omega)
    obtain ⟨d, ds, hds⟩ := exists_cons_of_ne_nil hne
    simp only [hds, head_cons] at hd
    simpa [h, hds] using hd
  have hv := map_get_view (n := n) _ rest b h
  rw [indirectLength, if_neg (by simpa using hn), if_neg (fun h => h1 h.2), if_neg (by omega),
    if_neg h1]
  simp only [hv, value_digits]
  rw [if_neg (by omega), if_neg (by omega)]

theorem indirectLength_inv (hp : p + n ≤ buf.length) (hk : 0 < k)
    (h : (view buf p n).indirectLength k 56 = .ok m) :
    k < n ∧ 56 ≤ m ∧ m < sizeMax - 0x100 ∧ digits m = (buf.drop (p + 1)).take k := by
  rw [indirectLength] at h
  split_ifs at h with h₁ h₂ h₃ h₄
  simp only at h
  split_ifs at h with h₅ h₆
  simp only [Except.ok.injEq] at h
  simp only [view_data, window_count] at h₁
  have hmap : ((List.range k).map fun i => (view buf p n).data.get (i + 1)) =
      (buf.drop (p + 1)).take k := by
    apply ext_getElem
    · simp; omega
    · intro i hi₁ hi₂
      simp only [length_map, length_range] at hi₁
      have hlt : p + (i + 1) < buf.length := by omega
      simp only [getElem_map, getElem_range, view_data, window_get, getElem_take,
        getElem_drop]
      rw [getD_eq_getElem?_getD, List.getElem?_drop, List.getElem?_eq_getElem hlt,
        Option.getD_some]
      congr 1
      omega
  rw [hmap] at h h₅ h₆
  refine ⟨by omega, by omega, by omega, ?_⟩
  rw [← h]
  apply digits_value
  -- the second byte of the view is the first length byte, and it was checked
  intro b hb hz
  apply h₄
  rw [List.head?_take, if_neg (by omega), List.head?_drop, Option.mem_def] at hb
  simp only [view_data, window_get]
  rw [getD_eq_getElem?_getD, List.getElem?_drop, hb, hz]
  rfl

/-- A well-formed item head at offset `p`: whether it is a list, the size of its header and
the size of its payload. -/
inductive Framed (buf : Bytes) (p : ℕ) : Bool → ℕ → ℕ → Prop where
  | byte (hp : p < buf.length) (hb : ((buf.drop p).getD 0 0).toNat < 0x80) : Framed buf p false 0 1
  | data {m : ℕ} (hh : header 0x80 m <+: buf.drop p) (hm : m < sizeMax - 0x100)
      (h1 : m = 1 → 0x80 ≤ ((buf.drop p).getD 1 0).toNat) : Framed buf p false (header 0x80 m).length m
  | list {m : ℕ} (hh : header 0xc0 m <+: buf.drop p) (hm : m < sizeMax - 0x100) :
      Framed buf p true (header 0xc0 m).length m

theorem Framed.pos (h : Framed buf p l off m) : 0 < off + m := by
  cases h with
  | byte => omega
  | data => have := length_header_pos 0x80 m; omega
  | list => have := length_header_pos 0xc0 m; omega

theorem digits_length_le_eight (hm : m < sizeMax - 0x100) : (digits m).length ≤ 8 := by
  rw [digits_length_le_iff]
  simp only [sizeMax] at hm
  omega

theorem toNat_ofNat_of_lt (h : k < 256) : (UInt8.ofNat k).toNat = k := by
  simp [Nat.mod_eq_of_lt h]

theorem first_header (hs : start ≤ 0xc0) (hm : m < sizeMax - 0x100)
    (hh : header start m <+: buf.drop p) :
    (view buf p n).first =
      if m < 56 then start + m else start + 55 + (digits m).length := by
  obtain ⟨rest, hr⟩ := hh
  have hk := digits_length_le_eight hm
  rw [first_view, ← hr]
  split_ifs with h
  · rw [header_short h]
    exact toNat_ofNat_of_lt (by omega)
  · rw [header_long (by omega)]
    exact toNat_ofNat_of_lt (by omega)

theorem length_header (start : ℕ) :
    (header start m).length = if m < 56 then 1 else 1 + (digits m).length := by
  rw [header]
  split_ifs <;> simp
  omega

theorem digits_length_pos (h : 56 ≤ m) : 0 < (digits m).length :=
  length_pos_of_ne_nil (digits_ne_nil (by omega))

theorem indirectLength_header (hh : header start m <+: buf.drop p)
    (hn : (header start m).length ≤ n) (h56 : 56 ≤ m) (hm : m < sizeMax - 0x100) :
    (view buf p n).indirectLength (digits m).length 56 = .ok m := by
  obtain ⟨rest, hr⟩ := hh
  rw [length_header, if_neg (by omega)] at hn
  rw [header_long h56] at hr
  exact indirectLength_digits _ rest hr.symm (by omega) h56 hm

theorem Framed.size_lt_sizeMax (h : Framed buf p l off m) : off + m < sizeMax := by
  have hmax : 0x100 < sizeMax := by decide
  cases h with
  | byte => omega
  | data hh hm =>
    have hk := digits_length_le_eight hm
    rw [length_header]
    split_ifs <;> omega
  | list hh hm =>
    have hk := digits_length_le_eight hm
    rw [length_header]
    split_ifs <;> omega

theorem Framed.size_lt (h : Framed buf p l off m) : off + m < 256 ^ 8 :=
  h.size_lt_sizeMax.trans (by decide)

section Api
variable {r : RLP} (h : r.isNull = false)
include h

theorem isList_eq : r.isList = decide (0xc0 ≤ r.first) := by
  rw [isList, h]
  rfl

theorem isData_eq : r.isData = !r.isList := by
  rw [isList_eq h, isData, h, rlpListStart]
  by_cases hf : r.first < 0xc0 <;> (simp [hf]; try omega)

theorem requireGood_eq_ok :
    r.requireGood = .ok () ↔ (r.first = 0x81 → 2 ≤ r.data.count ∧ 0x80 ≤ (r.data.get 1).toNat) := by
  have hc : rlpDataImmLenStart + 1 = 0x81 := rfl
  have hs : rlpDataImmLenStart = 0x80 := rfl
  rw [requireGood, h, if_neg Bool.false_ne_true, hc, hs]
  split_ifs with h₁ h₂ h₃
  · simp [h₁]
  · simp only [false_iff]; omega
  · simp only [false_iff]; omega
  · simp only [true_iff]; omega

theorem payloadOffset_eq : r.payloadOffset =
    if r.first < 0x80 then 0 else if r.first ≤ 0xb7 then 1
    else if r.first < 0xc0 then 1 + (r.first - 0xb7)
    else if r.first ≤ 0xf7 then 1 else 1 + (r.first - 0xf7) := by
  have hs : rlpDataImmLenStart = 0x80 := rfl
  have hz : rlpDataIndLenZero = 0xb7 := rfl
  have hl : rlpListIndLenZero = 0xf7 := rfl
  have hd : r.isData = true ↔ r.first < 0xc0 := by rw [isData_eq h, isList_eq h]; simp
  have hL : r.isList = true ↔ 0xc0 ≤ r.first := by rw [isList_eq h]; simp
  have hb : r.isSingleByte = true ↔ r.first < 0x80 := by simp [isSingleByte, h, hs]
  simp only [payloadOffset, lengthSize, hd, hL, hb, hz, hl]
  split_ifs <;> omega

theorem length_eq (hg : r.requireGood = .ok ()) : r.length =
    if r.first < 0x80 then .ok 1 else if r.first ≤ 0xb7 then .ok (r.first - 0x80)
    else if r.first < 0xc0 then r.indirectLength (r.first - 0xb7) 56
    else if r.first ≤ 0xf7 then .ok (r.first - 0xc0) else r.indirectLength (r.first - 0xf7) 56 := by
  rw [RLP.length, h, hg]
  rfl

theorem requireGood_of_length (hl : r.length = .ok m) : r.requireGood = .ok () := by
  rw [RLP.length, h] at hl
  cases hg : r.requireGood with
  | error e => rw [hg] at hl; cases hl
  | ok u => rfl

end Api

theorem Framed.spec (h : Framed buf p l off m) (hn : off + m ≤ n) :
    (view buf p n).isList = l ∧ (view buf p n).length = .ok m ∧
      (view buf p n).payloadOffset = off := by
  have h0 : (view buf p n).isNull = false := by have := h.pos; simp; omega
  cases h with
  | byte hp hb =>
    rw [← first_view (n := n)] at hb
    have hg : (view buf p n).requireGood = .ok () := (requireGood_eq_ok h0).mpr (by omega)
    rw [isList_eq h0, length_eq h0 hg, payloadOffset_eq h0, if_pos hb, if_pos hb]
    exact ⟨by simp only [decide_eq_false_iff_not]; omega, rfl, rfl⟩
  | data hh hm h1 =>
    have hf := first_header (n := n) (by omega) hm hh
    have hk := digits_length_le_eight hm
    have hlen := length_header (m := m) 0x80
    have hg : (view buf p n).requireGood = .ok () := by
      rw [requireGood_eq_ok h0]
      intro h81
      have hm1 : m = 1 := by split_ifs at hf <;> omega
      rw [hm1] at hlen hn
      exact ⟨by simp only [view_data, window_count]; simp at hlen; omega, by simpa using h1 hm1⟩
    rw [isList_eq h0, length_eq h0 hg, payloadOffset_eq h0, hlen]
    by_cases h56 : m < 56
    · rw [if_pos h56] at hf
      rw [hf, if_pos h56]
      simp only [decide_eq_false_iff_not]
      split_ifs <;> simp <;> omega
    · have hkp := digits_length_pos (m := m) (by omega)
      have hi := indirectLength_header hh (by omega : _ ≤ n) (by omega) hm
      rw [if_neg h56] at hf
      have hsub : (view buf p n).first - 0xb7 = (digits m).length := by omega
      rw [hsub, hi, if_neg h56, if_neg (by omega), if_neg (by omega), if_pos (by omega),
        if_neg (by omega), if_neg (by omega), if_pos (by omega)]
      exact ⟨by simp only [decide_eq_false_iff_not]; omega, rfl, rfl⟩
  | list hh hm =>
    have hf := first_header (n := n) (by omega) hm hh
    have hk := digits_length_le_eight hm
    have hlen := length_header (m := m) 0xc0
    have hg : (view buf p n).requireGood = .ok () :=
      (requireGood_eq_ok h0).mpr (by intro h81; split_ifs at hf <;> omega)
    rw [isList_eq h0, length_eq h0 hg, payloadOffset_eq h0, hlen]
    by_cases h56 : m < 56
    · rw [if_pos h56] at hf
      rw [hf, if_pos h56]
      simp only [decide_eq_true_eq]
      split_ifs <;> simp <;> omega
    · have hkp := digits_length_pos (m := m) (by omega)
      have hi := indirectLength_header hh (by omega : _ ≤ n) (by omega) hm
      rw [if_neg h56] at hf
      have hsub : (view buf p n).first - 0xf7 = (digits m).length := by omega
      rw [hsub, hi, if_neg h56, if_neg (by omega), if_neg (by omega), if_neg (by omega), if_neg (by omega),
        if_neg (by omega), if_neg (by omega), if_neg (by omega), if_neg (by omega)]
      exact ⟨by simp only [decide_eq_true_eq]; omega, rfl, rfl⟩

theorem drop_eq_first_cons (hp : p < buf.length) :
    buf.drop p = UInt8.ofNat (view buf p n).first :: buf.drop (p + 1) := by
  rw [first_view, UInt8.ofNat_toNat, drop_eq_getElem_cons hp]
  rfl

theorem short_header_isPrefix (hp : p < buf.length) (hm : m < 56)
    (hf : (view buf p n).first = start + m) : header start m <+: buf.drop p := by
  rw [header_short hm, drop_eq_first_cons (n := n) hp, hf]
  exact ⟨_, rfl⟩

theorem long_header_isPrefix (start : ℕ) (hp : p + n ≤ buf.length) (hk : 0 < k)
    (hf : (view buf p n).first = start + 55 + k) (h : (view buf p n).indirectLength k 56 = .ok m) :
    header start m <+: buf.drop p ∧ m < sizeMax - 0x100 ∧ 56 ≤ m ∧
    (digits m).length = k := by
  obtain ⟨hkn, h56, hm, hd⟩ := indirectLength_inv hp hk h
  have hdk : (digits m).length = k := by
    rw [hd, length_take, length_drop]; omega
  refine ⟨?_, hm, h56, hdk⟩
  rw [header_long h56, drop_eq_first_cons (n := n) (by omega : p < buf.length), hdk, hf, hd,
    cons_prefix_cons]
  exact ⟨rfl, take_prefix _ _⟩

theorem framed_of_length (hp : p + n ≤ buf.length) (hn : n ≠ 0)
    (h : (view buf p n).length = .ok m) :
    Framed buf p (view buf p n).isList (view buf p n).payloadOffset m := by
  have h0 : (view buf p n).isNull = false := by simp [hn]
  have hg := requireGood_of_length h0 h
  have hgood := (requireGood_eq_ok h0).mp hg
  have hlt := first_lt (view buf p n)
  have hmax : sizeMax - 0x100 = 2 ^ 64 - 257 := rfl
  rw [length_eq h0 hg] at h
  rw [isList_eq h0, payloadOffset_eq h0]
  split_ifs at h ⊢ with h₁ h₂ h₃ h₄
  · -- one byte that is its own encoding
    cases h
    rw [decide_eq_false (by omega)]
    exact .byte (by omega) (by simpa using h₁)
  · -- short data
    obtain rfl : (view buf p n).first - 0x80 = m := Except.ok.inj h
    rw [decide_eq_false (by omega)]
    have hh : header 0x80 ((view buf p n).first - 0x80) <+: buf.drop p :=
      short_header_isPrefix (n := n) (by omega) (by omega) (by omega)
    have hF := Framed.data hh (by omega) (fun h1 => by simpa using (hgood (by omega)).2)
    rwa [length_header, if_pos (by omega)] at hF
  · -- long data
    rw [decide_eq_false (by omega)]
    obtain ⟨hh, hm, h56, hk⟩ := long_header_isPrefix 0x80 hp (by omega) (by omega) h
    have hF := Framed.data hh hm (fun h1 => by omega)
    rwa [length_header, if_neg (by omega), hk] at hF
  · -- short list
    obtain rfl : (view buf p n).first - 0xc0 = m := Except.ok.inj h
    rw [decide_eq_true (by omega)]
    have hh : header 0xc0 ((view buf p n).first - 0xc0) <+: buf.drop p :=
      short_header_isPrefix (n := n) (by omega) (by omega) (by omega)
    have hF := Framed.list hh (by omega)
    rwa [length_header, if_pos (by omega)] at hF
  · -- long list
    rw [decide_eq_true (by omega)]
    obtain ⟨hh, hm, h56, hk⟩ := long_header_isPrefix 0xc0 hp (by omega) (by omega) h
    have hF := Framed.list hh hm
    rwa [length_header, if_neg (by omega), hk] at hF

theorem actualSize_eq (hn : n ≠ 0) : (view buf p n).actualSize =
    (view buf p n).length >>= fun l => .ok ((view buf p n).payloadOffset + l) := by
  have h0 : (view buf p n).isNull = false := by simp [hn]
  have hb : (view buf p n).isSingleByte = decide ((view buf p n).first < 0x80) := by
    rw [isSingleByte, h0]
    rfl
  by_cases hf : (view buf p n).first < 0x80
  · have hg : (view buf p n).requireGood = .ok () := (requireGood_eq_ok h0).mpr (by omega)
    rw [length_eq h0 hg, payloadOffset_eq h0, if_pos hf, if_pos hf, actualSize, h0, hb, decide_eq_true hf]
    rfl
  · rw [actualSize, h0, hb, decide_eq_false hf, isData_eq h0]
    cases (view buf p n).isList <;> rfl

theorem actualSize_iff (hp : p + n ≤ buf.length) (hn : n ≠ 0) (hk : k ≤ n) :
    (view buf p n).actualSize = .ok k ↔ ∃ l off m, Framed buf p l off m ∧ off + m = k := by
  rw [actualSize_eq hn]
  constructor
  · intro h
    obtain ⟨m, hm, hs⟩ := Except.bind_eq_ok.mp h
    exact ⟨_, _, m, framed_of_length hp hn hm, Except.ok.inj hs⟩
  · rintro ⟨l, off, m, hF, rfl⟩
    obtain ⟨-, hl, ho⟩ := hF.spec hk
    rw [hl, ho]
    rfl

@[simp] theorem actualSize_view_zero : (view buf p 0).actualSize = .ok 0 := by
  rw [actualSize, isNull_view]
  rfl

theorem parse_throwIfTooSmall (d : BytesRef) :
    parse d .throwIfTooSmall = ({ data := d } : RLP).actualSize >>= fun a =>
      if d.count < a then .error .undersizeRLP else .ok { data := d } := rfl

theorem parse_veryStrict_view : parse (window buf p n) .veryStrict =
    (view buf p n).actualSize >>= fun a =>
      if a < n then .error .oversizeRLP else if n < a then .error .undersizeRLP else .ok (view buf p n) := by
  have hr : ({ data := window buf p n } : RLP) = view buf p n := rfl
  cases ha : (view buf p n).actualSize with
  | error e => simp [parse, Strictness.veryStrict, hr, ha]
  | ok a =>
    by_cases h : a < n
    · simp [parse, Strictness.veryStrict, hr, ha, h]
    · simp only [parse, Strictness.veryStrict, hr, ha, Except.ok_bind, if_true, window_count,
        if_neg h, pure, Except.pure]

theorem parse_veryStrict_eq_ok {r : RLP} : parse (window buf p n) .veryStrict = .ok r ↔
    r = view buf p n ∧ (view buf p n).actualSize = .ok n := by
  rw [parse_veryStrict_view, Except.bind_eq_ok]
  constructor
  · rintro ⟨a, ha, h⟩
    split_ifs at h with h₁ h₂
    obtain rfl : a = n := by omega
    exact ⟨(Except.ok.inj h).symm, ha⟩
  · rintro ⟨rfl, ha⟩
    exact ⟨n, ha, by simp⟩

theorem sizeAsEncoded_eq_ok :
    sizeAsEncoded (window buf p n) = .ok k ↔ (view buf p n).actualSize = .ok k ∧ k ≤ n := by
  have hr : ({ data := window buf p n } : RLP) = view buf p n := rfl
  rw [sizeAsEncoded, parse_throwIfTooSmall, hr]
  cases ha : (view buf p n).actualSize with
  | error e => simp
  | ok a =>
    by_cases h : n < a
    · simp [h]; omega
    · simp [h, ha]; omega

theorem actualSize_crop (hp : p + n ≤ buf.length) (hk : k ≤ n)
    (h : (view buf p n).actualSize = .ok k) : (view buf p k).actualSize = .ok k := by
  by_cases hn : n = 0
  · obtain rfl : k = 0 := by omega
    exact actualSize_view_zero
  · obtain ⟨l, off, m, hF, hs⟩ := (actualSize_iff hp hn hk).mp h
    have hpos := hF.pos
    exact (actualSize_iff (by omega) (by omega) le_rfl).mpr ⟨l, off, m, hF, hs⟩

theorem actualSize_pos (hp : p + n ≤ buf.length) (hn : n ≠ 0) (hk : k ≤ n)
    (h : (view buf p n).actualSize = .ok k) : 0 < k := by
  obtain ⟨l, off, m, hF, hs⟩ := (actualSize_iff hp hn hk).mp h
  have := hF.pos
  omega

end RLP
end Vapory
