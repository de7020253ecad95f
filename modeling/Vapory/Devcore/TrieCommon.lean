import Vapory.Base.CommonPrefix
import Vapory.Devcore.VectorRef
import Mathlib.Tactic.IntervalCases

/-! Nibbles and the hex-prefix form of trie keys. Nibble counts are natural numbers; the
source keeps them in `unsigned` and `int`, which agrees for keys below `2 ^ 30` bytes. -/
namespace Vapory
open List

abbrev Nibble := Fin 16

def hiNibble (b : Byte) : Nibble := ⟨b.toNat / 16, by have := b.toNat_lt; omega⟩
def loNibble (b : Byte) : Nibble := ⟨b.toNat % 16, Nat.mod_lt _ (by norm_num)⟩

def ofNibbles (h l : Nibble) : Byte := UInt8.ofNat (h.val * 16 + l.val)

/-- `nibble(_data, _i)`. -/
def nibble (d : Bytes) (i : ℕ) : Nibble :=
  if i % 2 = 1 then loNibble (d.getD (i / 2) 0) else hiNibble (d.getD (i / 2) 0)

def asNibbles (d : Bytes) : List Nibble := d.flatMap fun b => [hiNibble b, loNibble b]

/-- The nibbles from `b` up to `e`, as the loops of the source visit them. -/
def nibbleRange (d : Bytes) (b e : ℕ) : List Nibble := (List.range' b (e - b)).map (nibble d)

/-- `NibbleSlice`, a nibble-based view of bytes. -/
structure NibbleSlice where
  data : Bytes
  offset : ℕ := 0
deriving DecidableEq, Repr

namespace NibbleSlice

def size (s : NibbleSlice) : ℕ := s.data.length * 2 - s.offset

def toList (s : NibbleSlice) : List Nibble := nibbleRange s.data s.offset (s.data.length * 2)

end NibbleSlice

/-- The loop of `sharedNibbles`; the fuel bounds the rest of the first range. -/
def sharedNibblesLoop : ℕ → Bytes → ℕ → ℕ → Bytes → ℕ → ℕ → ℕ → ℕ
  | 0, _, _, _, _, _, _, ret => ret
  | fuel + 1, d₁, b₁, e₁, d₂, b₂, e₂, ret =>
    if b₁ < e₁ ∧ b₂ < e₂ ∧ nibble d₁ b₁ = nibble d₂ b₂ then
      sharedNibblesLoop fuel d₁ (b₁ + 1) e₁ d₂ (b₂ + 1) e₂ (ret + 1)
    else ret

def sharedNibbles (d₁ : Bytes) (b₁ e₁ : ℕ) (d₂ : Bytes) (b₂ e₂ : ℕ) : ℕ :=
  sharedNibblesLoop (e₁ - b₁) d₁ b₁ e₁ d₂ b₂ e₂ 0

namespace NibbleSlice

def shared (s k : NibbleSlice) : ℕ :=
  sharedNibbles s.data s.offset (s.offset + s.size) k.data k.offset (k.offset + k.size)

/-- `_k` is a prefix of this. -/
def contains (s k : NibbleSlice) : Bool := s.shared k == k.size

/-- `operator==`. -/
def same (s k : NibbleSlice) : Bool := k.size == s.size && s.shared k == k.size

end NibbleSlice

/-- The first byte of a hex-prefix string before a nibble is put on it. -/
def hexPrefixFlags (leaf odd : Bool) : Byte :=
  UInt8.ofNat (((if leaf then 2 else 0) + (if odd then 1 else 0)) * 16)

/-- The loop both slice forms of `hexPrefixEncode` run: at odd `d` the nibble goes on the
last byte, at even `d` it starts a new one. -/
def pushNibbles : List Nibble → ℕ → Bytes → Bytes
  | [], _, ret => ret
  | n :: ns, d, ret =>
    if d % 2 = 1 then
      pushNibbles ns (d + 1) (ret.dropLast ++ [UInt8.ofNat ((ret.getLastD 0).toNat ||| n.val)])
    else pushNibbles ns (d + 1) (ret ++ [UInt8.ofNat (n.val * 16)])

def hexPrefixOf (ns : List Nibble) (leaf : Bool) : Bytes :=
  let odd := ns.length % 2 = 1
  pushNibbles ns (if odd then 1 else 2) [hexPrefixFlags leaf odd]

def nibbleAt (v : List Nibble) (i : ℕ) : Nibble := v.getD i 0

def packPairs : List Nibble → Bytes
  | a :: b :: ns => ofNibbles a b :: packPairs ns
  | _ => []

/-- `hexPrefixEncode(bytes, _leaf, _begin, _end)` on a vector of nibbles. -/
def hexPrefixEncodeVector (v : List Nibble) (leaf : Bool) (b : ℕ := 0) (e : Option ℕ := none) :
    Bytes :=
  let ns := (v.take (e.getD v.length)).drop b
  if ns.length % 2 = 1 then
    UInt8.ofNat ((hexPrefixFlags leaf true).toNat ||| (ns.headD 0).val) :: packPairs ns.tail
  else hexPrefixFlags leaf false :: packPairs ns

/-- `keyOf(bytesConstRef)`. -/
def keyOf (hpe : Bytes) : NibbleSlice :=
  if hpe.length = 0 then ⟨hpe, 0⟩
  else if (hpe.headD 0).toNat / 16 % 2 = 1 then ⟨hpe, 1⟩
  else ⟨hpe, 2⟩

/-- The flag that `isLeaf` reads from the first byte of the key. -/
def isLeafKey (hpe : Bytes) : Bool := (hpe.headD 0).toNat / 32 % 2 == 1

@[simp] theorem asNibbles_cons (b : Byte) (d : Bytes) :
    asNibbles (b :: d) = hiNibble b :: loNibble b :: asNibbles d := rfl

@[simp] theorem length_asNibbles (d : Bytes) : (asNibbles d).length = d.length * 2 := by
  induction d with
  | nil => rfl
  | cons b d ih =>
    rw [asNibbles_cons, length_cons, length_cons, ih, length_cons]
    omega

@[simp] theorem hiNibble_ofNibbles (h l : Nibble) : hiNibble (ofNibbles h l) = h := by
  have hh := h.isLt
  have hl := l.isLt
  ext
  simp only [hiNibble, ofNibbles, UInt8.toNat_ofNat']
  omega

@[simp] theorem loNibble_ofNibbles (h l : Nibble) : loNibble (ofNibbles h l) = l := by
  have hh := h.isLt
  have hl := l.isLt
  ext
  simp only [loNibble, ofNibbles, UInt8.toNat_ofNat']
  omega

@[simp] theorem ofNibbles_hi_lo (b : Byte) : ofNibbles (hiNibble b) (loNibble b) = b := by
  apply UInt8.toNat_inj.mp
  have hb := b.toNat_lt
  simp only [hiNibble, loNibble, ofNibbles, UInt8.toNat_ofNat']
  omega

variable {d : Bytes} {b e : ℕ}

theorem getElem?_asNibbles {i : ℕ} (h : i < d.length * 2) :
    (asNibbles d)[i]? = some (nibble d i) := by
  induction d generalizing i with
  | nil => simp at h
  | cons b d ih =>
    match i with
    | 0 => rfl
    | 1 => rfl
    | i + 2 =>
      have hi : i < d.length * 2 := by
        rw [length_cons] at h
        omega
      have hm : (i + 2) % 2 = i % 2 := by omega
      have hq : (i + 2) / 2 = i / 2 + 1 := by omega
      rw [asNibbles_cons, List.getElem?_cons_succ, List.getElem?_cons_succ, ih hi]
      simp [nibble, hm, hq]

theorem nibbleRange_eq (he : e ≤ d.length * 2) :
    nibbleRange d b e = ((asNibbles d).take e).drop b := by
  apply ext_getElem?
  intro i
  rw [nibbleRange, List.getElem?_map, List.getElem?_drop]
  by_cases hi : i < e - b
  · rw [List.getElem?_range' hi, List.getElem?_take_of_lt (by omega), getElem?_asNibbles (by omega)]
    simp
  · rw [List.getElem?_eq_none (by simp; omega), List.getElem?_eq_none (by simp; omega)]
    rfl

namespace NibbleSlice

theorem toList_eq (s : NibbleSlice) : s.toList = (asNibbles s.data).drop s.offset := by
  rw [toList, nibbleRange_eq le_rfl, take_of_length_le (by simp)]

@[simp] theorem length_toList (s : NibbleSlice) : s.toList.length = s.size := by
  rw [toList_eq, length_drop, length_asNibbles, size]

end NibbleSlice

theorem nibbleRange_cons (h : b < e) :
    nibbleRange d b e = nibble d b :: nibbleRange d (b + 1) e := by
  obtain ⟨k, hk⟩ : ∃ k, e - b = k + 1 := ⟨e - b - 1, by omega⟩
  have hk' : e - (b + 1) = k := by omega
  rw [nibbleRange, hk, range'_succ, map_cons, nibbleRange, hk']

theorem nibbleRange_of_le (h : e ≤ b) : nibbleRange d b e = [] := by
  rw [nibbleRange, Nat.sub_eq_zero_of_le h]
  rfl

theorem sharedNibblesLoop_eq (fuel : ℕ) (d₁ d₂ : Bytes) (b₁ e₁ b₂ e₂ ret : ℕ)
    (hf : e₁ - b₁ ≤ fuel) : sharedNibblesLoop fuel d₁ b₁ e₁ d₂ b₂ e₂ ret =
      ret + (commonPrefix (nibbleRange d₁ b₁ e₁) (nibbleRange d₂ b₂ e₂)).length := by
  induction fuel generalizing b₁ b₂ ret with
  | zero =>
    rw [sharedNibblesLoop, nibbleRange_of_le (by omega)]
    rfl
  | succ fuel ih =>
    rw [sharedNibblesLoop]
    by_cases h₁ : b₁ < e₁
    · by_cases h₂ : b₂ < e₂
      · rw [nibbleRange_cons h₁, nibbleRange_cons h₂, commonPrefix]
        by_cases hn : nibble d₁ b₁ = nibble d₂ b₂
        · rw [if_pos ⟨h₁, h₂, hn⟩, if_pos hn, ih _ _ _ (by omega), length_cons]
          omega
        · rw [if_neg (fun h => hn h.2.2), if_neg hn]
          rfl
      · rw [if_neg (fun h => h₂ h.2.1), nibbleRange_of_le (by omega : e₂ ≤ b₂), nibbleRange_cons h₁]
        rfl
    · rw [if_neg (fun h => h₁ h.1), nibbleRange_of_le (by omega : e₁ ≤ b₁)]
      rfl

namespace NibbleSlice

/-- A slice whose offset is inside its data, as every slice of the trie code is. -/
def Valid (s : NibbleSlice) : Prop := s.offset ≤ s.data.length * 2

variable {s k : NibbleSlice}

theorem shared_eq (hs : s.Valid) (hk : k.Valid) :
    s.shared k = (commonPrefix s.toList k.toList).length := by
  have hse : s.offset + s.size = s.data.length * 2 := by
    unfold Valid at hs
    unfold size
    omega
  have hke : k.offset + k.size = k.data.length * 2 := by
    unfold Valid at hk
    unfold size
    omega
  rw [shared, sharedNibbles, sharedNibblesLoop_eq _ _ _ _ _ _ _ _ le_rfl, hse, hke, Nat.zero_add]
  rfl

theorem contains_iff (hs : s.Valid) (hk : k.Valid) :
    s.contains k = true ↔ k.toList <+: s.toList := by
  rw [contains, beq_iff_eq, shared_eq hs hk, ← length_toList k]
  exact length_commonPrefix_eq_right

theorem same_iff (hs : s.Valid) (hk : k.Valid) :
    s.same k = true ↔ s.toList = k.toList := by
  have hc := contains_iff hs hk
  rw [contains] at hc
  rw [same, Bool.and_eq_true, hc, beq_iff_eq, ← length_toList, ← length_toList]
  constructor
  · rintro ⟨hl, hp⟩
    exact (hp.eq_of_length hl).symm
  · intro h
    rw [h]
    exact ⟨rfl, prefix_refl _⟩

end NibbleSlice

def hexPrefixFlag (leaf odd : Bool) : Nibble := (if leaf then 2 else 0) + (if odd then 1 else 0)

theorem hexPrefixFlags_eq (leaf odd : Bool) :
    hexPrefixFlags leaf odd = ofNibbles (hexPrefixFlag leaf odd) 0 := by
  cases leaf <;> cases odd <;> rfl

theorem or_nibble (a b : Nibble) : UInt8.ofNat ((ofNibbles a 0).toNat ||| b.val) = ofNibbles a b := by
  revert a b
  decide

theorem ofNat_mul_sixteen (a : Nibble) : UInt8.ofNat (a.val * 16) = ofNibbles a 0 := rfl

theorem pushNibbles_even (ns : List Nibble) (d : ℕ) (ret : Bytes) (hd : d % 2 = 0)
    (hn : ns.length % 2 = 0) : pushNibbles ns d ret = ret ++ packPairs ns := by
  induction ns using packPairs.induct generalizing d ret with
  | case1 a b ns ih =>
    have hlen : ns.length % 2 = 0 := by
      simp only [length_cons] at hn
      omega
    rw [pushNibbles, if_neg (by omega), pushNibbles, if_pos (by omega), ih _ _ (by omega) hlen,
      packPairs, dropLast_concat, getLastD_concat, ofNat_mul_sixteen, or_nibble]
    simp
  | case2 ns h =>
    match ns with
    | [] => simp [pushNibbles, packPairs]
    | [a] => simp at hn
    | a :: b :: ns => exact absurd rfl (h a b ns)

theorem hexPrefixOf_eq (ns : List Nibble) (leaf : Bool) :
    hexPrefixOf ns leaf = hexPrefixEncodeVector ns leaf := by
  unfold hexPrefixOf hexPrefixEncodeVector
  simp only [Option.getD_none, take_length, drop_zero]
  by_cases hodd : ns.length % 2 = 1
  · obtain ⟨a, ns, rfl⟩ : ∃ a ns', ns = a :: ns' := by
      cases ns with
      | nil => simp at hodd
      | cons a ns => exact ⟨a, ns, rfl⟩
    have hlen : ns.length % 2 = 0 := by
      rw [length_cons] at hodd
      omega
    rw [if_pos hodd, if_pos hodd, decide_eq_true hodd, pushNibbles, if_pos rfl,
      pushNibbles_even ns 2 _ rfl hlen]
    rfl
  · rw [if_neg hodd, if_neg hodd, decide_eq_false hodd, pushNibbles_even ns 2 _ rfl (by omega)]
    rfl

theorem asNibbles_packPairs (ns : List Nibble) (h : ns.length % 2 = 0) :
    asNibbles (packPairs ns) = ns := by
  induction ns using packPairs.induct with
  | case1 a b ns ih =>
    have hlen : ns.length % 2 = 0 := by
      simp only [length_cons] at h
      omega
    rw [packPairs, asNibbles_cons, hiNibble_ofNibbles, loNibble_ofNibbles, ih hlen]
  | case2 ns hns =>
    match ns with
    | [] => rfl
    | [a] => simp at h
    | a :: b :: ns => exact absurd rfl (hns a b ns)

theorem asNibbles_hexPrefixOf (ns : List Nibble) (leaf : Bool) :
    asNibbles (hexPrefixOf ns leaf) =
      if ns.length % 2 = 1 then hexPrefixFlag leaf true :: ns else hexPrefixFlag leaf false :: 0 :: ns := by
  rw [hexPrefixOf_eq]
  unfold hexPrefixEncodeVector
  simp only [Option.getD_none, take_length, drop_zero]
  split_ifs with hodd
  · cases ns with
    | nil => simp at hodd
    | cons a ns =>
      have hlen : ns.length % 2 = 0 := by
        rw [length_cons] at hodd
        omega
      rw [hexPrefixFlags_eq, headD_cons, or_nibble, tail_cons, asNibbles_cons,
        hiNibble_ofNibbles, loNibble_ofNibbles, asNibbles_packPairs ns hlen]
  · rw [hexPrefixFlags_eq, asNibbles_cons, hiNibble_ofNibbles, loNibble_ofNibbles,
      asNibbles_packPairs ns (by omega)]

theorem head_eq_of_asNibbles {a b : Nibble} {ns : List Nibble}
    (h : asNibbles d = a :: b :: ns) : ∃ d', d = ofNibbles a b :: d' := by
  cases d with
  | nil => cases h
  | cons x d =>
    simp only [asNibbles_cons, List.cons.injEq] at h
    obtain ⟨rfl, rfl, -⟩ := h
    exact ⟨d, by rw [ofNibbles_hi_lo]⟩

theorem exists_head_hexPrefixOf (ns : List Nibble) (leaf : Bool) :
    ∃ l d, hexPrefixOf ns leaf = ofNibbles (hexPrefixFlag leaf (ns.length % 2 = 1)) l :: d := by
  have h := asNibbles_hexPrefixOf ns leaf
  split_ifs at h with hodd
  · cases ns with
    | nil => simp at hodd
    | cons a ns =>
      obtain ⟨d, hd⟩ := head_eq_of_asNibbles h
      exact ⟨a, d, by rw [hd, decide_eq_true hodd]⟩
  · obtain ⟨d, hd⟩ := head_eq_of_asNibbles h
    exact ⟨0, d, by rw [hd, decide_eq_false hodd]⟩

theorem flag_odd (leaf odd : Bool) (l : Nibble) :
    ((ofNibbles (hexPrefixFlag leaf odd) l).toNat / 16 % 2 = 1) ↔ odd = true := by
  revert l
  cases leaf <;> cases odd <;> decide

theorem flag_leaf (leaf odd : Bool) (l : Nibble) :
    ((ofNibbles (hexPrefixFlag leaf odd) l).toNat / 32 % 2 == 1) = leaf := by
  revert l
  cases leaf <;> cases odd <;> decide

theorem toList_keyOf (ns : List Nibble) (leaf : Bool) : (keyOf (hexPrefixOf ns leaf)).toList = ns := by
  have h := asNibbles_hexPrefixOf ns leaf
  obtain ⟨l, d, hd⟩ := exists_head_hexPrefixOf ns leaf
  have hne : (hexPrefixOf ns leaf).length ≠ 0 := by
    rw [hd, length_cons]
    omega
  have hhead : (hexPrefixOf ns leaf).headD 0 =
    ofNibbles (hexPrefixFlag leaf (ns.length % 2 = 1)) l := by
    rw [hd, headD_cons]
  unfold keyOf
  rw [if_neg hne, hhead]
  split_ifs at h with hodd
  · rw [if_pos ((flag_odd _ _ _).mpr (decide_eq_true hodd)), NibbleSlice.toList_eq, h]
    rfl
  · rw [if_neg (fun hf => hodd (of_decide_eq_true ((flag_odd _ _ _).mp hf))), NibbleSlice.toList_eq, h]
    rfl

theorem valid_keyOf (ns : List Nibble) (leaf : Bool) : (keyOf (hexPrefixOf ns leaf)).Valid := by
  obtain ⟨l, d, hd⟩ := exists_head_hexPrefixOf ns leaf
  rw [hd]
  unfold keyOf NibbleSlice.Valid
  split_ifs <;> simp only [length_cons] <;> omega

theorem isLeafKey_hexPrefixOf (ns : List Nibble) (leaf : Bool) :
    isLeafKey (hexPrefixOf ns leaf) = leaf := by
  obtain ⟨l, d, hd⟩ := exists_head_hexPrefixOf ns leaf
  rw [isLeafKey, hd, headD_cons, flag_leaf]

theorem nibbleRange_slice {s : NibbleSlice} (hs : s.Valid) (he : e ≤ s.size) :
    nibbleRange s.data (b + s.offset) (e + s.offset) = (s.toList.take e).drop b := by
  unfold NibbleSlice.Valid at hs
  unfold NibbleSlice.size at he
  rw [nibbleRange_eq (by omega), NibbleSlice.toList_eq, Nat.add_comm b, ← drop_drop, drop_take]
  congr 3
  omega

end Vapory
