import Vapory.Devcore.TrieCommon

/-! The three forms of `hexPrefixEncode` of `TrieCommon.cpp` with their `int` and `unsigned`
bounds. -/
namespace Vapory
open List

/-- A slice whose nibbles and one more can be counted by an `int`, and which ends where an
`unsigned` reaches. -/
structure NibbleSlice.Short (s : NibbleSlice) : Prop where
  valid : s.Valid
  size_lt : s.size + 1 < 2 ^ 31
  length_lt : s.data.length * 2 < 2 ^ 32

namespace Unsigned

/-- `end - begin`, of which the last bit is the parity. -/
def odd (begin_ end_ : BitVec 32) : Bool := (end_ - begin_).toNat % 2 = 1

def packFrom (hexVector : List Nibble) (begin_ end_ : ℕ) : Bytes :=
  (List.range' begin_ ((end_ - begin_ + 1) / 2) 2).map fun i =>
    ofNibbles (nibbleAt hexVector i) (nibbleAt hexVector (i + 1))

/-- `hexPrefixEncode(bytes, _leaf, _begin, _end)`. -/
def hexPrefixEncodeVector (hexVector : List Nibble) (leaf : Bool) (begin_ end_ : ℤ) : Bytes :=
  let begin' := BitVec.ofInt 32 begin_
  let end' := BitVec.ofInt 32 (if end_ < 0 then hexVector.length + 1 + end_ else end_)
  if odd begin' end' then
    UInt8.ofNat ((hexPrefixFlags leaf true).toNat ||| (nibbleAt hexVector begin'.toNat).val) ::
      packFrom hexVector (begin' + 1).toNat end'.toNat
  else hexPrefixFlags leaf false :: packFrom hexVector begin'.toNat end'.toNat

/-- `hexPrefixEncode(bytesConstRef, _leaf, _beginNibble, _endNibble, _offset)`. -/
def hexPrefixEncode (s : NibbleSlice) (leaf : Bool) (beginNibble endNibble : ℤ) : Bytes :=
  let begin' := BitVec.ofInt 32 (beginNibble + s.offset)
  let size := (BitVec.ofInt 32 (s.data.length * 2 - s.offset)).toInt
  let end' := BitVec.ofInt 32 ((if endNibble < 0 then size + 1 + endNibble else endNibble) + s.offset)
  let odd := odd begin' end'
  pushNibbles (nibbleRange s.data begin'.toNat end'.toNat) (if odd then 1 else 2)
    [hexPrefixFlags leaf odd]

/-- `hexPrefixEncode(bytesConstRef, _o1, bytesConstRef, _o2, _leaf)`: one loop after the other. -/
def hexPrefixEncode₂ (s t : NibbleSlice) (leaf : Bool) : Bytes :=
  let begin₁ := BitVec.ofNat 32 s.offset
  let end₁ := BitVec.ofNat 32 (s.data.length * 2)
  let begin₂ := BitVec.ofNat 32 t.offset
  let end₂ := BitVec.ofNat 32 (t.data.length * 2)
  let odd := odd begin₂ (end₁ - begin₁ + end₂)
  let d := if odd then 1 else 2
  let first := nibbleRange s.data begin₁.toNat end₁.toNat
  pushNibbles (nibbleRange t.data begin₂.toNat end₂.toNat) (d + first.length)
    (pushNibbles first d [hexPrefixFlags leaf odd])

/-- `size()`. -/
def size (s : NibbleSlice) : BitVec 32 := BitVec.ofInt 32 (s.data.length * 2 - s.offset)

def shared (s k : NibbleSlice) : ℕ :=
  sharedNibbles s.data s.offset (BitVec.ofNat 32 s.offset + size s).toNat k.data k.offset
    (BitVec.ofNat 32 k.offset + size k).toNat

/-- `operator==`. -/
def same (s k : NibbleSlice) : Bool := size k = size s && shared s k = (size k).toNat

variable {s t k : NibbleSlice} {leaf : Bool} {v ns : List Nibble} {b e : ℕ}

theorem toNat_ofInt {x : ℤ} {n : ℕ} (hx : x = n) (hn : n < 2 ^ 32) :
    (BitVec.ofInt 32 x).toNat = n := by
  rw [hx, BitVec.ofInt_natCast, BitVec.toNat_ofNat, Nat.mod_eq_of_lt hn]

theorem odd_eq {begin_ end_ : BitVec 32} (h : begin_.toNat ≤ end_.toNat) :
    odd begin_ end_ = decide ((end_.toNat - begin_.toNat) % 2 = 1) := by
  rw [odd, BitVec.toNat_sub_of_le h]

/-! The vector form. -/

theorem packFrom_eq (hle : b ≤ e) (he : e ≤ v.length) (heven : (e - b) % 2 = 0) :
    packFrom v b e = packPairs ((v.take e).drop b) := by
  obtain ⟨k, rfl⟩ : ∃ k, e = b + 2 * k := ⟨(e - b) / 2, by omega⟩
  clear hle heven
  induction k generalizing b with
  | zero => simp [packFrom, packPairs]
  | succ k ih =>
    have hsplit : (v.take (b + 2 * (k + 1))).drop b = nibbleAt v b :: nibbleAt v
      (b + 1) :: (v.take (b + 2 * (k + 1))).drop (b + 2) := by
      rw [drop_eq_getElem_cons (by rw [length_take]; omega),
        drop_eq_getElem_cons (by rw [length_take]; omega)]
      simp [nibbleAt, getD_eq_getElem?_getD, List.getElem?_eq_getElem (show b < v.length by omega),
        List.getElem?_eq_getElem (show b + 1 < v.length by omega)]
    have hturns : (b + 2 * (k + 1) - b + 1) / 2 = k + 1 := by omega
    have hrest := ih (b := b + 2) (by omega)
    have hturns' : (b + 2 + 2 * k - (b + 2) + 1) / 2 = k := by omega
    rw [packFrom, hturns'] at hrest
    have hend : b + 2 * (k + 1) = b + 2 + 2 * k := by omega
    rw [hsplit, packPairs, packFrom, hturns, range'_succ, map_cons, hrest, hend]

theorem hexPrefixEncodeVector_eq (hle : b ≤ e) (he : e ≤ v.length) (hv : v.length < 2 ^ 31)
    {end_ : ℤ} (hend : end_ = e ∨ end_ = e - (v.length + 1)) (leaf : Bool) :
    hexPrefixEncodeVector v leaf b end_ = hexPrefixOf ((v.take e).drop b) leaf := by
  have hbegin : (BitVec.ofInt 32 (b : ℤ)).toNat = b := toNat_ofInt rfl (by omega)
  have hstop : (BitVec.ofInt 32 (if end_ < 0 then v.length + 1 + end_ else end_)).toNat = e := by
    apply toNat_ofInt _ (by omega)
    split_ifs <;> omega
  have hlength : ((v.take e).drop b).length = e - b := by
    rw [length_drop, length_take, min_eq_left he]
  rw [hexPrefixOf_eq]
  unfold hexPrefixEncodeVector Vapory.hexPrefixEncodeVector
  simp only [Option.getD_none, take_length, drop_zero]
  rw [odd_eq (by rw [hbegin, hstop]; exact hle), hbegin, hstop, hlength]
  by_cases hodd : (e - b) % 2 = 1
  · have hhead : ((v.take e).drop b).headD 0 = nibbleAt v b := by
      rw [nibbleAt, headD_eq_head?_getD, List.head?_drop, List.getElem?_take_of_lt (by omega),
        getD_eq_getElem?_getD]
    have hnext : (BitVec.ofInt 32 (b : ℤ) + 1).toNat = b + 1 := by
      rw [BitVec.toNat_add, hbegin]
      change (b + 1) % 2 ^ 32 = b + 1
      omega
    rw [if_pos (decide_eq_true hodd), if_pos hodd, hhead, tail_drop, hnext,
      packFrom_eq (by omega) he (by omega)]
  · rw [if_neg (by simpa using hodd), if_neg hodd, packFrom_eq hle he (by omega)]

/-! The slice forms. -/

theorem pushNibbles_append (xs ys : List Nibble) (d : ℕ) (ret : Bytes) :
    pushNibbles (xs ++ ys) d ret = pushNibbles ys (d + xs.length) (pushNibbles xs d ret) := by
  induction xs generalizing d ret with
  | nil => rfl
  | cons n xs ih =>
    have hd : d + (n :: xs).length = d + 1 + xs.length := by
      rw [length_cons]
      omega
    rw [cons_append, pushNibbles, pushNibbles, ih, ih, hd]
    split_ifs <;> rfl

theorem pushNibbles_eq {odd : Bool} (hodd : odd = decide (ns.length % 2 = 1)) (leaf : Bool) :
    pushNibbles ns (if odd then 1 else 2) [hexPrefixFlags leaf odd] = hexPrefixOf ns leaf := by
  rw [hodd, hexPrefixOf]
  simp only [decide_eq_true_eq]

theorem toInt_size (hs : s.Short) :
    (BitVec.ofInt 32 (s.data.length * 2 - s.offset)).toInt = s.size := by
  have hvalid := hs.valid
  have hlt := hs.size_lt
  unfold NibbleSlice.Valid at hvalid
  have hsize : (s.data.length * 2 - s.offset : ℤ) = s.size := by
    unfold NibbleSlice.size
    omega
  rw [BitVec.toInt_ofInt, hsize]
  apply Int.bmod_eq_of_le <;> omega

theorem hexPrefixEncode_of_short (hs : s.Short) (hle : b ≤ e) (he : e ≤ s.size) {end_ : ℤ}
    (hend : end_ = e ∨ end_ = e - (s.size + 1))
    (leaf : Bool) : hexPrefixEncode s leaf b end_ = hexPrefixOf ((s.toList.take e).drop b) leaf := by
  have hlt := hs.length_lt
  have hvalid := hs.valid
  unfold NibbleSlice.Valid at hvalid
  have he' : e + s.offset ≤ s.data.length * 2 := by
    unfold NibbleSlice.size at he
    omega
  have hbegin : (BitVec.ofInt 32 (b + s.offset)).toNat = b + s.offset :=
    toNat_ofInt (by push_cast; rfl) (by omega)
  have hstop : (BitVec.ofInt 32
    ((if end_ < 0 then (s.size : ℤ) + 1 + end_ else end_) + s.offset)).toNat = e + s.offset := by
    apply toNat_ofInt _ (by omega)
    split_ifs <;> omega
  have hlength : ((s.toList.take e).drop b).length = e - b := by
    rw [length_drop, length_take, NibbleSlice.length_toList, min_eq_left he]
  unfold hexPrefixEncode
  dsimp only
  rw [toInt_size hs, hbegin, hstop, nibbleRange_slice hs.valid he]
  apply pushNibbles_eq
  rw [odd_eq (by rw [hbegin, hstop]; omega), hbegin, hstop, hlength, Nat.add_sub_add_right]

theorem hexPrefixEncode₂_eq (hs : s.Short) (ht : t.Short) (leaf : Bool) :
    hexPrefixEncode₂ s t leaf = hexPrefixOf (s.toList ++ t.toList) leaf := by
  have hs' := hs.valid
  have ht' := ht.valid
  have hlt := hs.length_lt
  have hlt' := ht.length_lt
  have hsize := hs.size_lt
  have hsize' := ht.size_lt
  unfold NibbleSlice.Valid at hs' ht'
  unfold NibbleSlice.size at hsize hsize'
  have htoNat {n : ℕ} (hn : n < 2 ^ 32) : (BitVec.ofNat 32 n).toNat = n := by
    rw [BitVec.toNat_ofNat]
    exact Nat.mod_eq_of_lt (by omega)
  unfold hexPrefixEncode₂
  dsimp only
  rw [htoNat hlt, htoNat hlt', htoNat (hs'.trans_lt hlt), htoNat (ht'.trans_lt hlt'),
    ← pushNibbles_append]
  apply pushNibbles_eq
  have hlength : (nibbleRange s.data s.offset (s.data.length * 2) ++
      nibbleRange t.data t.offset (t.data.length * 2)).length = s.size + t.size := by
    rw [length_append]
    exact congrArg₂ (· + ·) s.length_toList t.length_toList
  -- the sum of the lengths may wrap around on the way to its parity
  unfold odd
  rw [BitVec.toNat_sub, BitVec.toNat_add, BitVec.toNat_sub, htoNat hlt, htoNat hlt',
    htoNat (hs'.trans_lt hlt), htoNat (ht'.trans_lt hlt'), hlength]
  unfold NibbleSlice.size
  congr 1
  rw [eq_iff_iff]
  omega

/-! Slices against slices. -/

theorem toNat_size (hs : s.Valid) (hlt : s.data.length * 2 < 2 ^ 32) : (size s).toNat = s.size := by
  unfold NibbleSlice.Valid at hs
  unfold size NibbleSlice.size
  exact toNat_ofInt (by omega) (by omega)

theorem same_eq (hs : s.Valid) (hlt : s.data.length * 2 < 2 ^ 32) (hk : k.Valid)
    (hlt' : k.data.length * 2 < 2 ^ 32) : same s k = s.same k := by
  have hend {s : NibbleSlice} (hs : s.Valid) (hlt : s.data.length * 2 < 2 ^ 32) :
      (BitVec.ofNat 32 s.offset + size s).toNat = s.offset + s.size := by
    have hsize := toNat_size hs hlt
    unfold NibbleSlice.Valid at hs
    unfold NibbleSlice.size at hsize ⊢
    rw [BitVec.toNat_add, BitVec.toNat_ofNat, hsize]
    omega
  unfold same shared NibbleSlice.same NibbleSlice.shared
  rw [hend hs hlt, hend hk hlt', toNat_size hk hlt', Bool.eq_iff_iff]
  simp only [Bool.and_eq_true, decide_eq_true_eq, beq_iff_eq, BitVec.toNat_eq, toNat_size hk hlt',
    toNat_size hs hlt]

theorem length_hexPrefixOf (ns : List Nibble) (leaf : Bool) :
    (hexPrefixOf ns leaf).length * 2 ≤ ns.length + 2 := by
  have hlength := congrArg List.length (asNibbles_hexPrefixOf ns leaf)
  rw [length_asNibbles] at hlength
  rw [hlength]
  split_ifs
  · exact Nat.le_succ _
  · exact le_rfl

/-- The three forms give the same bytes for the same nibbles, with both conventions for the end;
`keyOf` of these is equal to the slices with those nibbles and to no other, and the flag is read
back. -/
theorem hexPrefixEncode_forms (s : NibbleSlice) (hs : s.Short) (leaf : Bool) (b e : ℕ) (hle : b ≤ e)
    (he : e ≤ s.size) :
    let ns := (s.toList.take e).drop b
    let r := hexPrefixEncode s leaf b e
    hexPrefixEncode s leaf b (e - (s.size + 1)) = r ∧
      hexPrefixEncodeVector s.toList leaf b e = r ∧
      hexPrefixEncodeVector s.toList leaf b (e - (s.size + 1)) = r ∧
      hexPrefixEncodeVector ns leaf 0 (-1) = r ∧
      (∀ s₁ s₂ : NibbleSlice, s₁.Short → s₂.Short → s₁.toList ++ s₂.toList = ns →
        hexPrefixEncode₂ s₁ s₂ leaf = r) ∧
      (keyOf r).toList = ns ∧ (∀ k : NibbleSlice, k.Short →
        (same (keyOf r) k = true ↔ k.toList = ns)) ∧ isLeafKey r = leaf := by
  intro ns r
  have hsize : s.toList.length = s.size := s.length_toList
  have hlt := hs.size_lt
  have hsize' : s.size < 2 ^ 31 := by omega
  have hns : ns.length ≤ s.size := by
    rw [length_drop, length_take, hsize]
    omega
  have hr : r = hexPrefixOf ns leaf := hexPrefixEncode_of_short hs hle he (.inl rfl) leaf
  have hkey : (keyOf r).data = r := by
    unfold keyOf
    split_ifs <;> rfl
  rw [hr] at hkey ⊢
  refine ⟨hexPrefixEncode_of_short hs hle he (.inr rfl) leaf, ?_, ?_, ?_, ?_, toList_keyOf ns leaf,
    ?_, isLeafKey_hexPrefixOf ns leaf⟩
  · exact hexPrefixEncodeVector_eq hle (hsize ▸ he) (hsize ▸ hsize') (.inl rfl) leaf
  · exact hexPrefixEncodeVector_eq hle (hsize ▸ he) (hsize ▸ hsize') (.inr (by rw [hsize])) leaf
  · have hwhole := hexPrefixEncodeVector_eq (v := ns) (Nat.zero_le _) le_rfl (by omega)
      (.inr (by omega : (-1 : ℤ) = ns.length - (ns.length + 1))) leaf
    rwa [take_length, drop_zero] at hwhole
  · intro s₁ s₂ h₁ h₂ hsplit
    rw [hexPrefixEncode₂_eq h₁ h₂, hsplit]
  · intro k hk
    have hbytes := length_hexPrefixOf ns leaf
    rw [same_eq (valid_keyOf ns leaf) (by rw [hkey]; omega) hk.valid hk.length_lt,
      NibbleSlice.same_iff (valid_keyOf ns leaf) hk.valid, toList_keyOf]
    exact eq_comm

/-- An odd part of a slice with an odd offset, with the end counted from the end. -/
theorem hexPrefixEncode_forms_odd :
    let s : NibbleSlice := ⟨[0x12, 0x34, 0x56], 1⟩
    hexPrefixEncode s true 1 4 = [0x33, 0x45] ∧ hexPrefixEncode s true 1 (-2) = hexPrefixEncode s true 1 4 ∧
      (keyOf (hexPrefixEncode s true 1 4)).toList = [3, 4, 5] ∧
      isLeafKey (hexPrefixEncode s true 1 4) = true := by
  intro s
  obtain ⟨hend, -, -, -, -, hkey, -, hleaf⟩ :=
    hexPrefixEncode_forms s ⟨by change 1 ≤ 6; decide, by decide, by decide⟩ true 1 4 (by decide)
    (by decide)
  exact ⟨by decide +kernel, hend, hkey.trans (by decide), hleaf⟩

/-- From `2 ^ 32` nibbles on the end wraps: what is left of the nibbles is the flag, while the
vector form packs them all. -/
theorem hexPrefixEncode_of_long (hlength : s.data.length = 2 ^ 31) (hoffset : s.offset = 1) :
    hexPrefixEncode s false 0 (-1) = [0x10] ∧
    (hexPrefixEncodeVector s.toList false 0 (-1)).length = 2 ^ 31 ∧
      size s = BitVec.allOnes 32 ∧ size (keyOf [0x10]) = 1 := by
  have hsize : s.toList.length = 2 ^ 32 - 1 := by
    rw [NibbleSlice.length_toList]
    unfold NibbleSlice.size
    omega
  refine ⟨?_, ?_, ?_, by decide⟩
  · unfold hexPrefixEncode
    rw [hlength, hoffset]
    rfl
  · have hend : BitVec.ofInt 32 (if (-1 : ℤ) < 0 then ((2 ^ 32 - 1 : ℕ) : ℤ) + 1 + -1 else -1) =
      BitVec.allOnes 32 := by decide
    unfold hexPrefixEncodeVector packFrom
    rw [hsize]
    dsimp only
    rw [hend, if_pos (by decide), length_cons, length_map, length_range']
    rfl
  · unfold size
    rw [hlength, hoffset]
    rfl

theorem hexPrefixEncode_wraps :
    let s : NibbleSlice := ⟨List.replicate (2 ^ 31) 0, 1⟩
    hexPrefixEncode s false 0 (-1) = [0x10] ∧ (hexPrefixEncodeVector s.toList false 0 (-1)).length = 2 ^ 31 ∧
      size s = BitVec.allOnes 32 ∧ size (keyOf [0x10]) = 1 :=
  hexPrefixEncode_of_long length_replicate rfl

end Unsigned
end Vapory
