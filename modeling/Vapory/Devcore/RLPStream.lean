import Vapory.Base.BigEndian
import Vapory.Base.Except
import Vapory.Devcore.VectorRef

/-! `RLPStream`, the RLP writer, and the recursive encoding it computes. The writer
keeps a stack of open lists and inserts a list's header when its last item arrives. -/
namespace Vapory
open List BigEndian

/-- What the RLP classes throw. `diverges` marks a loop that ran past every bound the
source implies; no theorem accepts it as a result. `outOfBounds` marks a read behind the end of a
`vector_ref`, where the source has an assertion and no other check. -/
inductive RLPError where
  | badCast
  | badRLP
  | oversizeRLP
  | undersizeRLP
  | rlpException (comment : String)
  | diverges
  | outOfBounds
deriving DecidableEq, Repr

def rlpMaxLengthBytes : ℕ := 8
def rlpDataImmLenStart : ℕ := 0x80
def rlpListStart : ℕ := 0xc0
def rlpDataImmLenCount : ℕ := rlpListStart - rlpDataImmLenStart - rlpMaxLengthBytes
def rlpDataIndLenZero : ℕ := rlpDataImmLenStart + rlpDataImmLenCount - 1
def rlpListImmLenCount : ℕ := 256 - rlpListStart - rlpMaxLengthBytes
def rlpListIndLenZero : ℕ := rlpListStart + rlpListImmLenCount - 1

def bytesRequired (i : ℕ) : ℕ := if i = 0 then 0 else bytesRequired (i / 256) + 1

theorem bytesRequired_eq (i : ℕ) : bytesRequired i = (digits i).length := by
  induction i using Nat.strong_induction_on with
  | _ i ih =>
    rw [bytesRequired]
    split_ifs with h
    · simp [h]
    · rw [ih (i / 256) (by omega), digits_succ h]
      simp

theorem bytesRequired_le_iff (i k : ℕ) : bytesRequired i ≤ k ↔ i < 256 ^ k := by
  rw [bytesRequired_eq, digits_length_le_iff]

/-- `m_listStack` has its back first: items still expected, and where the list starts. -/
structure RLPStream where
  bytes : Bytes := []
  listStack : List (ℕ × ℕ) := []
deriving DecidableEq, Repr

namespace RLPStream

/-- The bytes `pushInt(_i, _br)` adds: `_br` zeros with the integer written from the back. -/
def pushIntBytes (i br : ℕ) : Bytes :=
  List.replicate (br - bytesRequired i) 0 ++ digits i

/-- Insert the header of the list whose payload starts at `p` and ends the stream. -/
def closeList (o : Bytes) (p : ℕ) : Except RLPError Bytes :=
  let s := o.length - p
  let brs := bytesRequired s
  if s < rlpListImmLenCount then
    .ok (o.take p ++ [UInt8.ofNat (rlpListStart + s)] ++ o.drop p)
  else if rlpListIndLenZero + brs ≤ 0xff then
    .ok (o.take p ++ UInt8.ofNat (rlpListIndLenZero + brs) :: pushIntBytes s brs ++ o.drop p)
  else .error (.rlpException "itemCount too large for RLP")

/-- The loop of `noteAppended`: a completed list counts as one item of the next one. -/
def noteAppendedLoop : List (ℕ × ℕ) → Bytes → ℕ → Except RLPError RLPStream
  | [], o, _ => .ok ⟨o, []⟩
  | (c, p) :: st, o, n =>
    if c < n then .error (.rlpException "itemCount too large")
    else if c - n ≠ 0 then .ok ⟨o, (c - n, p) :: st⟩
    else do
      let o ← closeList o p
      noteAppendedLoop st o 1

def noteAppended (s : RLPStream) (itemCount : ℕ) : Except RLPError RLPStream :=
  if itemCount = 0 then .ok s else noteAppendedLoop s.listStack s.bytes itemCount

def appendRaw (s : RLPStream) (b : Bytes) (itemCount : ℕ) : Except RLPError RLPStream :=
  noteAppended { s with bytes := s.bytes ++ b } itemCount

def pushByte (s : RLPStream) (b : ℕ) : RLPStream := { s with bytes := s.bytes ++ [UInt8.ofNat b] }

def pushCount (s : RLPStream) (count base : ℕ) : Except RLPError RLPStream :=
  let br := bytesRequired count
  if br + base > 0xff then .error (.rlpException "Count too large for RLP")
  else .ok { s with bytes := s.bytes ++ UInt8.ofNat (br + base) :: pushIntBytes count br }

/-- `append(bytesConstRef, _compact)`; `_compact` drops leading zero bytes. -/
def append (s : RLPStream) (b : Bytes) (compact : Bool) : Except RLPError RLPStream := do
  let b := if compact then b.dropWhile (· == 0) else b
  let s ←
    if b.length = 1 ∧ (b.headD 0).toNat < rlpDataImmLenStart then
      pure (s.pushByte (b.headD 0).toNat)
    else do
      let s ←
        if b.length < rlpDataImmLenCount then pure (s.pushByte (b.length + rlpDataImmLenStart))
        else s.pushCount b.length rlpDataIndLenZero
      s.appendRaw b 0
  noteAppended s 1

/-- `append(bigint)`. -/
def appendInt (s : RLPStream) (i : ℕ) : Except RLPError RLPStream := do
  let s ←
    if i = 0 then pure (s.pushByte rlpDataImmLenStart)
    else if i < rlpDataImmLenStart then pure (s.pushByte i)
    else do
      let br := bytesRequired i
      let s ←
        if br < rlpDataImmLenCount then pure (s.pushByte (br + rlpDataImmLenStart))
        else
          let brbr := bytesRequired br
          if rlpDataIndLenZero + brbr > 0xff then throw (.rlpException "Number too large for RLP")
          else
            let s := s.pushByte (rlpDataIndLenZero + brbr)
            pure { s with bytes := s.bytes ++ pushIntBytes br brbr }
      pure { s with bytes := s.bytes ++ pushIntBytes i br }
  noteAppended s 1

/-- `appendList(bytesConstRef)`: a list whose items are already serialised. -/
def appendListRaw (s : RLPStream) (rlp : Bytes) : Except RLPError RLPStream := do
  let s ← if rlp.length < rlpListImmLenCount then pure (s.pushByte (rlp.length + rlpListStart))
    else s.pushCount rlp.length rlpListIndLenZero
  appendRaw s rlp 1

/-- `appendList(size_t)`: open a list of the given number of items. -/
def appendList (s : RLPStream) (items : ℕ) : Except RLPError RLPStream :=
  if items ≠ 0 then .ok { s with listStack := (items, s.bytes.length) :: s.listStack }
  else s.appendListRaw []

/-- `out()`: the stream must have no open list. -/
def out (s : RLPStream) : Except RLPError Bytes :=
  if s.listStack ≠ [] then .error (.rlpException "listStack is not empty") else .ok s.bytes

end RLPStream

/-- A value that RLP can carry: a tree of byte strings and lists. -/
inductive RLPTree where
  | leaf (b : Bytes)
  | list (ts : List RLPTree)
deriving Repr

mutual
/-- Write a tree: `append` for a leaf, `appendList(count)` and then the items for a list. -/
def RLPStream.appendTree (s : RLPStream) : RLPTree → Except RLPError RLPStream
  | .leaf b => s.append b false
  | .list ts => do
    let s ← s.appendList ts.length
    RLPStream.appendTrees s ts
def RLPStream.appendTrees (s : RLPStream) : List RLPTree → Except RLPError RLPStream
  | [] => .ok s
  | t :: ts => do
    let s ← s.appendTree t
    RLPStream.appendTrees s ts
end

/-- The bytes a fresh stream holds after writing `t`. -/
def RLPTree.write (t : RLPTree) : Except RLPError Bytes := do
  let s ← RLPStream.appendTree {} t
  s.out

namespace RLPTree

/-- The header of a payload of `n` bytes; `start` is `0x80` for data and `0xc0` for lists. -/
def header (start n : ℕ) : Bytes :=
  if n < 56 then [UInt8.ofNat (start + n)]
  else UInt8.ofNat (start + 55 + (digits n).length) :: digits n

def encodeLeaf (b : Bytes) : Bytes :=
  if b.length = 1 ∧ (b.headD 0).toNat < 0x80 then b else header 0x80 b.length ++ b

mutual
def encode : RLPTree → Bytes
  | leaf b => encodeLeaf b
  | list ts => header 0xc0 (encodeItems ts).length ++ encodeItems ts
def encodeItems : List RLPTree → Bytes
  | [] => []
  | t :: ts => encode t ++ encodeItems ts
end

@[simp] theorem encode_leaf (b : Bytes) : encode (leaf b) = encodeLeaf b := by rw [encode]

@[simp] theorem encode_list (ts : List RLPTree) :
    encode (list ts) = header 0xc0 (encodeItems ts).length ++ encodeItems ts := by rw [encode]

@[simp] theorem encodeItems_nil : encodeItems [] = [] := by rw [encodeItems]

@[simp] theorem encodeItems_cons (t : RLPTree) (ts : List RLPTree) :
    encodeItems (t :: ts) = encode t ++ encodeItems ts := by rw [encodeItems]

theorem length_header_pos (start n : ℕ) : 0 < (header start n).length := by
  unfold header
  split_ifs <;> simp

theorem encode_length_pos (t : RLPTree) : 0 < (encode t).length := by
  cases t with
  | leaf b =>
    rw [encode_leaf, encodeLeaf]
    split_ifs with h
    · omega
    · have := length_header_pos 0x80 b.length
      simp; omega
  | list ts =>
    have := length_header_pos 0xc0 (encodeItems ts).length
    simp; omega

end RLPTree

namespace RLPStream
open RLPTree

theorem pushIntBytes_bytesRequired (i : ℕ) :
    pushIntBytes i (bytesRequired i) = digits i := by
  simp [pushIntBytes]

theorem closeList_append (o items : Bytes) (h : items.length < 256 ^ 8) :
    closeList (o ++ items) o.length = .ok (o ++ header 0xc0 items.length ++ items) := by
  have hb : bytesRequired items.length ≤ 8 := (bytesRequired_le_iff _ _).mpr h
  have hs : (o ++ items).length - o.length = items.length := by simp
  have hi : rlpListIndLenZero + bytesRequired items.length ≤ 0xff := by
    simp only [rlpListIndLenZero, rlpListStart, rlpListImmLenCount, rlpMaxLengthBytes]; omega
  have hc : rlpListImmLenCount = 56 := rfl
  have hz : rlpListIndLenZero = 0xc0 + 55 := rfl
  simp only [closeList, hs, pushIntBytes_bytesRequired, if_pos hi, take_left, drop_left,
    header, hc]
  split_ifs with h1
  · simp [rlpListStart]
  · simp [hz, bytesRequired_eq]

theorem noteAppendedLoop_close (st : List (ℕ × ℕ)) (o items : Bytes)
    (h : items.length < 256 ^ 8) :
    noteAppendedLoop ((1, o.length) :: st) (o ++ items) 1 =
      noteAppendedLoop st (o ++ (header 0xc0 items.length ++ items)) 1 := by
  rw [noteAppendedLoop]
  simp only [lt_irrefl, if_false, Nat.sub_self, ne_eq, not_true, closeList_append o items h,
    append_assoc]
  rfl

theorem append_eq_of_bytesRequired (s : RLPStream) (b : Bytes) (hb : bytesRequired b.length ≤ 72) :
    s.append b false = noteAppendedLoop s.listStack (s.bytes ++ encodeLeaf b) 1 := by
  have hi : ¬ bytesRequired b.length + rlpDataIndLenZero > 0xff := by
    simp only [rlpDataIndLenZero, rlpDataImmLenStart, rlpDataImmLenCount, rlpListStart,
      rlpMaxLengthBytes]; omega
  have hc : rlpDataImmLenCount = 56 := rfl
  have hst : rlpDataImmLenStart = 0x80 := rfl
  have hz : rlpDataIndLenZero = 0x80 + 55 := rfl
  unfold append encodeLeaf
  simp only [Bool.false_eq_true, if_false, hc, hst]
  split_ifs with h1 h2
  · obtain ⟨d, rfl⟩ := length_eq_one_iff.mp h1.1
    simp [pushByte, noteAppended]
  · simp [pushByte, noteAppended, appendRaw, header, h2, Nat.add_comm, Except.ok_bind]
  · simp only [pushCount, if_neg hi, pushIntBytes_bytesRequired, header, if_neg h2]
    simp [noteAppended, appendRaw, bytesRequired_eq, hz, Nat.add_comm, Except.ok_bind]

theorem append_eq (s : RLPStream) (b : Bytes) (h : b.length < 256 ^ 8) :
    s.append b false = noteAppendedLoop s.listStack (s.bytes ++ encodeLeaf b) 1 := by
  have hb : bytesRequired b.length ≤ 8 := (bytesRequired_le_iff _ _).mpr h
  exact append_eq_of_bytesRequired s b (hb.trans (by norm_num))

theorem appendListRaw_eq (s : RLPStream) (rlp : Bytes) (h : rlp.length < 256 ^ 8) :
    s.appendListRaw rlp =
      noteAppendedLoop s.listStack (s.bytes ++ (header 0xc0 rlp.length ++ rlp)) 1 := by
  have hb : bytesRequired rlp.length ≤ 8 := (bytesRequired_le_iff _ _).mpr h
  have hi : ¬ bytesRequired rlp.length + rlpListIndLenZero > 0xff := by
    simp only [rlpListIndLenZero, rlpListStart, rlpListImmLenCount, rlpMaxLengthBytes]; omega
  have hc : rlpListImmLenCount = 56 := rfl
  have hst : rlpListStart = 0xc0 := rfl
  have hz : rlpListIndLenZero = 0xc0 + 55 := rfl
  unfold appendListRaw
  rw [hc]
  split_ifs with h1
  · simp [pushByte, noteAppended, appendRaw, header, h1, hst, Nat.add_comm]
  · simp only [pushCount, if_neg hi, pushIntBytes_bytesRequired, header, if_neg h1]
    simp [noteAppended, appendRaw, bytesRequired_eq, hz, Nat.add_comm, Except.ok_bind]

end RLPStream

mutual
/-- A tree that can be written: the payload of a list may have eight length bytes. -/
def RLPTree.Fits : RLPTree → Prop
  | .leaf b => bytesRequired b.length ≤ 72
  | .list ts => RLPTree.FitsAll ts ∧ (encodeItems ts).length < 256 ^ 8
def RLPTree.FitsAll : List RLPTree → Prop
  | [] => True
  | t :: ts => RLPTree.Fits t ∧ RLPTree.FitsAll ts
end

namespace RLPTree

theorem fits_leaf {b : Bytes} : Fits (leaf b) ↔ bytesRequired b.length ≤ 72 := by rw [Fits]

theorem fits_list {ts : List RLPTree} : Fits (list ts) ↔ FitsAll ts ∧
    (encodeItems ts).length < 256 ^ 8 := by rw [Fits]

theorem fitsAll_nil : FitsAll [] := by
  rw [FitsAll]
  trivial

theorem fitsAll_cons {t : RLPTree} {ts : List RLPTree} : FitsAll (t :: ts) ↔ Fits t ∧
    FitsAll ts := by rw [FitsAll]

theorem length_le_encodeLeaf (b : Bytes) : b.length ≤ (encodeLeaf b).length := by
  rw [encodeLeaf]
  split_ifs <;> simp

mutual
theorem fits_of_length (t : RLPTree) (h : (encode t).length < 256 ^ 8) : Fits t := by
  match t with
  | .leaf b =>
    rw [encode_leaf] at h
    have hb : bytesRequired b.length ≤ 8 :=
      (bytesRequired_le_iff _ _).mpr ((length_le_encodeLeaf b).trans_lt h)
    exact fits_leaf.mpr (hb.trans (by norm_num))
  | .list ts =>
    have hi : (encodeItems ts).length < 256 ^ 8 := by
      refine lt_of_le_of_lt ?_ h
      rw [encode_list]; simp
    exact fits_list.mpr ⟨fitsAll_of_length ts hi, hi⟩
termination_by sizeOf t

theorem fitsAll_of_length (ts : List RLPTree) (h : (encodeItems ts).length < 256 ^ 8) :
    FitsAll ts := by
  match ts with
  | [] => exact fitsAll_nil
  | t :: ts =>
    rw [encodeItems_cons, length_append] at h
    exact fitsAll_cons.mpr ⟨fits_of_length t (by omega), fitsAll_of_length ts (by omega)⟩
termination_by sizeOf ts
end

end RLPTree

namespace RLPStream
open RLPTree

mutual
/-- Writing a tree appends its encoding and then closes the lists it completes. -/
theorem appendTree_eq (s : RLPStream) (t : RLPTree) (h : Fits t) :
    s.appendTree t = noteAppendedLoop s.listStack (s.bytes ++ encode t) 1 := by
  match t with
  | .leaf b => rw [appendTree, append_eq_of_bytesRequired s b (fits_leaf.mp h), encode_leaf]
  | .list [] =>
    rw [appendTree]
    simp only [appendList, length_nil, ne_eq, not_true, if_false]
    rw [appendListRaw_eq s [] (by norm_num), encode_list, encodeItems_nil]
    cases noteAppendedLoop s.listStack (s.bytes ++ (header 0xc0 ([] : Bytes).length ++ [])) 1 with
    | error e => rfl
    | ok s' => simp [appendTrees]
  | .list (t :: ts) =>
    obtain ⟨hts, hi⟩ := fits_list.mp h
    rw [appendTree]
    simp only [appendList, length_cons, ne_eq, Nat.succ_ne_zero, not_false_iff, if_true]
    change appendTrees ⟨s.bytes, ((t :: ts).length, s.bytes.length) :: s.listStack⟩ (t :: ts) = _
    rw [appendTrees_eq _ _ _ _ _ hts, noteAppendedLoop_close _ _ _ hi, encode_list]
termination_by sizeOf t

theorem appendTrees_eq (o : Bytes) (p : ℕ) (st : List (ℕ × ℕ)) (t : RLPTree) (ts : List RLPTree)
    (h : FitsAll (t :: ts)) : appendTrees ⟨o, ((t :: ts).length, p) :: st⟩ (t :: ts) =
      noteAppendedLoop ((1, p) :: st) (o ++ encodeItems (t :: ts)) 1 := by
  obtain ⟨ht, hts⟩ := fitsAll_cons.mp h
  rw [appendTrees, appendTree_eq _ t ht]
  match ts with
  | [] =>
    simp only [length_singleton, encodeItems_cons, encodeItems_nil, append_nil]
    cases noteAppendedLoop ((1, p) :: st) (o ++ encode t) 1 with
    | error e => rfl
    | ok s' => simp [appendTrees]
  | u :: us =>
    have hstep : noteAppendedLoop (((t :: u :: us).length, p) :: st) (o ++ encode t) 1 =
        .ok ⟨o ++ encode t, ((u :: us).length, p) :: st⟩ := by
      simp [noteAppendedLoop]
    rw [hstep]
    change appendTrees ⟨o ++ encode t, ((u :: us).length, p) :: st⟩ (u :: us) = _
    rw [appendTrees_eq _ _ _ u us hts, encodeItems_cons t, append_assoc]
termination_by sizeOf (t :: ts)
end

end RLPStream

theorem RLPTree.write_eq (t : RLPTree) (h : t.encode.length < 256 ^ 8) : t.write = .ok t.encode := by
  rw [RLPTree.write, RLPStream.appendTree_eq _ t (fits_of_length t h)]
  rfl

end Vapory
