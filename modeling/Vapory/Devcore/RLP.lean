import Vapory.Devcore.RLPStream

/-! `RLP`, the reader: header decoding with its checks, the two ways to reach the items
of a list (the iterator and the index operator with its cache), and conversions. -/
namespace Vapory

/-- The flags of `RLP::Strictness`. -/
structure Strictness where
  allowNonCanon : Bool := false
  throwOnFail : Bool := false
  failIfTooBig : Bool := false
  failIfTooSmall : Bool := false
deriving DecidableEq, Repr

namespace Strictness
def strict : Strictness := { throwOnFail := true, failIfTooBig := true }
def veryStrict : Strictness := { throwOnFail := true, failIfTooBig := true, failIfTooSmall := true }
def laissezFaire : Strictness := { allowNonCanon := true }
/-- `ThrowOnFail | FailIfTooSmall`, used on the items of a list. -/
def throwIfTooSmall : Strictness := { throwOnFail := true, failIfTooSmall := true }
end Strictness

/-- `numeric_limits<size_t>::max()`. -/
def sizeMax : ℕ := 2 ^ 64 - 1

structure RLP where
  data : BytesRef
  lastIndex : ℕ := sizeMax
  lastEnd : ℕ := 0
  lastItem : BytesRef := .null []
deriving DecidableEq, Repr

namespace RLP

def isNull (r : RLP) : Bool := r.data.count == 0

/-- `m_data[0]`. -/
def first (r : RLP) : ℕ := (r.data.get 0).toNat

def isEmpty (r : RLP) : Bool :=
  !r.isNull && (r.first == rlpDataImmLenStart || r.first == rlpListStart)

def isData (r : RLP) : Bool := !r.isNull && decide (r.first < rlpListStart)

def isList (r : RLP) : Bool := !r.isNull && decide (rlpListStart ≤ r.first)

def isSingleByte (r : RLP) : Bool := !r.isNull && decide (r.first < rlpDataImmLenStart)

def lengthSize (r : RLP) : ℕ :=
  if r.isData ∧ rlpDataIndLenZero < r.first then r.first - rlpDataIndLenZero
  else if r.isList ∧ rlpListIndLenZero < r.first then r.first - rlpListIndLenZero
  else 0

def payloadOffset (r : RLP) : ℕ := if r.isSingleByte then 0 else 1 + r.lengthSize

/-- Throws if a single byte below `0x80` was written in two bytes. -/
def requireGood (r : RLP) : Except RLPError Unit :=
  if r.isNull then .error .badRLP
  else if r.first ≠ rlpDataImmLenStart + 1 then .ok ()
  else if r.data.count < 2 then .error .badRLP
  else if (r.data.get 1).toNat < rlpDataImmLenStart then .error .badRLP
  else .ok ()

/-- A length of `lengthSize` bytes after the first byte, with the checks that both the
data and the list branch of `length()` make; `limit` is the smallest length that may be
written in this form. -/
def indirectLength (r : RLP) (lengthSize limit : ℕ) : Except RLPError ℕ :=
  if r.data.count ≤ lengthSize then .error .badRLP
  else if 1 < r.data.count ∧ r.data.get 1 = 0 then .error .badRLP
  else if 8 < lengthSize then .error .undersizeRLP
  else if r.data.get 1 = 0 then .error .badRLP
  else
    let ret := BigEndian.value ((List.range lengthSize).map fun i => r.data.get (i + 1))
    if ret < limit then .error .badRLP
    else if sizeMax - 0x100 ≤ ret then .error .undersizeRLP
    else .ok ret

def length (r : RLP) : Except RLPError ℕ := do
  if r.isNull then return 0
  r.requireGood
  let n := r.first
  if n < rlpDataImmLenStart then return 1
  else if n ≤ rlpDataIndLenZero then return n - rlpDataImmLenStart
  else if n < rlpListStart then
    r.indirectLength (n - rlpDataIndLenZero) (rlpListStart - rlpDataImmLenStart - rlpMaxLengthBytes)
  else if n ≤ rlpListIndLenZero then return n - rlpListStart
  else r.indirectLength (n - rlpListIndLenZero) (0x100 - rlpListStart - rlpMaxLengthBytes)

def actualSize (r : RLP) : Except RLPError ℕ := do
  if r.isNull then return 0
  if r.isSingleByte then return 1
  if r.isData ∨ r.isList then
    let l ← r.length
    return r.payloadOffset + l
  return 0

/-- The constructor `RLP(_d, _s)`. -/
def parse (d : BytesRef) (s : Strictness) : Except RLPError RLP := do
  let r : RLP := { data := d }
  let r ←
    if s.failIfTooBig then do
      let a ← r.actualSize
      if a < d.count then if s.throwOnFail then .error .oversizeRLP else pure { r with data := .null d.buf }
      else pure r
    else pure r
  if s.failIfTooSmall then do
    let a ← r.actualSize
    if d.count < a then if s.throwOnFail then .error .undersizeRLP else pure { r with data := .null d.buf }
    else pure r
  else pure r

/-- The size encoded in the item at the front of `d`; throws if `d` is too short. -/
def sizeAsEncoded (d : BytesRef) : Except RLPError ℕ := do
  let r ← parse d .throwIfTooSmall
  r.actualSize

def payload (r : RLP) : Except RLPError BytesRef := do
  let l ← r.length
  if r.data.count < l then .error .badRLP else return r.data.cropped r.payloadOffset l

/-- The loop of `items()`: crop one item after another off the payload. -/
def itemsLoop : ℕ → BytesRef → ℕ → Except RLPError ℕ
  | 0, _, _ => .error .diverges
  | fuel + 1, d, i =>
    if d.count = 0 then .ok i
    else do
      let s ← sizeAsEncoded d
      itemsLoop fuel (d.croppedFrom s) (i + 1)

def items (r : RLP) : Except RLPError ℕ :=
  if r.isList then do
    let d ← r.payload
    itemsLoop (d.count + 1) d 0
  else .ok 0

def itemCount (r : RLP) : Except RLPError ℕ := if r.isList then r.items else .ok 0

/-- `RLP::iterator`. -/
structure Iterator where
  remaining : ℕ
  currentItem : BytesRef
deriving DecidableEq, Repr

def begin (r : RLP) : Except RLPError Iterator :=
  if r.isList then do
    let pl ← r.payload
    let s ← sizeAsEncoded pl
    let c := pl.cropped 0 s
    return ⟨pl.count - c.count, c⟩
  else .ok ⟨0, r.data.croppedFrom r.data.count⟩

/-- `end()`. -/
def finish (r : RLP) : Iterator := ⟨0, r.data.croppedFrom r.data.count⟩

/-- `operator++`. -/
def Iterator.incr (it : Iterator) : Except RLPError Iterator :=
  if it.remaining ≠ 0 then do
    let c := it.currentItem.retarget it.currentItem.next it.remaining
    let s ← sizeAsEncoded c
    let c := c.cropped 0 s
    return ⟨it.remaining - min it.remaining c.count, c⟩
  else .ok ⟨it.remaining, it.currentItem.retarget it.currentItem.next 0⟩

/-- `operator*`. -/
def Iterator.deref (it : Iterator) : Except RLPError RLP := parse it.currentItem .veryStrict

/-- The loop `for (it = begin(); it != end(); ++it)` collecting `*it`. -/
def iterLoop : ℕ → Iterator → Iterator → Except RLPError (List RLP)
  | 0, _, _ => .error .diverges
  | fuel + 1, it, fin =>
    if it.currentItem.same fin.currentItem then .ok []
    else do
      let r ← it.deref
      let it ← it.incr
      let rs ← iterLoop fuel it fin
      return r :: rs

/-- `toList(_flags)`: the items by iteration. -/
def toList (r : RLP) (s : Strictness) : Except RLPError (List RLP) :=
  if r.isList then do
    let b ← r.begin
    iterLoop (r.data.count + 1) b r.finish
  else if s.throwOnFail then .error .badCast else .ok []

/-- The loop of `operator[]`, which walks the cached item forward. The cache is part of the
result also when an item is malformed and the walk throws. -/
def indexLoop : ℕ → RLP → ℕ → Except RLPError Unit × RLP
  | 0, r, _ => (.error .diverges, r)
  | fuel + 1, r, i =>
    if r.lastIndex < i ∧ r.lastItem.count ≠ 0 then
      match r.payload with
      | .error e => (.error e, r)
      | .ok pl =>
        let r := { r with lastItem := pl.croppedFrom r.lastEnd }
        match sizeAsEncoded r.lastItem with
        | .error e => (.error e, r)
        | .ok s =>
          let item := r.lastItem.cropped 0 s
          indexLoop fuel { r with lastItem := item, lastEnd := r.lastEnd + item.count,
                                  lastIndex := r.lastIndex + 1 } i
    else (.ok (), r)

/-- `operator[]` with the object after the access, whose cache the call updates. -/
def index (r : RLP) (i : ℕ) : Except RLPError RLP × RLP :=
  let reset : Except RLPError RLP :=
    if i < r.lastIndex then do
      let pl ← r.payload
      let e ← sizeAsEncoded pl
      return { r with lastEnd := e, lastItem := pl.cropped 0 e, lastIndex := 0 }
    else .ok r
  match reset with
  | .error e => (.error e, r)
  | .ok r =>
    match indexLoop (r.data.count + 1) r i with
    | (.error e, r) => (.error e, r)
    | (.ok _, r) => (parse r.lastItem .throwIfTooSmall, r)

/-- `toBytes(_flags)`: the payload of a data item. The source copies `length()` bytes from
`payload().data()`, which is null if the item does not fit its view; an object made with
`FailIfTooSmall` always fits. -/
def toBytes (r : RLP) (s : Strictness) : Except RLPError Bytes := do
  if !r.isData then
    if s.throwOnFail then .error .badCast else return []
  let pl ← r.payload
  return pl.toBytes

/-- Access the items `i, i + 1, …` of one object in ascending order, `n` of them. -/
def indexFrom : ℕ → RLP → ℕ → Except RLPError (List RLP)
  | 0, _, _ => .ok []
  | n + 1, r, i => do
    let item ← (r.index i).1
    let rs ← indexFrom n (r.index i).2 (i + 1)
    return item :: rs

/-- The items by `operator[]`, from the first up to `itemCount()`. -/
def itemsByIndex (r : RLP) : Except RLPError (List RLP) := do
  let n ← r.itemCount
  indexFrom n r 0

/-- Read an item and everything below it, strictly; `items` is how a list is taken apart. -/
def readTreeWith (items : RLP → Except RLPError (List RLP)) : ℕ → RLP → Except RLPError RLPTree
  | 0, _ => .error .diverges
  | fuel + 1, r =>
    if r.isList then do
      let rs ← items r
      let ts ← rs.mapM (readTreeWith items fuel)
      return .list ts
    else do
      let b ← r.toBytes .strict
      return .leaf b

/-- An item is strictly inside the list that holds it, so its size bounds the nesting. -/
def readTree (r : RLP) : Except RLPError RLPTree :=
  readTreeWith (fun r => r.toList .strict) (r.data.count + 1) r

def readTreeAt (r : RLP) : Except RLPError RLPTree :=
  readTreeWith itemsByIndex (r.data.count + 1) r

end RLP
end Vapory
