import Vapory.Block.TransactionReceipt

/-! `BlockHeader.h` and `BlockHeader.cpp`. -/
namespace Vapory

structure BlockHeader where
  parentHash : H256
  sha3Uncles : H256
  author : Address
  stateRoot : H256
  transactionsRoot : H256
  receiptsRoot : H256
  logBloom : LogBloom
  difficulty : U256
  number : U256
  gasLimit : U256
  gasUsed : U256
  timestamp : U256
  extraData : Bytes
  /-- `m_seal`, the encoded fields after those above. -/
  sealFields : List Bytes
  /-- `m_hash`: the hash of the data from which the header was read, or zero. -/
  memo : H256
deriving DecidableEq

/-- `EnvInfo(_current, _lh, _gasUsed)`. -/
def Vvm.EnvInfo.ofHeader (current : BlockHeader) (lastHashes : H256 → List H256) (gasUsed : U256) :
    EnvInfo where
  number := current.number
  author := current.author
  timestamp := current.timestamp
  difficulty := current.difficulty
  gasLimit := current.gasLimit
  gasUsed := gasUsed
  precedingHashes := lastHashes current.parentHash

/-- What `BlockHeader::verify` throws. -/
inductive HeaderError where
  | InvalidNumber
  | TooMuchGasUsed
  | InvalidParentHash
  | InvalidTimestamp
  | InvalidTransactionsRoot
  | InvalidUnclesHash
deriving DecidableEq, Repr

/-- `ref()` of a bloom. -/
def bloomBytes (b : LogBloom) : Bytes :=
  (List.range 256).map fun i => UInt8.ofNat (b.toNat / 256 ^ (255 - i))

namespace BlockHeader

inductive Strictness where
  | CheckEverything
  | JustSeal
  | QuickNonce
  | IgnoreSeal
  | CheckNothingNew
deriving DecidableEq, Repr

/-- The header that `BlockHeader()` makes has no time. -/
def isValid (h : BlockHeader) : Bool := h.timestamp ≠ BitVec.allOnes 256

def streamRLPFields (h : BlockHeader) (s : RLPStream) : Except RLPError RLPStream := do
  let s ← s.append (Vvm.wordBytes h.parentHash) false
  let s ← s.append (Vvm.wordBytes h.sha3Uncles) false
  let s ← s.append (addressBytes h.author) false
  let s ← s.append (Vvm.wordBytes h.stateRoot) false
  let s ← s.append (Vvm.wordBytes h.transactionsRoot) false
  let s ← s.append (Vvm.wordBytes h.receiptsRoot) false
  let s ← s.append (bloomBytes h.logBloom) false
  let s ← s.appendInt h.difficulty.toNat
  let s ← s.appendInt h.number.toNat
  let s ← s.appendInt h.gasLimit.toNat
  let s ← s.appendInt h.gasUsed.toNat
  let s ← s.appendInt h.timestamp.toNat
  s.append h.extraData false

/-- `streamRLP`, with the seal or without it. -/
def streamRLP (h : BlockHeader) (withSeal : Bool) (s : RLPStream) : Except RLPError RLPStream := do
  let s ← s.appendList (13 + if withSeal then h.sealFields.length else 0)
  let s ← h.streamRLPFields s
  if withSeal then h.sealFields.foldlM (fun s field => s.appendRaw field 1) s else return s

def rlp (h : BlockHeader) (withSeal : Bool) : Bytes :=
  ((h.streamRLP withSeal {}).bind RLPStream.out).toOption.getD []

/-- `hash(WithSeal)`. -/
def hash (H : Hasher) (h : BlockHeader) : H256 := if h.memo ≠ 0 then h.memo else H.hash (h.rlp true)

/-- `noteDirty`, for the one hash that is kept here. -/
def noteDirty (h : BlockHeader) : BlockHeader := { h with memo := 0 }

def setParentHash (h : BlockHeader) (v : H256) : BlockHeader := { h with parentHash := v }.noteDirty
def setSha3Uncles (h : BlockHeader) (v : H256) : BlockHeader := { h with sha3Uncles := v }.noteDirty
def setTimestamp (h : BlockHeader) (v : U256) : BlockHeader := { h with timestamp := v }.noteDirty
def setAuthor (h : BlockHeader) (v : Address) : BlockHeader := { h with author := v }.noteDirty
def setRoots (h : BlockHeader) (t r u s : H256) : BlockHeader :=
  { h with transactionsRoot := t, receiptsRoot := r, stateRoot := s, sha3Uncles := u }.noteDirty
def setGasUsed (h : BlockHeader) (v : U256) : BlockHeader := { h with gasUsed := v }.noteDirty
def setNumber (h : BlockHeader) (v : U256) : BlockHeader := { h with number := v }.noteDirty
def setGasLimit (h : BlockHeader) (v : U256) : BlockHeader := { h with gasLimit := v }.noteDirty
def setExtraData (h : BlockHeader) (v : Bytes) : BlockHeader := { h with extraData := v }.noteDirty
def setLogBloom (h : BlockHeader) (v : LogBloom) : BlockHeader := { h with logBloom := v }.noteDirty
def setDifficulty (h : BlockHeader) (v : U256) : BlockHeader := { h with difficulty := v }.noteDirty

/-- `setSeal(_offset, _value)`, where `field` is `rlp(_value)`. -/
def setSeal (h : BlockHeader) (offset : ℕ) (field : Bytes) : BlockHeader :=
  let fields := h.sealFields ++ List.replicate (offset + 1 - h.sealFields.length) []
  { h with sealFields := fields.set offset field }.noteDirty

/-- `verify`; `body` has the root of the trie over the transactions and the hash of the uncles, if
the block is given. -/
def verify (H : Hasher) (h : BlockHeader) (s : Strictness) (parent : BlockHeader)
    (body : Option (H256 × H256)) : Except HeaderError Unit := do
  if h.number.toNat > 2 ^ 32 - 1 then throw .InvalidNumber
  if s ≠ .CheckNothingNew ∧ h.gasUsed > h.gasLimit then throw .TooMuchGasUsed
  if parent.isValid then
    if h.parentHash ≠ 0 ∧ parent.hash H ≠ h.parentHash then throw .InvalidParentHash
    if h.timestamp ≤ parent.timestamp then throw .InvalidTimestamp
    if h.number ≠ parent.number + 1 then throw .InvalidNumber
  match body with
  | none => return
  | some (transactionsRoot, sha3Uncles) =>
    if h.transactionsRoot ≠ transactionsRoot then throw .InvalidTransactionsRoot
    if h.sha3Uncles ≠ sha3Uncles then throw .InvalidUnclesHash

end BlockHeader

end Vapory
