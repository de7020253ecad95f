import Vapory.Block.TransactionReceipt
import Vapory.Devcore.RLPReading

/-! `TransactionBase.h` and `TransactionBase.cpp`: a transaction with its signature, the bytes that
it is sent as, and its hashes. -/
namespace Vapory
open RLP

/-- The value of a 32-bit `int` after arithmetic or a conversion. -/
def toInt32 (x : ℤ) : ℤ := x.bmod (2 ^ 32)

/-- The conversion of an `int` to `unsigned`. -/
def toUInt32 (x : ℤ) : ℕ := (x % 2 ^ 32).toNat

inductive IncludeSignature where
  | WithoutSignature
  | WithSignature
deriving DecidableEq, Repr

inductive CheckTransaction where
  | None
  | Cheap
  | Everything
deriving DecidableEq, Repr

namespace TransactionBase

inductive Error where
  | rlp (e : RLPError)
  | InvalidTransactionFormat (comment : String)
  | InvalidSignature
  | TransactionIsUnsigned
deriving DecidableEq, Repr

instance : MonadLift (Except RLPError) (Except Error) := ⟨Except.mapError .rlp⟩

/-- `enum Type`. -/
inductive Kind where
  | NullTransaction
  | ContractCreation
  | MessageCall
deriving DecidableEq, Repr

structure SignatureStruct where
  r : H256
  s : H256
  v : UInt8
deriving DecidableEq

/-- `s_max` in `SignatureStruct::isValid`. -/
def secp256k1n : H256 := 0xfffffffffffffffffffffffffffffffebaaedce6af48a03bbfd25e8cd0364141

def SignatureStruct.isValid (vrs : SignatureStruct) : Bool :=
  vrs.v ≤ 1 ∧ vrs.r > 0 ∧ vrs.s > 0 ∧ vrs.r < secp256k1n ∧ vrs.s < secp256k1n

end TransactionBase

/-- The functions of `libdevcrypto` that are used here. `recover` gives zero where it finds no
key. -/
structure Crypto where
  sign : BitVec 256 → H256 → TransactionBase.SignatureStruct
  recover : TransactionBase.SignatureStruct → H256 → BitVec 512

/-- `TransactionBase`. `hashWith` and `cachedSender` are `m_hashWith` and `m_sender`, which are zero
until they are asked for. -/
structure TransactionBase where
  type : TransactionBase.Kind := .NullTransaction
  nonce : U256 := 0
  value : U256 := 0
  receiveAddress : Address := 0
  gasPrice : U256 := 0
  gas : U256 := 0
  data : Bytes := []
  vrs : Option TransactionBase.SignatureStruct := none
  chainId : ℤ := -4
  hashWith : H256 := 0
  cachedSender : Address := 0
deriving DecidableEq

namespace TransactionBase

def maxAddress : Address := BitVec.allOnes 160

/-- `operator==`. -/
def equal (t c : TransactionBase) : Bool :=
  t.type = c.type ∧ (t.type = .ContractCreation ∨ t.receiveAddress = c.receiveAddress) ∧
    t.value = c.value ∧ t.data = c.data

def isZeroSignature (r s : U256) : Bool := r = 0 ∧ s = 0

def hasZeroSignature (t : TransactionBase) : Bool :=
  t.vrs.any fun vrs => isZeroSignature vrs.r vrs.s

/-- What `streamRLP` writes for `v`. -/
def wireV (t : TransactionBase) (vrs : SignatureStruct) : ℕ :=
  if t.hasZeroSignature then toUInt32 t.chainId
  else
    let vOffset := toInt32 (t.chainId * 2 + 35)
    toUInt32 (vrs.v.toNat + vOffset)

def streamRLP (t : TransactionBase) (sig : IncludeSignature) (forEip155hash : Bool)
    (s : RLPStream) : Except Error RLPStream := do
  if t.type = .NullTransaction then return s
  let s ← s.appendList ((if sig = .WithSignature ∨ forEip155hash then 3 else 0) + 6)
  let s ← s.appendInt t.nonce.toNat
  let s ← s.appendInt t.gasPrice.toNat
  let s ← s.appendInt t.gas.toNat
  let s ← s.append (if t.type = .MessageCall then addressBytes t.receiveAddress else []) false
  let s ← s.appendInt t.value.toNat
  let s ← s.append t.data false
  if sig = .WithSignature then
    match t.vrs with
    | none => throw .TransactionIsUnsigned
    | some vrs => do
      let s ← s.appendInt (t.wireV vrs)
      let s ← s.appendInt vrs.r.toNat
      s.appendInt vrs.s.toNat
  else if forEip155hash then do
    let s ← s.appendInt (toUInt32 t.chainId)
    let s ← s.appendInt 0
    s.appendInt 0
  else return s

/-- `rlp(_sig)`. -/
def rlp (t : TransactionBase) (sig : IncludeSignature) : Except Error Bytes := do
  let s ← t.streamRLP sig false {}
  s.out

/-- `sha3(_sig)`, with the object after the call. -/
def sha3 (H : Hasher) (t : TransactionBase) (sig : IncludeSignature) :
    Except Error (H256 × TransactionBase) := do
  if sig = .WithSignature ∧ t.hashWith ≠ 0 then return (t.hashWith, t)
  let s ← t.streamRLP sig (t.chainId > 0 ∧ sig = .WithoutSignature) {}
  let out ← s.out
  let ret := H.hash out
  return (ret, if sig = .WithSignature then { t with hashWith := ret } else t)

/-- `sender()`, with the object after the call. -/
def sender (H : Hasher) (C : Crypto) (t : TransactionBase) :
    Except Error (Address × TransactionBase) := do
  if t.cachedSender ≠ 0 then return (t.cachedSender, t)
  if t.hasZeroSignature then return (maxAddress, { t with cachedSender := maxAddress })
  match t.vrs with
  | none => throw .TransactionIsUnsigned
  | some vrs => do
    let r ← t.sha3 H .WithoutSignature
    let p := C.recover vrs r.1
    if p = 0 then throw .InvalidSignature
    let sender := right160 (H.hash (BigEndian.fixed 64 p.toNat))
    return (sender, { t with cachedSender := sender })

def sign (H : Hasher) (C : Crypto) (t : TransactionBase) (secret : BitVec 256) :
    Except Error TransactionBase := do
  let r ← t.sha3 H .WithoutSignature
  let sig := C.sign secret r.1
  return if sig.isValid then { t with vrs := some sig } else t

/-- `setNonce`, which clears the signature. -/
def setNonce (t : TransactionBase) (n : U256) : TransactionBase :=
  { t with vrs := some ⟨0, 0, 0⟩, nonce := n }

def messageCall (H : Hasher) (C : Crypto) (value gasPrice gas : U256) (dest : Address)
    (data : Bytes) (nonce : U256) (secret : BitVec 256) : Except Error TransactionBase :=
  sign H C { type := .MessageCall, nonce, value, receiveAddress := dest, gasPrice, gas, data } secret

/-- The chain that `v` names. -/
def chainIdOf (v : ℤ) : Except Error ℤ :=
  if v > 36 then .ok (Int.tdiv (v - 35) 2)
  else if v = 27 ∨ v = 28 then .ok (-4)
  else .error .InvalidSignature

/-- The constructor from RLP takes `v`, `r` and `s` as a signature and a chain. -/
def acceptSignature (check : CheckTransaction) (t : TransactionBase) (v : ℤ) (r s : U256) :
    Except Error TransactionBase := do
  if isZeroSignature r s then return { t with chainId := v, vrs := some ⟨r, s, 0⟩ }
  let chainId ← chainIdOf v
  let vrs : SignatureStruct := ⟨r, s, UInt8.ofInt (v - (chainId * 2 + 35))⟩
  if check ≠ .None ∧ !vrs.isValid then throw .InvalidSignature
  return { t with chainId, vrs := some vrs }

def acceptSender (H : Hasher) (C : Crypto) (check : CheckTransaction) (t : TransactionBase) :
    Except Error TransactionBase :=
  if check = .Everything then do
    let sender ← t.sender H C
    return { sender.2 with cachedSender := sender.1 }
  else return t

/-- `m_type` and `m_receiveAddress`, from the fourth item. -/
def readRecipient : StateT RLP (Except Error) (Kind × Address) := do
  let creation ← readItem .rlp 3 fun x => pure x.isEmpty
  let type := if creation then .ContractCreation else .MessageCall
  let noAddress ← readItem .rlp 3 fun x => pure x.isEmpty
  if noAddress then return (type, 0)
  let receiveAddress ← readItem .rlp 3 (toHash 20 .veryStrict)
  return (type, BitVec.ofNat 160 (BigEndian.value receiveAddress))

/-- `m_data`, from the sixth item. -/
def readData : StateT RLP (Except Error) Bytes := do
  let isData ← readItem .rlp 5 fun x => pure x.isData
  if !isData then throw (.InvalidTransactionFormat "transaction data RLP must be an array")
  readItem .rlp 5 fun x => x.toBytes .laissezFaire

/-- The constructor from RLP once the object `rlp` is made. The questions that do not move the cache
are asked of `rlp` as it is. -/
def read (H : Hasher) (C : Crypto) (check : CheckTransaction) (rlp : RLP) :
    StateT RLP (Except Error) TransactionBase := do
  if !rlp.isList then throw (.InvalidTransactionFormat "transaction RLP must be a list")
  let nonce ← readItem .rlp 0 (toInt 32 .strict)
  let gasPrice ← readItem .rlp 1 (toInt 32 .strict)
  let gas ← readItem .rlp 2 (toInt 32 .strict)
  let recipient ← readRecipient
  let value ← readItem .rlp 4 (toInt 32 .strict)
  let data ← readData
  let v ← readItem .rlp 6 (toInt 4 .strict)
  let r ← readItem .rlp 7 (toInt 32 .strict)
  let s ← readItem .rlp 8 (toInt 32 .strict)
  let t : TransactionBase :=
    { type := recipient.1
      nonce := BitVec.ofNat 256 nonce
      gasPrice := BitVec.ofNat 256 gasPrice
      gas := BitVec.ofNat 256 gas
      receiveAddress := recipient.2
      value := BitVec.ofNat 256 value
      data }
  let t ← t.acceptSignature check (toInt32 v) (BitVec.ofNat 256 r) (BitVec.ofNat 256 s)
  let t ← t.acceptSender H C check
  let itemCount ← rlp.itemCount.mapError Error.rlp
  if itemCount > 9 then throw (.InvalidTransactionFormat "too many fields in the transaction RLP")
  return t

def ofRLP (H : Hasher) (C : Crypto) (rlpData : Bytes) (check : CheckTransaction) :
    Except Error TransactionBase := do
  let rlp ← RLP.parse (.ofBytes rlpData) .veryStrict
  let r ← (read H C check rlp).run rlp
  return r.1

end TransactionBase
end Vapory
