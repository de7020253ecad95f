import Vapory.Base.Process
import Vapory.State.State
import Vapory.Vvm.VMOpt

/-! `Executive.h` and `Executive.cpp`: a message call, a creation or a whole transaction on
the state. The run of the virtual machine is a parameter here, since it calls back. -/
namespace Vapory
open Vvm

def maxAddress : Address := BitVec.allOnes 160

structure LogEntry where
  address : Address
  topics : List H256
  data : Bytes
deriving DecidableEq

/-- `SubState`; the set of suicides is in the order of the addresses. -/
structure SubState where
  suicides : List Address
  logs : List LogEntry
  refunds : U256
deriving DecidableEq

namespace SubState

def empty : SubState := ⟨[], [], 0⟩

/-- `suicides.insert`. -/
def insertSuicide (s : SubState) (a : Address) : SubState :=
  { s with suicides := (s.suicides.filter (· < a)) ++ a :: s.suicides.filter (a < ·) }

/-- `operator+=`. -/
def accrue (s s' : SubState) : SubState :=
  let s := s'.suicides.foldl insertSuicide s
  { s with refunds := s.refunds + s'.refunds, logs := s.logs ++ s'.logs }

end SubState

/-- `SignatureStruct`, the part that is checked. -/
structure SignatureStruct where
  r : U256
  s : U256
deriving DecidableEq

/-- `Transaction`, not null. `sender` is what `sender()` returns, if it does not throw. -/
structure Transaction where
  isCreation : Bool
  nonce : U256
  value : U256
  receiveAddress : Address
  gasPrice : U256
  gas : U256
  data : Bytes
  sender : Option Address
  vrs : Option SignatureStruct
  chainId : ℤ

def Transaction.hasSignature (t : Transaction) : Bool := t.vrs.isSome

def Transaction.hasZeroSignature (t : Transaction) : Bool := t.vrs = some ⟨0, 0⟩

def Transaction.isReplayProtected (t : Transaction) : Bool := t.chainId ≠ -4

def Transaction.baseGasRequired (t : Transaction) (es : VVMSchedule) : ℕ :=
  (if t.isCreation then es.txCreateGas else es.txGas).toNat +
    (t.data.map fun i => (if i = 0 then es.txDataZeroGas else es.txDataNonZeroGas).toNat).sum

/-- `SealEngineFace` and the chain parameters, as far as they are asked here.
`verifyTransaction` tells whether the function returns. -/
structure SealEngineFace where
  vvmSchedule : U256 → VVMSchedule
  eip158ForkBlock : U256
  constantinopleForkBlock : U256
  isPrecompiled : Address → U256 → Bool
  costOfPrecompiled : Address → Bytes → U256 → ℕ
  executePrecompiled : Address → Bytes → U256 → Bool × Bytes
  verifyTransaction : Transaction → EnvInfo → Bool

inductive TransactionException where
  | None
  | Unknown
  | OutOfGasIntrinsic
  | OutOfGasBase
  | BadInstruction
  | BadJumpDestination
  | OutOfGas
  | OutOfStack
  | StackUnderflow
  | RevertInstruction
  | AddressAlreadyUsed
deriving DecidableEq, Repr

/-- `toTransactionException`, of an exception of the interpreter. -/
def toTransactionException : VMException → TransactionException
  | .BadInstruction => .BadInstruction
  | .BadJumpDestination => .BadJumpDestination
  | .OutOfGas => .OutOfGas
  | .OutOfStack .. => .OutOfStack
  | .StackUnderflow .. => .StackUnderflow
  | _ => .Unknown

/-- The data members of `ExtVM`. -/
structure ExtVM where
  envInfo : EnvInfo
  myAddress : Address
  caller : Address
  origin : Address
  value : U256
  gasPrice : U256
  data : Bytes
  code : Bytes
  depth : ℕ
  staticCall : Bool
  sub : SubState

/-- What the interpreter sees of `ExtVM`. -/
def ExtVM.face (S : SealEngineFace) (E : ExtVM) : ExtVMFace :=
  { E with vvmSchedule := S.vvmSchedule E.envInfo.number }

/-- A run of the virtual machine with some gas: the output or the exception, the gas left
and the substate. -/
abbrev VMRun := ExtVM → U256 → Process State (Except VMException Bytes × U256 × SubState)

/-- `Executive`; `t` is none for a nested call or creation. -/
structure Executive where
  envInfo : EnvInfo
  depth : ℕ
  t : Option Transaction := none
  ext : Option ExtVM := none
  output : Bytes := []
  /-- `m_res->output`. -/
  resultOutput : Bytes := []
  excepted : TransactionException := .None
  baseGasRequired : ℕ := 0
  gas : U256 := 0
  gasCost : U256 := 0
  isCreation : Bool := false
  newAddress : Address := 0
  savepoint : ℕ := 0

/-- `rlpList(_sender, nonce)`. -/
def rlpSenderNonce (sender : Address) (nonce : U256) : Except RLPError Bytes := do
  let s ← RLPStream.appendList {} 2
  let s ← s.append ((List.range 20).map fun i => UInt8.ofNat (sender.toNat / 256 ^ (19 - i))) false
  let s ← s.appendInt nonce.toNat
  s.out

namespace Executive
variable (H : Hasher) (S : SealEngineFace) (run : VMRun)

def revert (e : Executive) : Process State Executive := do
  State.rollback H e.savepoint
  return { e with ext := e.ext.map fun ext => { ext with sub := .empty }, newAddress := 0 }

/-- The nonce of an external sender or a creator is incremented, except for the sender of
unsigned transactions after the fork. -/
def incSenderNonce (e : Executive) (sender : Address) : Process State Unit := do
  if sender ≠ maxAddress ∨ e.envInfo.number < S.constantinopleForkBlock then
    uncaught (State.incNonce H sender)

/-- `call`, from its savepoint on. -/
def enterCall (e : Executive) (p : CallParameters) (gasPrice : U256) (origin : Address) :
    Process State (Bool × Executive) := do
  let e := { e with savepoint := (← get).savepoint }
  if S.isPrecompiled p.codeAddress e.envInfo.number then
    let g := S.costOfPrecompiled p.codeAddress p.data e.envInfo.number
    if p.gas.toNat < g then
      if e.envInfo.number ≥ S.eip158ForkBlock then uncaught (State.addBalance H p.codeAddress 0)
      return (true, { e with excepted := .OutOfGasBase })
    else
      let (success, output) := S.executePrecompiled p.codeAddress p.data e.envInfo.number
      let e := { e with gas := BitVec.ofNat 256 (p.gas.toNat - g), output }
      if !success then return (true, { e with gas := 0, excepted := .OutOfGas })
      else
        uncaught (State.transferBalance H p.senderAddress p.receiveAddress p.valueTransfer)
        return (true, e)
  else
    let e := { e with gas := p.gas }
    let e ←
      if ← State.addressHasCode H p.codeAddress then
        let code ← State.code H p.codeAddress
        let _ ← State.codeHash H p.codeAddress
        pure { e with
          ext := some {
            envInfo := e.envInfo, myAddress := p.receiveAddress, caller := p.senderAddress, origin
            value := p.apparentValue, gasPrice, data :=
              p.data, code, depth := e.depth, staticCall := p.staticCall
            sub := .empty } }
      else pure e
    uncaught (State.transferBalance H p.senderAddress p.receiveAddress p.valueTransfer)
    return (e.ext.isNone, e)

/-- `call(CallParameters)`; true if there is nothing to run. -/
def call (e : Executive) (p : CallParameters) (gasPrice : U256) (origin : Address) :
    Process State (Bool × Executive) := do
  if e.t.isSome then incSenderNonce H S e p.senderAddress
  enterCall H S e p gasPrice origin

def accountAlreadyExist (addr : Address) : StateM State Bool := do
  if ← State.addressHasCode H addr then return true
  else return decide ((← State.getNonce H addr) > 0)

def endow (e : Executive) (sender : Address) (endowment : U256) : Process State Unit := do
  uncaught (State.transferBalance H sender e.newAddress endowment)
  let startNonce ← uncaught State.requireAccountStartNonce
  State.setNonce H e.newAddress
    (if e.envInfo.number ≥ S.eip158ForkBlock then startNonce + 1 else startNonce)

/-- `executeCreate`, from its savepoint on. -/
def enterCreate (e : Executive) (sender : Address) (endowment gasPrice gas : U256) (init : Bytes)
    (origin : Address) : Process State (Bool × Executive) := do
  let e := { e with savepoint := (← get).savepoint, isCreation := true, gas }
  if ← accountAlreadyExist H e.newAddress then
    let e ← revert H { e with gas := 0, excepted := .AddressAlreadyUsed }
    return (true, { e with ext := none })
  else
    endow H S e sender endowment
    if init = [] then return (true, e)
    else
      return (false, { e with
        ext := some {
          envInfo := e.envInfo, myAddress :=
            e.newAddress, caller := sender, origin, value := endowment, gasPrice
          data := [], code := init, depth := e.depth, staticCall := false, sub := .empty } })

/-- `executeCreate`, at the address that was set before. -/
def executeCreate (e : Executive) (sender : Address) (endowment gasPrice gas : U256) (init : Bytes)
    (origin : Address) : Process State (Bool × Executive) := do
  incSenderNonce H S e sender
  enterCreate H S e sender endowment gasPrice gas init origin

def createOpcode (e : Executive) (sender : Address) (endowment gasPrice gas : U256) (init : Bytes)
    (origin : Address) : Process State (Bool × Executive) := do
  let nonce ← State.getNonce H sender
  match rlpSenderNonce sender nonce with
  | .error _ => stop .exit
  | .ok rlp =>
    executeCreate H S { e with newAddress := right160 (H.hash rlp) } sender endowment gasPrice gas init origin

def create2Opcode (e : Executive) (sender : Address) (endowment gasPrice gas : U256) (init : Bytes)
    (origin : Address) (salt : U256) : Process State (Bool × Executive) :=
  let senderBytes := (List.range 20).map fun i => UInt8.ofNat (sender.toNat / 256 ^ (19 - i))
  let newAddress := right160 (H.hash (senderBytes ++ wordBytes salt ++ H.sha3 init))
  executeCreate H S { e with newAddress } sender endowment gasPrice gas init origin

/-- What a creation keeps of the output of its code, and the gas left after paying for it. -/
def deposit (schedule : VVMSchedule) (out : Bytes) (gas : U256) : Except VMException (Bytes × U256) :=
  if out.length > schedule.maxCodeSize.toNat then .error .OutOfGas
  else if out.length * schedule.createDataGas.toNat ≤ gas.toNat then
    .ok (out, gas - BitVec.ofNat 256 (out.length * schedule.createDataGas.toNat))
  else if schedule.exceptionalFailedCodeDeposit then .error .OutOfGas
  else .ok ([], gas)

/-- The end of `go`: what the machine returned is kept, or the changes are taken back. -/
def settle (e : Executive) (address : Address) : Except VMException (Bytes × U256) →
    Process State Executive
  | .ok (out, gas) => do
    if e.isCreation then
      State.setCode H address out
      return { e with gas, resultOutput := out }
    else return { e with output := out }
  | .error (.RevertInstruction output) => do
    let e ← revert H e
    return { e with output, excepted := .RevertInstruction }
  | .error ex => revert H { e with gas := 0, excepted := toTransactionException ex }

/-- `go`. An exception that is not one of the interpreter ends the process. -/
def go (e : Executive) : Process State Executive := do
  match e.ext with
  | none => return e
  | some ext =>
    if e.isCreation then State.clearStorage H ext.myAddress
    let (result, gas, sub) ← run ext e.gas
    let kept := do
      let out ← result
      if e.isCreation then deposit (S.vvmSchedule e.envInfo.number) out gas else .ok (out, gas)
    let e ← settle H { e with gas, ext := some { ext with sub } } ext.myAddress kept
    return if e.output = [] then e else { e with resultOutput := e.output }

/-- `initialize`. An exception leaves the transaction's caller, which here ends the process. -/
def initialize_ (e : Executive) (t : Transaction) : Process State Executive := do
  let e :=
    { e with t := some t, baseGasRequired := t.baseGasRequired (S.vvmSchedule e.envInfo.number) }
  if !S.verifyTransaction t e.envInfo then stop .exit
  if t.hasZeroSignature then return e
  else
    match t.sender with
    | none => stop .exit
    | some sender =>
      if t.nonce ≠ (← State.getNonce H sender) then stop .exit
      let gasCost := t.gas.toNat * t.gasPrice.toNat
      if (← State.balance H sender).toNat < t.value.toNat + gasCost then stop .exit
      return { e with gasCost := BitVec.ofNat 256 gasCost }

def execute (e : Executive) (t : Transaction) : Process State (Bool × Executive) := do
  match t.sender with
  | none => stop .exit
  | some sender =>
    uncaught (State.subBalance H sender e.gasCost)
    let gas := t.gas - BitVec.ofNat 256 e.baseGasRequired
    if t.isCreation then createOpcode H S e sender t.value t.gasPrice gas t.data sender
    else
      let p : CallParameters :=
        { senderAddress := sender, codeAddress := t.receiveAddress, receiveAddress := t.receiveAddress
          valueTransfer := t.value, apparentValue := t.value, gas, data := t.data, staticCall := false }
      call H S e p t.gasPrice sender

def finalize (e : Executive) (t : Transaction) : Process State Executive := do
  let ext := e.ext.map fun ext =>
    { ext with
      sub := { ext.sub with
        refunds := ext.sub.refunds + BitVec.ofNat 256
          ((S.vvmSchedule e.envInfo.number).suicideRefundGas.toNat * ext.sub.suicides.length) } }
  let refunded : U256 :=
    match ext with
    | some ext => if (t.gas - e.gas) / 2 ≤ ext.sub.refunds then (t.gas - e.gas) / 2 else ext.sub.refunds
    | none => 0
  let e := { e with ext, gas := e.gas + refunded }
  match t.sender with
  | none => stop .exit
  | some sender =>
    uncaught (State.addBalance H sender (e.gas * t.gasPrice))
    uncaught (State.addBalance H e.envInfo.author ((t.gas - e.gas) * t.gasPrice))
    match ext with
    | some ext => ext.sub.suicides.forM fun a => State.kill H a
    | none => pure ()
    return e

/-- `executeTransaction` of `State.cpp`. -/
def executeTransaction (envInfo : EnvInfo) (t : Transaction) : Process State Executive := do
  let e ← initialize_ H S { envInfo, depth := 0 } t
  let (done, e) ← execute H S e t
  let e ← if done then pure e else go H S run e
  finalize H S e t

end Executive

/-- `State::execute` with `Permanence::Reverted`: the output. The cache is emptied; the log of
changes is not. -/
def State.executeReverted (H : Hasher) (S : SealEngineFace) (run : VMRun) (envInfo : EnvInfo)
    (t : Transaction) : Process State Bytes := do
  let e ← Executive.executeTransaction H S run envInfo t
  modify fun s => { s with cache := fun _ => none }
  return e.resultOutput

end Vapory
