import Vapory.Executive.Executive

/-! `ExtVM.h` and `ExtVM.cpp`: how the calls of the virtual machine act on the state, and
the run of the machine that they make whole. -/
namespace Vapory
open Vvm

/-- What a call of the virtual machine acts on: the state and the substate of its context. -/
structure Frame where
  state : State
  sub : SubState

def onState {α : Type} (m : Process State α) : Process Frame α := fun f => do
  let (a, s) ← m f.state
  return (a, { f with state := s })

def blockhashContractAddress : Address := 0xf0

/-- `h256(bytes)`, zero if the length is another. -/
def h256OfBytes (b : Bytes) : H256 :=
  if b.length = 32 then BitVec.ofNat 256 (BigEndian.value b) else 0

namespace ExtVM
variable (H : Hasher) (S : SealEngineFace) (run : VMRun) (E : ExtVM)

/-- What follows `Executive::call` and `Executive::createOpcode`: run the code if there is
any, and take over its substate. -/
def finish (done : Bool) (e : Executive) : Process Frame Executive := do
  if done then return e
  else
    let e ← onState (e.go H S run)
    match e.ext with
    | some ext => modify fun f => { f with sub := f.sub.accrue ext.sub }
    | none => pure ()
    return e

/-- `call`: success, output and the gas left. -/
def call (p : CallParameters) : Process Frame (Bool × Bytes × U256) := do
  let (done, e) ← onState (Executive.call H S { envInfo := E.envInfo, depth := E.depth + 1 } p
    E.gasPrice E.origin)
  let e ← finish H S run done e
  return (e.excepted = .None, e.output, e.gas)

/-- The executive of `create` after its run. -/
def createExecutive (endowment gas : U256) (init : Bytes) (op : Instruction) (salt : U256) :
    Process Frame Executive := do
  let e : Executive := { envInfo := E.envInfo, depth := E.depth + 1 }
  let (done, e) ← onState (
    if op = .CREATE then e.createOpcode H S E.myAddress endowment E.gasPrice gas init E.origin
    else e.create2Opcode H S E.myAddress endowment E.gasPrice gas init E.origin salt)
  finish H S run done e

/-- `create`: the new address, output and the gas left. -/
def create (endowment gas : U256) (init : Bytes) (op : Instruction) (salt : U256) :
    Process Frame (Address × Bytes × U256) := do
  let e ← createExecutive H S run E endowment gas init op salt
  return (e.newAddress, e.output, e.gas)

def suicide (a : Address) : Process Frame Unit := do
  onState do
    uncaught (State.addBalance H a (← State.balance H E.myAddress))
    uncaught (State.subBalance H E.myAddress (← State.balance H E.myAddress))
  modify fun f => { f with sub := f.sub.insertSuicide E.myAddress }

/-- The transaction that `blockHash` makes; `forceSender(0)` would not set a sender. -/
def blockHashTransaction (number nonce : U256) : Transaction where
  isCreation := false
  nonce := nonce
  value := 0
  receiveAddress := blockhashContractAddress
  gasPrice := 0
  gas := 1000000
  data := wordBytes number
  sender := if E.caller = 0 then none else some E.caller
  vrs := none
  chainId := -4

def blockHash (number : U256) : Process State H256 := do
  let currentNumber := E.envInfo.number
  if number ≥ currentNumber ∨
      number < (if currentNumber ≤ 256 then 256 else currentNumber) - 256 then return 0
  else if currentNumber < S.constantinopleForkBlock + 256 then
    return E.envInfo.precedingHashes.getD (currentNumber - 1 - number).toNat 0
  else
    let nonce ← State.getNonce H E.caller
    let output ← State.executeReverted H S run E.envInfo (E.blockHashTransaction number nonce)
    return h256OfBytes output

def answer : (q : ExtCall) → Process Frame q.Answer
  | .store key => onState (State.storage H E.myAddress key)
  | .setStore key value => onState (State.setStorage H E.myAddress key value)
  | .balance a => onState (State.balance H a)
  | .codeAt a => onState (State.code H a)
  | .codeSizeAt a => onState (State.codeSize H a)
  | .exists_ a =>
    onState (if (S.vvmSchedule E.envInfo.number).emptinessIsNonexistence then
        State.accountNonemptyAndExisting H a
      else State.addressInUse H a)
  | .suicide a => suicide H E a
  | .create endowment gas init op salt => create H S run E endowment gas init op salt
  | .call p => call H S run E p
  | .log topics data =>
    modify fun f => { f with sub := { f.sub with logs := f.sub.logs ++ [⟨E.myAddress, topics, data⟩] } }
  | .blockHash number => onState (blockHash H S run E number)
  | .addRefund gas => modify fun f => { f with sub := { f.sub with refunds := f.sub.refunds + gas } }

end ExtVM

/-- One run of the interpreter whose calls are answered by `answer`, for at most `n`
instructions. -/
def ExtVM.runOnce (H : Hasher) (S : SealEngineFace) (E : ExtVM)
    (answer : (q : ExtCall) → Process Frame q.Answer) (n : ℕ) (gas : U256) :
    Process State (Except VMException Bytes × U256 × SubState) := do
  let (r, f) ← liftM (((exec H (E.face S) n gas).interp answer).run ⟨← get, E.sub⟩)
  set f.state
  match r with
  | (.ok (some output), gas) => return (.ok output, gas, f.sub)
  | (.ok none, _) => stop .steps
  | (.error ex, gas) => return (.error ex, gas, f.sub)

/-- `vm->exec`, for at most so many nested runs and so many instructions in each. -/
def runVM (H : Hasher) (S : SealEngineFace) : ℕ → VMRun
  | 0, _, _ => stop .steps
  | n + 1, E, gas => E.runOnce H S (E.answer H S (runVM H S n)) n gas

end Vapory
