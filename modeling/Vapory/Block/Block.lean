import Vapory.Block.BlockHeader
import Vapory.Executive.ExtVM
import Vapory.Executive.SealEngine
import Vapory.State.Commit

/-! `State::execute` and `Block::execute`: the transactions of a block, one after another. -/
namespace Vapory
open Vvm

inductive Permanence where
  | Reverted
  | Committed
  | Uncommitted
deriving DecidableEq, Repr

namespace Executive

def gasUsed (e : Executive) (t : Transaction) : U256 := t.gas - e.gas

/-- `logs`, after `finalize`. -/
def logs (e : Executive) : List LogEntry := (e.ext.map fun ext => ext.sub.logs).getD []

end Executive

/-- What a block needs from outside: the hash function, the engine and its parameters, how far
the virtual machine is run, the roots of tries and the order in which the cache is walked. -/
structure Node where
  H : Hasher
  engine : SealEngine
  params : ChainOperationParams
  steps : ℕ
  roots : TrieRoots
  walk : State → List Address

namespace Node
variable (node : Node)

def S : SealEngineFace := node.engine.face node.params

def run : VMRun := runVM node.H node.S node.steps

/-- `State::commit`. -/
def commit (behaviour : CommitBehaviour) : StateM State Unit := do
  State.commit node.H node.roots (node.walk (← get)) behaviour

/-- Empty accounts go away from the fork on. -/
def commitBehaviour (number : U256) : CommitBehaviour :=
  if number ≥ node.params.eip158ForkBlock then .RemoveEmptyAccounts else .KeepEmptyAccounts

def settle (number : U256) : Permanence → StateM State Unit
  | .Reverted => modify fun s => { s with cache := fun _ => none }
  | .Committed => node.commit (node.commitBehaviour number)
  | .Uncommitted => pure ()

end Node

/-- `State::execute`: the executive after the transaction, and the receipt. -/
def State.execute (node : Node) (envInfo : EnvInfo) (t : Transaction) (p : Permanence) :
    Process State (Executive × TransactionReceipt) := do
  let startGasUsed := envInfo.gasUsed
  let e ← Executive.executeTransaction node.H node.S node.run envInfo t
  node.settle envInfo.number p
  let s ← get
  let statusCodeOrStateRoot : UInt8 ⊕ H256 :=
    if envInfo.number ≥ node.params.byzantiumForkBlock then .inl (if e.excepted = .None then 1 else 0)
    else .inr (s.rootHash node.roots)
  return (e, .new node.H statusCodeOrStateRoot (startGasUsed + e.gasUsed t) e.logs)

structure Block where
  state : State
  transactions : List Transaction
  receipts : List TransactionReceipt
  precommit : State
  previousBlock : BlockHeader
  currentBlock : BlockHeader
  currentBytes : Bytes
  committedToSeal : Bool
  currentTxs : Bytes
  currentUncles : Bytes
  author : Address

namespace Block

def onState {α : Type} : Process State α → Process Block α :=
  zoom Block.state fun b s => { b with state := s }

def isSealed (b : Block) : Bool := b.currentBytes ≠ []

def gasUsed (b : Block) : U256 := (b.receipts.getLast?.map fun r => r.gasUsed).getD 0

def logBloom (b : Block) : LogBloom := b.receipts.foldl (fun ret r => ret ||| r.bloom) 0

def uncommitToSeal (b : Block) : Block :=
  if b.committedToSeal then { b with state := b.precommit, committedToSeal := false } else b

def execute (node : Node) (lastHashes : H256 → List H256) (t : Transaction) (p : Permanence) :
    Process Block Executive := do
  let b ← get
  if b.isSealed then stop .exit
  else
    let b := b.uncommitToSeal
    set b
    let (e, receipt) ← onState (State.execute node (.ofHeader b.currentBlock lastHashes b.gasUsed) t p)
    modify fun b =>
      if p = .Committed then
        { b with transactions := b.transactions ++ [t], receipts := b.receipts ++ [receipt] }
      else b
    return e

end Block
end Vapory
