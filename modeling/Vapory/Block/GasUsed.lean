import Vapory.Block.Block
import Vapory.Executive.Gas

/-! The gas that a transaction is charged for, and the gas of all transactions of a block. -/
namespace Vapory
open Vvm State

namespace Block
variable {node : Node} {b₀ b : Block}

/-- What may happen to a block before it is sealed: transactions are executed, and one that is
refused may leave another state. `used` is the gas used by those that the block took over. -/
inductive Executes (node : Node) (b₀ : Block) : List U256 → Block → Prop where
  | start : Executes node b₀ [] b₀
  | accept {used : List U256} {b b' : Block} {e : Executive} (lastHashes : H256 → List H256) (t : Transaction)
      (p : Permanence) (h : Executes node b₀ used b)
      (hrun : (execute node lastHashes t p).run b = .ok (e, b')) :
      Executes node b₀ (if p = .Committed then used ++ [e.gasUsed t] else used) b'
  | refuse {used : List U256} {b : Block} (s : State) (h : Executes node b₀ used b) :
      Executes node b₀ used { b.uncommitToSeal with state := s }

theorem uncommitToSeal_currentBlock (b : Block) : b.uncommitToSeal.currentBlock = b.currentBlock := by
  unfold Block.uncommitToSeal
  split_ifs <;> rfl

theorem uncommitToSeal_transactions (b : Block) : b.uncommitToSeal.transactions = b.transactions := by
  unfold Block.uncommitToSeal
  split_ifs <;> rfl

theorem uncommitToSeal_receipts (b : Block) : b.uncommitToSeal.receipts = b.receipts := by
  unfold Block.uncommitToSeal
  split_ifs <;> rfl

theorem uncommitToSeal_gasUsed (b : Block) : b.uncommitToSeal.gasUsed = b.gasUsed := by
  rw [Block.gasUsed, uncommitToSeal_receipts, Block.gasUsed]

structure Took (t : Transaction) (p : Permanence) (receipt : TransactionReceipt) (b b' : Block) :
    Prop where
  currentBlock : b'.currentBlock = b.currentBlock
  transactions : b'.transactions = if p = .Committed then b.transactions ++ [t] else b.transactions
  receipts : b'.receipts = if p = .Committed then b.receipts ++ [receipt] else b.receipts

theorem execute_took {lastHashes : H256 → List H256} {t : Transaction} {p : Permanence}
    {Q : Executive → TransactionReceipt → Prop}
    (h : Ends (State.execute node (.ofHeader b.currentBlock lastHashes b.gasUsed) t p)
    b.uncommitToSeal.state fun r _ => Q r.1 r.2) : Ends (execute node lastHashes t p) b fun e b' =>
    ∃ receipt, Q e receipt ∧ Took t p receipt b b' := by
  unfold execute
  rw [ends_bind, ends_get]
  cases b.isSealed with
  | true => exact (ends_stop _).mpr trivial
  | false =>
    simp only [Bool.false_eq_true, if_false, ends_bind, ends_set, onState, ends_zoom, ends_modify,
      uncommitToSeal_currentBlock, uncommitToSeal_gasUsed]
    refine h.mono ?_
    rintro ⟨e, receipt⟩ s hQ
    refine (ends_pure _).mpr ⟨receipt, hQ, ?_⟩
    have htxs := uncommitToSeal_transactions b
    have hreceipts := uncommitToSeal_receipts b
    cases p with
    | Committed => exact ⟨rfl, congrArg (· ++ [t]) htxs, congrArg (· ++ [receipt]) hreceipts⟩
    | _ => exact ⟨rfl, htxs, hreceipts⟩

end Block

/-- A node that runs `Vapash`; its roots tell nothing apart. -/
def exampleNode : Node where
  H := lengthHasher
  engine := .Vapash
  params := exampleParams
  steps := 9
  roots := ⟨fun _ => 0, fun root _ => root, fun _ => rfl⟩
  walk := fun _ => [1, 2, 9]

def exampleHeader : BlockHeader where
  parentHash := 0
  sha3Uncles := 0
  author := 9
  stateRoot := 0
  transactionsRoot := 0
  receiptsRoot := 0
  logBloom := 0
  difficulty := 0
  number := 1
  gasLimit := 100000
  gasUsed := 0
  timestamp := 0
  extraData := []
  sealFields := []
  memo := 0

def exampleBlock (code : Bytes) : Block where
  state := exampleWorld code
  transactions := []
  receipts := []
  precommit := exampleWorld code
  previousBlock := { exampleHeader with number := 0 }
  currentBlock := exampleHeader
  currentBytes := []
  committedToSeal := false
  currentTxs := []
  currentUncles := []
  author := 9

end Vapory
