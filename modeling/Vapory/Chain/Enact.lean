import Vapory.Block.Block
import Vapory.Chain.Tree
import Vapory.Devcore.TrieHash

/-! `Block::enact` and `applyRewards` of `Block.cpp`, and `allKinFrom` of `BlockChain.cpp`: a block
is played back on the state of its parent and checked. -/
namespace Vapory

/-- `rlp(_)` of an index. -/
def rlpIndex (i : ℕ) : Bytes := ((RLPStream.appendInt {} i).bind RLPStream.out).toOption.getD []

def orderedTrieRoot (H : Hasher) (data : List Bytes) : H256 :=
  let m : BytesMap := data.zipIdx.foldl (fun m i => m.insert (rlpIndex i.2) i.1) ∅
  BitVec.ofNat 256 (BigEndian.value ((TrieHash.hash256 H m).toOption.getD []))

def TransactionReceipt.rlp (r : TransactionReceipt) : Bytes :=
  ((r.streamRLP {}).bind RLPStream.out).toOption.getD []

def TransactionBase.toTransaction (H : Hasher) (C : Crypto) (t : TransactionBase) : Transaction where
  isCreation := t.type = .ContractCreation
  nonce := t.nonce
  value := t.value
  receiveAddress := t.receiveAddress
  gasPrice := t.gasPrice
  gas := t.gas
  data := t.data
  sender := (t.sender H C).toOption.map Prod.fst
  vrs := t.vrs.map fun vrs => ⟨vrs.r, vrs.s⟩
  chainId := t.chainId

namespace BlockChain

/-- The loop of `allKinFrom`: for so many generations the parent and the uncles that are cited. -/
def kinFrom (H : Hasher) (c : BlockChain) : ℕ → H256 → List H256
  | 0, _ => []
  | n + 1, p =>
    if p = c.genesisHash then []
    else c.parentOf p :: ((c.block p).map fun b => b.uncles.map fun u => u.hash H).getD [] ++
    kinFrom H c n (c.parentOf p)

def allKinFrom (H : Hasher) (c : BlockChain) (parent : H256) (generations : ℕ) : List H256 :=
  parent :: kinFrom H c generations parent

/-- `isKnown`, without what it brings into the cache. -/
def isKnownCurrent (c : BlockChain) (hash : H256) : Bool := ((isKnown hash true).run c).1

end BlockChain

inductive BlockError where
  | InvalidParentHash
  | InvalidReceiptsStateRoot
  | InvalidLogBloom
  | TooManyUncles
  | UncleInChain
  | UnknownParent
  | InvalidBlockFormat
  | UncleTooOld
  | UncleIsBrother
  | UncleParentNotInChain
  | header (e : HeaderError)
  | InvalidStateRoot
  | InvalidGasUsed
deriving DecidableEq

namespace Block
variable (H : Hasher) (bc : BlockChain)

/-- The checks of one uncle in `enact`. -/
def checkUncle (current : BlockHeader) (excluded : List H256) (uncle : BlockHeader) :
    Except BlockError Unit := do
  if uncle.hash H ∈ excluded then throw .UncleInChain
  if !bc.isKnownCurrent uncle.parentHash then throw .UnknownParent
  match bc.block uncle.parentHash with
  | none => throw .InvalidBlockFormat
  | some uncleParent =>
    let depth : ℤ := current.number.toNat - uncle.number.toNat
    if depth > 6 then throw .UncleTooOld
    if depth < 1 then throw .UncleIsBrother
    let expectedUncleParent := bc.parentOf^[(depth - 1).toNat] (bc.parentOf current.parentHash)
    if expectedUncleParent ≠ uncleParent.info.hash H then throw .UncleParentNotInChain
    (uncle.verify H .CheckNothingNew uncleParent.info none).mapError .header

/-- The loop over the uncles in `enact`. -/
def checkUncles (current : BlockHeader) : List H256 → List BlockHeader → Except BlockError Unit
  | _, [] => return
  | excluded, uncle :: uncles => do
    checkUncle H bc current excluded uncle
    checkUncles current (uncle.hash H :: excluded) uncles

/-- The uncles that `enact` rewards. -/
def checkedUncles (current : BlockHeader) (uncles : List BlockHeader) :
    Except BlockError (List BlockHeader) := do
  if uncles.length > 2 then throw .TooManyUncles
  checkUncles H bc current (current.hash H :: bc.allKinFrom H current.parentHash 6) uncles
  return uncles

def uncleReward (blockReward number uncleNumber : U256) : U256 :=
  blockReward * (8 + uncleNumber - number) / 8

def applyRewards (uncleBlockHeaders : List BlockHeader) (blockReward : U256) : Process Block Unit :=
  do
  let current := (← get).currentBlock
  uncleBlockHeaders.forM fun i =>
    onState (uncaught (State.addBalance H i.author (uncleReward blockReward current.number i.number)))
  let r := uncleBlockHeaders.foldl (fun r _ => r + blockReward / 32) blockReward
  onState (uncaught (State.addBalance H current.author r))

end Block

namespace Node
variable (node : Node)

def blockReward (number : U256) : U256 :=
  node.params.blockReward (node.params.scheduleForBlockNumber number)

/-- The last part of `enact` and of `commitToSeal`: the rewards are paid, and the state goes into
the trie. -/
def reward (uncles : List BlockHeader) : Process Block Unit := do
  let number := (← get).currentBlock.number
  Block.applyRewards node.H uncles (node.blockReward number)
  Block.onState (node.commit (node.commitBehaviour number))

end Node

namespace Block
variable (node : Node) (C : Crypto) (lastHashes : H256 → List H256) (bc : BlockChain)

def playback (transactions : List TransactionBase) : Process Block (List Bytes) :=
  transactions.mapM fun tr => do
    let _ ← execute node lastHashes (tr.toTransaction node.H C) .Committed
    return ((← get).receipts.getLast?.map TransactionReceipt.rlp).getD []

/-- The checks of `enact` after the transactions, with the uncles to reward. -/
def checkPlayback (b : Block) (receipts : List Bytes) (uncles : List BlockHeader) :
    Except BlockError (List BlockHeader) := do
  if orderedTrieRoot node.H receipts ≠ b.currentBlock.receiptsRoot then throw .InvalidReceiptsStateRoot
  if b.currentBlock.logBloom ≠ b.logBloom then throw .InvalidLogBloom
  checkedUncles node.H bc b.currentBlock uncles

/-- The checks of `enact` after the rewards. -/
def checkRewarded (b : Block) : Except BlockError Unit := do
  if b.currentBlock.stateRoot ≠ b.previousBlock.stateRoot ∧
    b.currentBlock.stateRoot ≠ b.state.rootHash node.roots then
    throw .InvalidStateRoot
  if b.currentBlock.gasUsed ≠ b.gasUsed then throw .InvalidGasUsed

/-- `enact` after the transactions. -/
def enactPlayback (block : VerifiedBlock) (receipts : List Bytes) :
    Process Block (Except BlockError U256) := do
  match checkPlayback node bc (← get) receipts block.uncles with
  | .error e => return .error e
  | .ok rewarded =>
    node.reward rewarded
    match checkRewarded node (← get) with
    | .error e => return .error e
    | .ok () => return .ok block.info.difficulty

def enact (block : VerifiedBlock) : Process Block (Except BlockError U256) := do
  let b ← get
  if b.currentBlock.parentHash ≠ b.previousBlock.hash node.H then return .error .InvalidParentHash
  else
    set { b with currentBlock := block.info }
    let receipts ← playback node C lastHashes block.transactions
    enactPlayback node bc block receipts

end Block
end Vapory
