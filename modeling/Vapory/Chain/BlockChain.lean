import Vapory.Block.BlockHeader
import Vapory.Transaction.TransactionBase

/-! `BlockChain.h`, `BlockDetails.h` and `BlockChain.cpp`: the blocks that were imported, the head
of the canonical chain, and the indices of its blocks by number, of their blooms and of their
transactions. -/
namespace Vapory
open Function

structure BlockDetails where
  number : ℕ
  totalDifficulty : U256
  parent : H256
  children : List H256
deriving DecidableEq

namespace BlockDetails

/-- `NullBlockDetails`, with `c_invalidNumber` and `Invalid256`. -/
def null : BlockDetails := ⟨2 ^ 32 - 1, BitVec.allOnes 256, 0, []⟩

def isNull (d : BlockDetails) : Bool := d.number = 2 ^ 32 - 1

end BlockDetails

/-- `VerifiedBlockRef`: a block that was read, with its transactions and its uncles. -/
structure VerifiedBlock where
  info : BlockHeader
  transactions : List TransactionBase
  /-- The data of the transactions in `block`. -/
  transactionData : List Bytes
  uncles : List BlockHeader
deriving DecidableEq

/-- `BlocksBlooms`, with `c_bloomIndexSize` entries. -/
abbrev BlocksBlooms := ℕ → LogBloom

structure TransactionAddress where
  blockHash : H256
  index : ℕ
deriving DecidableEq

/-- `NullTransactionAddress`. -/
def TransactionAddress.null : TransactionAddress := ⟨0, 0⟩

/-- `ImportRoute`: the blocks that left the canonical chain, and those that came into it. -/
structure ImportRoute where
  deadBlocks : List H256
  liveBlocks : List H256
  goodTranactions : List TransactionBase
deriving DecidableEq

inductive ImportError where
  | AlreadyHaveBlock
  | UnknownParent
  | FutureTime
  | InvalidParentHash
  | header (e : HeaderError)
  | TransientError
  | invalid
deriving DecidableEq

/-- What `verifyBlock` or `enactOn` throws. -/
inductive EnactError where
  /-- The parent of an uncle is not known. -/
  | UnknownParent
  /-- `BadRoot`: the state of the parent cannot be opened. -/
  | BadRoot
  /-- Anything else. -/
  | invalid
deriving DecidableEq

/-- The exception as `import` throws it on. -/
def EnactError.toImportError : EnactError → ImportError
  | UnknownParent => .UnknownParent
  | BadRoot => .TransientError
  | invalid => .invalid

/-- `BlockChain`. Most of what the databases have is behind a cache. -/
structure BlockChain where
  genesisBlock : VerifiedBlock
  genesisHash : H256
  allowFutureBlocks : Bool
  tieBreakingGas : Bool
  /-- `m_blocksDB`, and `m_blocks` with it. -/
  blocks : H256 → Option VerifiedBlock
  /-- `m_details`. -/
  details : H256 → Option BlockDetails
  /-- `ExtraDetails` of `m_extrasDB`. -/
  detailsDB : H256 → Option BlockDetails
  /-- `m_blockHashes`. -/
  blockHashes : ℕ → Option H256
  /-- `ExtraBlockHash` of `m_extrasDB`. -/
  blockHashesDB : ℕ → Option H256
  /-- `m_blocksBlooms`, by level and index. -/
  blocksBlooms : ℕ × ℕ → Option BlocksBlooms
  /-- `ExtraBlocksBlooms` of `m_extrasDB`. -/
  blocksBloomsDB : ℕ × ℕ → Option BlocksBlooms
  /-- `m_transactionAddresses`. -/
  transactionAddresses : H256 → Option TransactionAddress
  /-- `ExtraTransactionAddress` of `m_extrasDB`. -/
  transactionAddressesDB : H256 → Option TransactionAddress
  /-- `ExtraReceipts` of `m_extrasDB`, and `m_receipts` with it. -/
  receipts : H256 → Option (List TransactionReceipt)
  lastBlockHash : H256
  lastBlockNumber : ℕ

namespace BlockChain
variable (H : Hasher)

/-- `queryExtras`: what is in the database goes into the cache `m` when it is asked for. -/
def queryExtras {K T : Type} [DecidableEq K] (m : BlockChain → K → Option T)
    (put : BlockChain → (K → Option T) → BlockChain) (extrasDB : BlockChain → K → Option T) (n : T)
    (h : K) : StateM BlockChain T := do
  let c ← get
  match m c h with
  | some v => return v
  | none =>
    match extrasDB c h with
    | none => return n
    | some v =>
      set (put c (update (m c) h (some v)))
      return v

/-- `details`. -/
def queryDetails (hash : H256) : StateM BlockChain BlockDetails :=
  queryExtras BlockChain.details (fun c m => { c with details := m }) detailsDB .null hash

def numberHash (i : ℕ) : StateM BlockChain H256 := do
  if i = 0 then return (← get).genesisHash
  else queryExtras blockHashes (fun c m => { c with blockHashes := m }) blockHashesDB 0 i

/-- `chunkId`, with which the chunks of blooms are named in the cache and the database. -/
def chunkId (level index : ℕ) : H256 := BitVec.ofNat 256 ((index * 0xff + level) % 2 ^ 32)

/-- `blocksBlooms`. -/
def queryBlocksBlooms (level index : ℕ) : StateM BlockChain BlocksBlooms :=
  queryExtras BlockChain.blocksBlooms (fun c m => { c with blocksBlooms := m }) blocksBloomsDB
    (fun _ => 0) (level, index)

/-- The `TransactionAddress` of a hash. -/
def queryTransactionAddress (hash : H256) : StateM BlockChain TransactionAddress :=
  queryExtras BlockChain.transactionAddresses (fun c m => { c with transactionAddresses := m })
    transactionAddressesDB .null hash

def isKnownTransaction (hash : H256) : StateM BlockChain Bool := do
  let ta ← queryTransactionAddress hash
  return ta.blockHash ≠ 0

def transactionLocation (hash : H256) : StateM BlockChain (H256 × ℕ) := do
  let ta ← queryTransactionAddress hash
  return if ta.blockHash = 0 then (0, 0) else (ta.blockHash, ta.index)

def askAll (numbers : List ℕ) : StateM BlockChain Unit :=
  numbers.forM fun i => do
    let _ ← numberHash i

/-- `block`, which is null if there is none. -/
def block (c : BlockChain) (hash : H256) : Option VerifiedBlock :=
  if hash = c.genesisHash then some c.genesisBlock else c.blocks hash

def isKnown (hash : H256) (isCurrent : Bool) : StateM BlockChain Bool := do
  let c ← get
  if hash = c.genesisHash then return true
  else if (c.blocks hash).isNone then return false
  else if (c.details hash).isNone ∧ (c.detailsDB hash).isNone then return false
  else if !isCurrent then return true
  else return decide ((← queryDetails hash).number ≤ c.lastBlockNumber)

def alreadyHave (mustBeNew : Bool) (hash : H256) : StateM BlockChain Bool :=
  if mustBeNew then isKnown hash true else return false

section
variable (pre post common : Bool)

/-- The first loops of `treeRoute`: so many generations back, and the blocks passed on the way. -/
def climb (keep : Bool) : ℕ → H256 → List H256 → StateM BlockChain (H256 × List H256)
  | 0, hash, passed => return (hash, passed)
  | n + 1, hash, passed => do
    let parent := (← queryDetails hash).parent
    climb keep n parent (if keep then passed ++ [hash] else passed)

/-- The last loop of `treeRoute`, for so many turns at most. -/
def meet : ℕ → H256 → H256 → List H256 → List H256 → Process BlockChain (List H256 × List H256 × H256)
  | 0, _, _, _, _ => stop .steps
  | n + 1, from_, to_, ret, back => do
    let ret := if pre ∧ (from_ ≠ to_ ∨ common) then ret ++ [from_] else ret
    let back := if post ∧ (from_ ≠ to_ ∨ !pre ∧ common) then back ++ [to_] else back
    if from_ = to_ then return (ret, back, from_)
    else
      let fromParent := (← queryDetails from_).parent
      let toParent := (← queryDetails to_).parent
      meet n fromParent toParent ret back

/-- `treeRoute`. Numbers are below 2^32 and go down by one with each turn of the last loop. -/
def treeRoute (from_ to_ : H256) : Process BlockChain (List H256 × H256 × ℕ) := do
  if from_ = 0 ∨ to_ = 0 then return ([], 0, 0)
  else
    let fromDetails ← queryDetails from_
    let toDetails ← queryDetails to_
    if fromDetails.isNull ∨ toDetails.isNull then return ([], 0, 0)
    else
      let (from_, ret) ← climb pre (fromDetails.number - toDetails.number) from_ []
      let (to_, back) ← climb post (toDetails.number - fromDetails.number) to_ []
      let (ret, back, from_) ← meet pre post common (2 ^ 32) from_ to_ ret back
      return (ret ++ back.reverse, from_, ret.length - if common ∧ ret ≠ [] ∧ back ≠ [] then 1 else 0)

end

def bloomsOf (c : BlockChain) (level index : ℕ) : BlocksBlooms :=
  ((c.blocksBlooms (level, index)).or (c.blocksBloomsDB (level, index))).getD fun _ => 0

def bloomAt (c : BlockChain) (level item : ℕ) : LogBloom := c.bloomsOf level (item / 16) (item % 16)

/-- The items that `for (unsigned item = begin; item != end; ++item)` comes to. -/
def Passes (begin_ end_ item : ℕ) : Prop :=
  item < 2 ^ 32 ∧ (item + 2 ^ 32 - begin_) % 2 ^ 32 < (end_ + 2 ^ 32 - begin_) % 2 ^ 32

instance (begin_ end_ item : ℕ) : Decidable (Passes begin_ end_ item) :=
  inferInstanceAs (Decidable (_ ∧ _))

/-- One level of `clearBlockBlooms`: the entries from `begin_` to `end_` are set. -/
def setBlooms (level begin_ end_ : ℕ) (acc : ℕ → LogBloom) (c : BlockChain) : BlockChain :=
  { c with
    blocksBlooms := fun chunk =>
      if chunk.1 = level ∧ ∃ offset < 16, Passes begin_ end_ (chunk.2 * 16 + offset) then
        some fun offset =>
          let item := chunk.2 * 16 + offset
          if Passes begin_ end_ item then acc item else c.bloomsOf level chunk.2 offset
      else c.blocksBlooms chunk }

/-- `clearBlockBlooms`. A chunk that is only read comes into the cache in the source, as it is in
the database. -/
def clearBlockBlooms (begin_ end_ : ℕ) (c : BlockChain) : BlockChain :=
  let c := c.setBlooms 0 begin_ end_ fun _ => 0
  c.setBlooms 1 (begin_ / 16) ((end_ + 2 ^ 32 - 1) % 2 ^ 32 / 16 + 1) fun item =>
    (List.range 16).foldl (fun acc offset => acc ||| c.bloomsOf 0 item offset) 0

def clearCachesDuringChainReversion (firstInvalid : ℕ) : StateM BlockChain Unit :=
  modify fun c =>
    let end_ := (c.lastBlockNumber + 1) % 2 ^ 32
    { c.clearBlockBlooms firstInvalid end_ with
      blockHashes := fun i => if firstInvalid ≤ i ∧ i < end_ then none else c.blockHashes i
      transactionAddresses := fun _ => none }

def isBest (c : BlockChain) (last : BlockDetails) (b : VerifiedBlock) (totalDifficulty : U256) :
    Bool :=
  totalDifficulty > last.totalDifficulty ∨
    c.tieBreakingGas ∧ totalDifficulty = last.totalDifficulty ∧
      ((c.block c.lastBlockHash).any fun head => b.info.gasUsed > head.info.gasUsed)

/-- The blocks of the route, from its end back to the common ancestor, as far as they can be
read. -/
def routeBlocks (c : BlockChain) (b : VerifiedBlock) (route : List H256) (common : H256) :
    List (Option VerifiedBlock) :=
  (route.reverse.takeWhile (· ≠ common)).map fun hash =>
    if hash = b.info.hash H then some b else c.block hash

def blockBloom (tbi : BlockHeader) : LogBloom :=
  tbi.logBloom ||| bloomPart (H.hash (addressBytes tbi.author))

def bloomItem (tbi : BlockHeader) (level : ℕ) : ℕ := tbi.number.toNat % 2 ^ 32 / 16 ^ level

/-- The bloom of a block of the route is added to its entries on both levels, in the cache. -/
def addBloom (c : BlockChain) (tbi : BlockHeader) : BlockChain :=
  { c with
    blocksBlooms := fun chunk =>
      let item := bloomItem tbi chunk.1
      if chunk.1 < 2 ∧ chunk.2 = item / 16 then
        let blooms := c.bloomsOf chunk.1 chunk.2
        some (update blooms (item % 16) (blooms (item % 16) ||| blockBloom H tbi))
      else c.blocksBlooms chunk }

def addresses (tbi : VerifiedBlock) : List (H256 × TransactionAddress) :=
  tbi.transactionData.mapIdx fun index data => (H.hash data, ⟨tbi.info.hash H, index⟩)

def clearCachesAfter (common last : H256) : StateM BlockChain Unit := do
  if common = last then return
  else
    let number := (← queryDetails common).number
    clearCachesDuringChainReversion ((number + 1) % 2 ^ 32)

/-- The route to a new head, the common ancestor of the old one, and the blocks that become
canonical. None of them are returned if one cannot be read. -/
def chooseHead (b : VerifiedBlock) (last : H256) :
    Process BlockChain (List H256 × H256 × Option (List VerifiedBlock)) := do
  let (route, common, _) ← treeRoute true true true last b.info.parentHash
  let route := route ++ [b.info.hash H]
  clearCachesAfter common last
  let blocks := (← get).routeBlocks H b route common
  modify fun c => ((blocks.takeWhile Option.isSome).filterMap id).foldl
    (fun c tbi => c.addBloom H tbi.info) c
  return (route, common, blocks.mapM id)

/-- The end of `insertBlockAndExtras`: what is written to the databases, and the new head. -/
def write (b : VerifiedBlock) (totalDifficulty : U256) (receipts : List TransactionReceipt)
    (parentDetails : BlockDetails) (best : Bool) (blocks : List VerifiedBlock) (c : BlockChain) :
    BlockChain :=
  let hash := b.info.hash H
  let number := b.info.number.toNat % 2 ^ 32
  { c with
    blocks := update c.blocks hash (some b)
    detailsDB := update (update c.detailsDB b.info.parentHash (some parentDetails)) hash
      (some ⟨number, totalDifficulty, b.info.parentHash, []⟩)
    receipts := update c.receipts hash (some receipts)
    blockHashesDB := (blocks.map fun tbi => (tbi.info.number.toNat, tbi.info.hash H)).foldl
      (fun db entry => update db entry.1 (some entry.2)) c.blockHashesDB
    blocksBloomsDB := fun chunk =>
      if chunk.1 < 2 ∧ blocks.any fun tbi =>
        chunk.2 = bloomItem tbi.info chunk.1 / 16 then c.blocksBlooms chunk
      else c.blocksBloomsDB chunk
    transactionAddressesDB := (blocks.flatMap (addresses H)).foldl
      (fun db entry => update db entry.1 (some entry.2)) c.transactionAddressesDB
    lastBlockHash := if best then hash else c.lastBlockHash
    lastBlockNumber := if best ∧ c.lastBlockHash ≠ hash then number else c.lastBlockNumber }

/-- `insertBlockAndExtras`. Other threads may ask for the hashes of the numbers `meanwhile`, after
the caches are cleared and before the databases are written. -/
def insertBlockAndExtras (b : VerifiedBlock) (totalDifficulty : U256)
    (receipts : List TransactionReceipt) (meanwhile : List ℕ) :
    Process BlockChain (Except ImportError ImportRoute) := do
  let _ ← queryDetails b.info.parentHash
  modify fun c =>
    let parent := (c.details b.info.parentHash).getD .null
    { c with
      details := update c.details b.info.parentHash
        (some { parent with children := parent.children ++ [b.info.hash H] }) }
  let parentDetails := ((← get).details b.info.parentHash).getD .null
  let last := (← get).lastBlockHash
  let lastDetails ← queryDetails last
  let best := (← get).isBest lastDetails b totalDifficulty
  let (route, common, blocks) ← if best then chooseHead H b last else pure ([], 0, some [])
  askAll meanwhile
  match blocks with
  | none => return .error .invalid
  | some blocks =>
    modify (write H b totalDifficulty receipts parentDetails best blocks)
    return .ok ⟨route.takeWhile (· ≠ common), (route.dropWhile (· ≠ common)).filter (· ≠ common),
      b.transactions⟩

/-- `import`; `enact` is what else `verifyBlock` checks, and `enactOn` with the receipts. -/
def import_ (enact : VerifiedBlock → Except EnactError (List TransactionReceipt)) (utcTime : U256)
    (mustBeNew : Bool) (meanwhile : List ℕ) (b : VerifiedBlock) :
    Process BlockChain (Except ImportError ImportRoute) := do
  if ← alreadyHave mustBeNew (b.info.hash H) then return .error .AlreadyHaveBlock
  else if !(← isKnown b.info.parentHash false) then return .error .UnknownParent
  else
    let pd ← queryDetails b.info.parentHash
    if pd.isNull then stop .exit
    else if b.info.timestamp > utcTime ∧ !(← get).allowFutureBlocks then return .error .FutureTime
    else
      match (← get).block b.info.parentHash with
      | none => return .error .InvalidParentHash
      | some parent =>
        match b.info.verify H .QuickNonce { parent.info with memo := b.info.parentHash } none with
        | .error e => return .error (.header e)
        | .ok () =>
          match enact b with
          | .error e => return .error e.toImportError
          | .ok receipts =>
            insertBlockAndExtras H b (pd.totalDifficulty + b.info.difficulty) receipts meanwhile

def upow (a b : ℕ) : ℕ := if b = 0 then 1 else (fun a => a * a % 2 ^ 32)^[b - 1] a

def ceilDiv (n d : ℕ) : ℕ := (n + d - 1) % 2 ^ 32 / d

/-- `withBlockBloom` on a level. -/
def withBlockBloomOn (b : LogBloom) (earliest latest : ℕ) : ℕ → ℕ → StateM BlockChain (List ℕ)
  | level, index => do
    let uCourse := upow 16 (level + 1)
    let uFine := upow 16 level
    let obegin := if index = earliest / uCourse then earliest / uFine % 16 else 0
    let oend := if index = latest / uCourse then latest / uFine % 16 + 1 else 16
    let bb ← queryBlocksBlooms level index
    let found := (List.range' obegin (oend - obegin)).filter fun o => bloomContains (bb o) b
    match level with
    | 0 => return found.map fun o => o + index * 16
    | level + 1 =>
      return (← found.mapM fun o => withBlockBloomOn b earliest latest level (o + index * 16)).flatten

def withBlockBloom (b : LogBloom) (earliest latest : ℕ) : StateM BlockChain (List ℕ) := do
  let u := upow 16 2
  let indices := List.range' (earliest / u) (ceilDiv latest u + 1 - earliest / u)
  return (← indices.mapM fun index => withBlockBloomOn b earliest latest 1 index).flatten

/-- `rewind`. Other threads may ask for the hashes of the numbers `meanwhile`. -/
def rewind (newHead : ℕ) (meanwhile : List ℕ) : StateM BlockChain Unit := do
  if newHead ≥ (← get).lastBlockNumber then return
  else
    clearCachesDuringChainReversion ((newHead + 1) % 2 ^ 32)
    askAll meanwhile
    let hash ← numberHash newHead
    modify fun c => { c with lastBlockHash := hash, lastBlockNumber := newHead }

end BlockChain
end Vapory
