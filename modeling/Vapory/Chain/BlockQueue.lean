import Mathlib.Data.BitVec
import Vapory.Base.RemoveIf
import Vapory.Chain.BlockChain

/-! `BlockQueue.h` and `BlockQueue.cpp`: blocks on their way to the chain, and the threads that
verify them. -/
namespace Vapory

/-- The values of `ImportResult` that `BlockQueue::import` returns. -/
inductive ImportResult where
  | Success
  | UnknownParent
  | FutureTimeKnown
  | FutureTimeUnknown
  | AlreadyInChain
  | AlreadyKnown
  | Malformed
  | BadChain
deriving DecidableEq

/-- The values of `ImportRequirements` with which the queue calls `verifyBlock`. -/
inductive QueueChecks where
  | PostGenesis
  | OutOfOrderChecks
deriving DecidableEq

/-- `BlockHeader()`. -/
def BlockHeader.blank : BlockHeader :=
  ⟨0, 0, 0, 0, 0, 0, 0, 0, 0, 0, 0, BitVec.allOnes 256, [], [], 0⟩

/-- What the queue has of the bytes of a block: the hash of its header, and
`BlockChain::verifyBlock`, which needs no other block for these requirements. A hash is one of one
header only, and not one of a list of uncles. -/
structure BlockReader (H : Hasher) where
  headerHashFromBlock : Bytes → H256
  verifyBlock : QueueChecks → Bytes → Option BlockHeader
  verifyBlock_nil : ∀ r, verifyBlock r [] = none
  hash_eq : ∀ {r d h}, verifyBlock r d = some h → h.hash H = headerHashFromBlock d
  unique : ∀ {r r' d d' h h'}, verifyBlock r d = some h → verifyBlock r' d' = some h' →
    headerHashFromBlock d = headerHashFromBlock d' → h = h'
  sha3Uncles_ne : ∀ {r d h}, verifyBlock r d = some h → ∀ d', h.sha3Uncles ≠ headerHashFromBlock d'

structure UnverifiedBlock where
  hash : H256
  parentHash : H256
  blockData : Bytes
deriving DecidableEq

/-- What is left of a block that was moved. -/
def UnverifiedBlock.moved (b : UnverifiedBlock) : UnverifiedBlock := { b with blockData := [] }

/-- `VerifiedBlock` as the queue has it: the header and the bytes. -/
structure QueuedBlock where
  info : BlockHeader
  blockData : Bytes

namespace QueuedBlock

/-- What is left of a block that was moved: the header is copied. -/
def moved (b : QueuedBlock) : QueuedBlock := { b with blockData := [] }

/-- The hash of a block in `m_verifying`. -/
def jobHash (H : Hasher) (b : QueuedBlock) : H256 :=
  if b.blockData ≠ [] then b.info.hash H else b.info.sha3Uncles

/-- What stands in `m_verifying` for a block that is not finished. -/
def placeholder (work : UnverifiedBlock) : QueuedBlock :=
  ⟨{ BlockHeader.blank with sha3Uncles := work.hash, parentHash := work.parentHash }, []⟩

end QueuedBlock

/-- `SizedBlockMap`: a multimap, in the order of the keys. -/
abbrev SizedBlockMap (K : Type) := List (K × H256 × Bytes)

namespace SizedBlockMap
variable {K : Type}

/-- `insert`, behind the entries of the same key. -/
def insert [LT K] [DecidableLT K] (m : SizedBlockMap K) (key : K) (hash : H256)
    (blockData : Bytes) : SizedBlockMap K :=
  m.takeWhile (¬ key < ·.1) ++ (key, hash, blockData) :: m.dropWhile (¬ key < ·.1)

def removeByKeyEqual [DecidableEq K] (m : SizedBlockMap K) (key : K) :
    SizedBlockMap K × List (H256 × Bytes) :=
  (m.filter (·.1 ≠ key), (m.filter (·.1 = key)).map (·.2))

def removeByKeyNotGreater [LT K] [DecidableLT K] (m : SizedBlockMap K) (key : K) :
    SizedBlockMap K × List (H256 × Bytes) :=
  (m.dropWhile (¬ key < ·.1), (m.takeWhile (¬ key < ·.1)).map (·.2))

end SizedBlockMap

structure BlockQueue where
  drainingSet : Finset H256
  readySet : Finset H256
  unknownSet : Finset H256
  /-- By the hash of the parent. -/
  unknown : SizedBlockMap H256
  knownBad : Finset H256
  /-- By time. -/
  future : SizedBlockMap ℕ
  verified : List QueuedBlock
  /-- A block that is not finished has no bytes, and the hash of the block in `sha3Uncles`. -/
  verifying : List QueuedBlock
  unverified : List UnverifiedBlock
  difficulty : U256
  drainingDifficulty : U256
  /-- `work` of each of the threads. -/
  verifiers : ℕ → Option UnverifiedBlock

namespace BlockQueue

def empty : BlockQueue := ⟨∅, ∅, ∅, [], ∅, [], [], [], [], 0, 0, fun _ => none⟩

/-- `clear`. The threads go on with what they have. -/
def clear (q : BlockQueue) : BlockQueue :=
  { empty with
    knownBad := q.knownBad
    verifiers := q.verifiers }

/-- One turn of the loops of `noteReady_WITH_LOCK` and `retryAllUnknown`: the blocks that wait for a
parent are ready. -/
def readyChildren (parent : H256) (q : BlockQueue) : List H256 × BlockQueue :=
  let r := q.unknown.removeByKeyEqual parent
  let hashes := r.2.map (·.1)
  (hashes,
    { q with
      unknown := r.1
      unverified := q.unverified ++ r.2.map fun b => ⟨b.1, parent, b.2⟩
      unknownSet := q.unknownSet \ hashes.toFinset
      readySet := q.readySet ∪ hashes.toFinset })

/-- One turn of the loop of `collectUnknownBad_WITH_BOTH_LOCKS`. -/
def badChildren (parent : H256) (q : BlockQueue) : List H256 × BlockQueue :=
  let r := q.unknown.removeByKeyEqual parent
  let hashes := r.2.map (·.1)
  (hashes,
    { q with
      unknown := r.1
      unknownSet := q.unknownSet \ hashes.toFinset
      knownBad := q.knownBad ∪ hashes.toFinset })

/-- The loops over the blocks that wait for a block, those that wait for them, and so on. Each turn
that finds more takes them out of `unknown`, so the bound is the number of blocks there and of
those to begin with. -/
def walkUnknown (children : H256 → BlockQueue → List H256 × BlockQueue) : ℕ → List H256 →
    BlockQueue → BlockQueue
  | 0, _, q => q
  | _, [], q => q
  | n + 1, parent :: rest, q =>
    let r := children parent q
    walkUnknown children n (rest ++ r.1) r.2

def noteReady (good : H256) (q : BlockQueue) : BlockQueue :=
  walkUnknown readyChildren (q.unknown.length + 1) [good] q

def collectUnknownBad (bad : H256) (q : BlockQueue) : BlockQueue :=
  walkUnknown badChildren (q.unknown.length + 1) [bad] q

/-- The loop of `retryAllUnknown`, for so many turns. -/
def retryLoop : ℕ → BlockQueue → BlockQueue
  | 0, q => q
  | n + 1, q =>
    match q.unknown with
    | [] => q
    | (parent, _) :: _ => retryLoop n (readyChildren parent q).2

def retryAllUnknown (q : BlockQueue) : BlockQueue := retryLoop q.unknown.length q

section
variable (H : Hasher)

def markBad (q : BlockQueue) (hash : H256) : BlockQueue :=
  collectUnknownBad hash { q with
    knownBad := insert hash q.knownBad, readySet := q.readySet.erase hash }

/-- A part of the loop of `updateBad_WITH_LOCK`: the blocks that are bad go out of one of the
queues, and what `removeIf` returns is marked as bad. Also returns whether that was any. -/
def dropBad {α : Type} (queue : BlockQueue → List α) (put : BlockQueue → List α → BlockQueue)
    (moved : α → α) (isBad : BlockQueue → α → Bool) (hash : α → H256) (q : BlockQueue) :
    Bool × BlockQueue :=
  let r := removeIf moved (isBad q) (queue q)
  (!r.2.isEmpty, (r.2.map hash).foldl markBad (put q r.1))

def isBadVerified (q : BlockQueue) (b : QueuedBlock) : Bool :=
  b.info.parentHash ∈ q.knownBad ∨ b.info.hash H ∈ q.knownBad

def isBadUnverified (q : BlockQueue) (b : UnverifiedBlock) : Bool :=
  b.parentHash ∈ q.knownBad ∨ b.hash ∈ q.knownBad

def isBadVerifying (q : BlockQueue) (b : QueuedBlock) : Bool :=
  b.info.parentHash ∈ q.knownBad ∨ b.info.sha3Uncles ∈ q.knownBad

def dropBadVerified : BlockQueue → Bool × BlockQueue :=
  dropBad verified (fun q l => { q with verified := l }) QueuedBlock.moved (isBadVerified H)
    (·.info.hash H)

def dropBadUnverified : BlockQueue → Bool × BlockQueue :=
  dropBad unverified (fun q l => { q with unverified := l }) UnverifiedBlock.moved isBadUnverified
    (·.hash)

def dropBadVerifying : BlockQueue → Bool × BlockQueue :=
  dropBad verifying (fun q l => { q with verifying := l }) QueuedBlock.moved isBadVerifying
    (QueuedBlock.jobHash H)

/-- A turn of the loop of `updateBad_WITH_LOCK`. -/
def badRound (q : BlockQueue) : Bool × BlockQueue :=
  let verified := dropBadVerified H q
  let unverified := dropBadUnverified verified.2
  let verifying := dropBadVerifying H unverified.2
  (verified.1 || unverified.1 || verifying.1, verifying.2)

def badRounds : ℕ → BlockQueue → BlockQueue
  | 0, q => q
  | n + 1, q =>
    let r := badRound H q
    if r.1 then badRounds n r.2 else r.2

def knownCount (q : BlockQueue) : ℕ := q.verified.length + q.unverified.length + q.verifying.length

/-- `updateBad_WITH_LOCK`. A turn after which there is another one takes a block out of a queue. -/
def updateBad (bad : H256) (q : BlockQueue) : BlockQueue :=
  badRounds H (q.knownCount + 1) (collectUnknownBad bad q)

/-- A verified block goes to `verified`, unless its parent is bad. -/
def pass (b : QueuedBlock) (q : BlockQueue) : BlockQueue :=
  if b.info.parentHash ∈ q.knownBad then
    { q with readySet := q.readySet.erase (b.info.hash H), knownBad := insert (b.info.hash H) q.knownBad }
  else { q with verified := q.verified ++ [b] }

/-- The loop of `drainVerified_WITH_BOTH_LOCKS`, over what is in `verifying`. -/
def drainLoop : List QueuedBlock → BlockQueue → BlockQueue
  | [], q => q
  | b :: rest, q =>
    if b.blockData = [] then q else drainLoop rest (pass H b { q with verifying := rest })

def drainVerified (q : BlockQueue) : BlockQueue := drainLoop H q.verifying q

/-- The first part of `verifierBody`: a thread without work takes the next block, if there is one.
`m_lock` is not needed for it. -/
def verifierTakes (i : ℕ) (q : BlockQueue) : BlockQueue :=
  match q.verifiers i, q.unverified with
  | none, work :: rest =>
    { q with
      unverified := rest
      verifying := q.verifying ++ [.placeholder work]
      verifiers := Function.update q.verifiers i (some work) }
  | _, _ => q

def replace (hash : H256) (b : QueuedBlock) : List QueuedBlock → List QueuedBlock
  | [] => []
  | x :: rest => if x.info.sha3Uncles = hash then b :: rest else x :: replace hash b rest

/-- The end of `verifierBody`, for a block that was not verified. -/
def verifierFails (hash : H256) (q : BlockQueue) : BlockQueue :=
  drainVerified H
    { q with
      readySet := q.readySet.erase hash
      knownBad := insert hash q.knownBad
      verifying := (removeIf QueuedBlock.moved (·.info.sha3Uncles = hash) q.verifying).1 }

/-- The end of `verifierBody`, for a block that was verified. -/
def verifierSucceeds (hash : H256) (b : QueuedBlock) (q : BlockQueue) : BlockQueue :=
  match q.verifying with
  | [] => q
  | next :: rest =>
    if next.info.sha3Uncles = hash then drainVerified H (pass H b { q with verifying := rest })
    else { q with verifying := replace hash b q.verifying }

/-- `drain`, with the blocks that it hands out. -/
def drain (max : ℕ) (q : BlockQueue) : List QueuedBlock × BlockQueue :=
  if q.drainingSet = ∅ then
    let out := q.verified.take (min max q.verified.length)
    let hashes := (out.map (·.info.hash H)).toFinset
    (out,
      { q with
        verified := q.verified.drop (min max q.verified.length)
        drainingSet := hashes
        drainingDifficulty := (out.map (·.info.difficulty)).sum
        readySet := q.readySet \ hashes })
  else ([], q)

/-- The loop of `doneDrain` over the bad blocks. Before each of them is dealt with, the threads that
come with it may take work. -/
def doneLoop : List (H256 × List ℕ) → BlockQueue → BlockQueue
  | [], q => q
  | (bad, threads) :: rest, q =>
    doneLoop rest (updateBad H bad (threads.foldl (fun q i => verifierTakes i q) q))

/-- The first part of `doneDrain`. -/
def beginDone (bad : List (H256 × List ℕ)) (q : BlockQueue) : BlockQueue :=
  { q with
    drainingSet := ∅
    difficulty := q.difficulty - q.drainingDifficulty
    drainingDifficulty := 0
    knownBad := q.knownBad ∪ (bad.map (·.1)).toFinset }

def doneDrain (bad : List (H256 × List ℕ)) (q : BlockQueue) : BlockQueue :=
  doneLoop H bad (beginDone bad q)

variable {H} (R : BlockReader H)

/-- The rest of `verifierBody`. -/
def verifierEnds (i : ℕ) (q : BlockQueue) : BlockQueue :=
  match q.verifiers i with
  | none => q
  | some work =>
    let q := { q with verifiers := Function.update q.verifiers i none }
    match R.verifyBlock .OutOfOrderChecks work.blockData with
    | none => verifierFails H work.hash q
    | some info => verifierSucceeds H work.hash ⟨info, work.blockData⟩ q

def parentUnknown (q : BlockQueue) (isKnown : H256 → Bool) (bi : BlockHeader) : Bool :=
  bi.parentHash ∉ q.readySet ∧ bi.parentHash ∉ q.drainingSet ∧ !isKnown bi.parentHash

/-- `import`; `isKnown` is that of the chain. -/
def import_ (isKnown : H256 → Bool) (utcTime : ℕ) (block : Bytes) (isOurs : Bool) (q : BlockQueue) :
    ImportResult × BlockQueue :=
  let h := R.headerHashFromBlock block
  if h ∈ q.readySet ∨ h ∈ q.drainingSet ∨ h ∈ q.unknownSet ∨ h ∈ q.knownBad then (.AlreadyKnown, q)
  else
    match R.verifyBlock .PostGenesis block with
    | none => (.Malformed, q)
    | some bi =>
      if isKnown h then (.AlreadyInChain, q)
      else if bi.timestamp.toNat > utcTime ∧ !isOurs then
        (if q.parentUnknown isKnown bi then .FutureTimeUnknown else .FutureTimeKnown,
          { q with
            -- a time that does not fit into `time_t` becomes the last one
            future := q.future.insert (min bi.timestamp.toNat (2 ^ 63 - 1)) h block
            difficulty := q.difficulty + bi.difficulty })
      else if bi.parentHash ∈ q.knownBad then
        (.BadChain, updateBad H (bi.hash H) { q with knownBad := insert (bi.hash H) q.knownBad })
      else if q.parentUnknown isKnown bi then
        (.UnknownParent,
          { q with
            unknown := q.unknown.insert bi.parentHash h block
            unknownSet := insert h q.unknownSet
            difficulty := q.difficulty + bi.difficulty })
      else
        (.Success,
          noteReady h
            { q with
              unverified := q.unverified ++ [⟨h, bi.parentHash, block⟩]
              readySet := insert h q.readySet
              difficulty := q.difficulty + bi.difficulty })

/-- The blocks that `tick` takes out of `future`. -/
def takeDue (utcTime : ℕ) (q : BlockQueue) : List (H256 × Bytes) × BlockQueue :=
  let r := q.future.removeByKeyNotGreater utcTime
  (r.2, { q with future := r.1 })

/-- `tick`. The lock is free between the imports. -/
def tick (isKnown : H256 → Bool) (utcTime : ℕ) (q : BlockQueue) : BlockQueue :=
  let r := takeDue utcTime q
  r.1.foldl (fun q b => (import_ R isKnown utcTime b.2 false q).2) r.2

/-- What is done with a queue. The imports of `tick` are steps of their own. -/
inductive Act where
  | import_ (isKnown : H256 → Bool) (utcTime : ℕ) (block : Bytes) (isOurs : Bool)
  | takeDue (utcTime : ℕ)
  | noteReady (good : H256)
  | verifierTakes (i : ℕ)
  | verifierEnds (i : ℕ)
  | drain (max : ℕ)
  | doneDrain (bad : List (H256 × List ℕ))
  | retryAllUnknown
  | clear

def Act.exec : Act → BlockQueue → BlockQueue
  | import_ isKnown utcTime block isOurs, q => (BlockQueue.import_ R isKnown utcTime block isOurs q).2
  | takeDue utcTime, q => (BlockQueue.takeDue utcTime q).2
  | noteReady good, q => BlockQueue.noteReady good q
  | verifierTakes i, q => BlockQueue.verifierTakes i q
  | verifierEnds i, q => BlockQueue.verifierEnds R i q
  | drain max, q => (BlockQueue.drain H max q).2
  | doneDrain bad, q => BlockQueue.doneDrain H bad q
  | retryAllUnknown, q => BlockQueue.retryAllUnknown q
  | clear, q => BlockQueue.clear q

/-- Nothing else happens in `tick`. -/
theorem tick_eq_foldl (isKnown : H256 → Bool) (utcTime : ℕ) (q : BlockQueue) :
    tick R isKnown utcTime q =
      (Act.takeDue utcTime :: (takeDue utcTime q).1.map fun b =>
        .import_ isKnown utcTime b.2 false).foldl (fun q a => a.exec R q) q := by
  rw [List.foldl_cons, List.foldl_map]
  rfl

end

end BlockQueue
end Vapory
