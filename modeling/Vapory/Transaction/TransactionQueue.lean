import Mathlib.Data.List.AList
import Vapory.Base.Placement
import Vapory.Transaction.TransactionBase

/-! `TransactionQueue.h` and `TransactionQueue.cpp`: the transactions that wait to be put into a
block. -/
namespace Vapory

structure VerifiedTransaction where
  /-- `sha3(WithSignature)`. -/
  sha3 : H256
  /-- `sender()`, or nothing if it throws. -/
  sender : Option Address
  nonce : U256
  gasPrice : U256
deriving DecidableEq

namespace VerifiedTransaction

/-- `from()`, which is `safeSender()`. -/
def safeSender (t : VerifiedTransaction) : Address := t.sender.getD 0

def key (t : VerifiedTransaction) : Address × U256 := (t.safeSender, t.nonce)

def ofTransaction (H : Hasher) (C : Crypto) (t : TransactionBase) :
    Except TransactionBase.Error VerifiedTransaction := do
  let h ← t.sha3 H .WithSignature
  return ⟨h.1, (t.sender H C).toOption.map Prod.fst, t.nonce, t.gasPrice⟩

end VerifiedTransaction

/-- `TransactionQueue`. The iterators into `m_current` are numbers, of which each is used once. -/
structure TransactionQueue where
  known : Finset H256 := ∅
  dropped : Finset H256 := ∅
  /-- In the order of the multiset. -/
  current : List (ℕ × VerifiedTransaction) := []
  nextNode : ℕ := 0
  currentByHash : H256 → Option ℕ := fun _ => none
  /-- Both maps in one; an iterator that points nowhere is `none`. -/
  currentByAddressAndNonce : AList fun _ : Address × U256 => Option ℕ := ∅
  /-- Both maps in one. -/
  future : List VerifiedTransaction := []
  limit : ℕ
  futureLimit : ℕ
  /-- An `unsigned`. -/
  futureSize : ℕ := 0

namespace TransactionQueue

/-- The values of `ImportResult` that `import` returns. -/
inductive ImportResult where
  | Success
  | AlreadyInChain
  | AlreadyKnown
  | Malformed
  | OverbidGasPrice
  | ZeroSignature
deriving DecidableEq, Repr

inductive IfDropped where
  | Ignore
  | Retry
deriving DecidableEq, Repr

inductive Thrown where
  | transaction (e : TransactionBase.Error)
  /-- An iterator is used that points nowhere, or a loop does not end. -/
  | undefined
deriving DecidableEq, Repr

/-- What the containers of the standard library leave open: where the multiset puts an element, and
which entry is the first of an unordered map. -/
structure Containers where
  placement : Placement (ℕ × VerifiedTransaction)
  front : List Address → Address
  front_mem : ∀ {l}, l ≠ [] → front l ∈ l

abbrev Action := ExceptT Thrown (StateM TransactionQueue)

variable (q : TransactionQueue)

/-- `m_currentByAddressAndNonce[_a].begin()->first`. -/
def base (a : Address) : U256 :=
  BitVec.ofNat 256 (((q.currentByAddressAndNonce.keys.filter (·.1 = a)).map fun k =>
    k.2.toNat).min?.getD 0)

def priorityCompare (first second : VerifiedTransaction) : Option Bool := do
  let sender₁ ← first.sender
  let sender₂ ← second.sender
  let height₁ := first.nonce - q.base sender₁
  let height₂ := second.nonce - q.base sender₂
  return height₁ < height₂ ∨ height₁ = height₂ ∧ first.gasPrice > second.gasPrice

def deref (node : ℕ) : Option VerifiedTransaction := (q.current.find? (·.1 = node)).map Prod.snd

/-- `m_currentByAddressAndNonce[_t.from()].insert(...)`: an entry that is there stays. -/
def withKey (t : VerifiedTransaction) : TransactionQueue :=
  { q with
    currentByAddressAndNonce :=
      if t.key ∈ q.currentByAddressAndNonce then q.currentByAddressAndNonce
      else q.currentByAddressAndNonce.insert t.key none }

/-- The queue with `t` at a place of the multiset and in both maps. -/
def withNode (t : VerifiedTransaction) (i : ℕ) : TransactionQueue :=
  { q with
    current := insertAt q.current i (q.nextNode, t)
    nextNode := q.nextNode + 1
    currentByHash := Function.update q.currentByHash t.sha3 (some q.nextNode)
    currentByAddressAndNonce := q.currentByAddressAndNonce.insert t.key (some q.nextNode) }

def withoutNode (node : ℕ) (t : VerifiedTransaction) : TransactionQueue :=
  { q with
    current := q.current.filter (·.1 ≠ node)
    currentByHash := Function.update q.currentByHash t.sha3 none
    currentByAddressAndNonce := q.currentByAddressAndNonce.erase t.key }

/-- How `insertCurrent_WITH_LOCK` and `makeCurrent_WITH_LOCK` add a transaction to the current
ones. -/
def emplace (env : Containers) (t : VerifiedTransaction) : Action Unit := do
  modify fun q => q.withKey t
  let q ← get
  match env.placement.place (fun a b => q.priorityCompare a.2 b.2) q.current (q.nextNode, t) with
  | none => throw (.transaction .InvalidSignature)
  | some i => set (q.withNode t i)

def remove (txHash : H256) : Action Bool := do
  let q ← get
  match q.currentByHash txHash with
  | none => return false
  | some node =>
    match q.deref node with
    | none => throw .undefined
    | some t =>
      set { q.withoutNode node t with
        currentByHash := Function.update q.currentByHash txHash none
        known := q.known.erase txHash }
      return true

/-- The entries of `m_future[a]` from `nonce` on without a gap. -/
def chain (future : List VerifiedTransaction) (a : Address) : ℕ → U256 → List VerifiedTransaction
  | 0, _ => []
  | fuel + 1, nonce =>
    match future.find? (·.key = (a, nonce)) with
    | none => []
    -- the entries are in ascending order, so the largest nonce is the last
    | some t => t :: if nonce = BitVec.allOnes 256 then [] else chain future a fuel (nonce + 1)

/-- The loop of `makeCurrent_WITH_LOCK` over such entries. -/
def promote (env : Containers) : List VerifiedTransaction → Action Unit
  | [] => return
  | t :: ts => do
    emplace env t
    modify fun q => { q with futureSize := (q.futureSize + 2 ^ 32 - 1) % 2 ^ 32 }
    promote env ts

def later (r : Option VerifiedTransaction) (t : VerifiedTransaction) : Option VerifiedTransaction :=
  match r with
  | none => some t
  | some u => if u.nonce < t.nonce then some t else some u

/-- The last entry of `m_future[a]`. -/
def lastFuture (a : Address) : Option VerifiedTransaction :=
  (q.future.filter (·.safeSender = a)).foldl later none

/-- `while (m_futureSize > m_futureLimit)`. -/
def trimFuture (env : Containers) : ℕ → Action Unit
  | 0 => throw .undefined
  | fuel + 1 => do
    let q ← get
    if q.futureSize > q.futureLimit then
      match q.lastFuture (env.front (q.future.map (·.safeSender))) with
      | none => throw .undefined
      | some t => do
        set { q with
          future := q.future.filter (· ≠ t)
          futureSize := (q.futureSize + 2 ^ 32 - 1) % 2 ^ 32 }
        trimFuture env fuel
    else return

/-- `makeCurrent_WITH_LOCK`, of a transaction with this sender and nonce. -/
def makeCurrent (env : Containers) (a : Address) (nonce : U256) : Action Unit := do
  let q ← get
  let moved := chain q.future a q.future.length (nonce + 1)
  promote env moved
  modify fun q => { q with future := q.future.filter (· ∉ moved) }
  let q ← get
  trimFuture env (q.futureSize + 1)

def insertCurrent (env : Containers) (t : VerifiedTransaction) : Action Unit := do
  let q ← get
  if (q.currentByHash t.sha3).isSome then return
  emplace env t
  makeCurrent env t.safeSender t.nonce
  modify fun q => { q with known := insert t.sha3 q.known }

/-- `while (m_current.size() > m_limit)`. -/
def trimCurrent : ℕ → Action Unit
  | 0 => throw .undefined
  | fuel + 1 => do
    let q ← get
    if q.current.length > q.limit then
      match q.current.getLast? with
      | none => throw .undefined
      | some last => do
        let _ ← remove last.2.sha3
        trimCurrent fuel
    else return

/-- The part of `manageImport_WITH_LOCK` about a current transaction with the same nonce: false if
its price is higher. -/
def replaceCurrent (t : VerifiedTransaction) : Action Bool := do
  let q ← get
  match q.currentByAddressAndNonce.lookup t.key with
  | none => return true
  | some node =>
    match node.bind q.deref with
    | none => throw .undefined
    | some old =>
      if t.gasPrice < old.gasPrice then return false
      let _ ← remove old.sha3
      return true

def replaceFuture (t : VerifiedTransaction) : Action Bool := do
  let q ← get
  match q.future.find? (·.key = t.key) with
  | none => return true
  | some old =>
    if t.gasPrice < old.gasPrice then return false
    set { q with
      future := q.future.filter (· ≠ old)
      futureSize := (q.futureSize + 2 ^ 32 - 1) % 2 ^ 32 }
    return true

/-- The body of the `try` in `manageImport_WITH_LOCK`. -/
def tryImport (env : Containers) (t : VerifiedTransaction) : Action ImportResult := do
  let ok ← replaceCurrent t
  if !ok then return .OverbidGasPrice
  let ok ← replaceFuture t
  if !ok then return .OverbidGasPrice
  insertCurrent env t
  let q ← get
  trimCurrent (q.current.length + 1)
  return .Success

def manageImport (env : Containers) (t : VerifiedTransaction) : Action ImportResult :=
  tryCatch (tryImport env t) fun e =>
    match e with
    | .transaction _ => return .Malformed
    | .undefined => throw .undefined

def check (h : H256) (ik : IfDropped) : ImportResult :=
  if h ∈ q.known then .AlreadyKnown
  else if h ∈ q.dropped ∧ ik = .Ignore then .AlreadyInChain
  else .Success

variable (H : Hasher) (C : Crypto)

/-- `import(Transaction)`. -/
def importTransaction (env : Containers) (t : TransactionBase) (ik : IfDropped) :
    Action ImportResult := do
  if t.hasZeroSignature then return .ZeroSignature
  match VerifiedTransaction.ofTransaction H C t with
  | .error e => throw (.transaction e)
  | .ok v => do
    let q ← get
    let ir := q.check v.sha3 ik
    if ir ≠ .Success then return ir
    manageImport env v

/-- `import(bytesConstRef)`. -/
def importRLP (env : Containers) (data : Bytes) (ik : IfDropped) : Action ImportResult :=
  match TransactionBase.ofRLP H C data .Everything with
  | .error _ => return .Malformed
  | .ok t => tryCatch (importTransaction H C env t ik) fun e =>
    match e with
    | .transaction _ => return .Malformed
    | .undefined => throw .undefined

/-- The loop of `setFuture` over entries of `m_currentByAddressAndNonce[a]`. -/
def demote : List ((Address × U256) × Option ℕ) → Action Unit
  | [] => return
  | (_, node) :: rest => do
    let q ← get
    match node.bind fun n => (q.deref n).map fun t => (n, t) with
    | none => throw .undefined
    | some (n, t) => do
      set { q.withoutNode n t with
        future := if q.future.any (·.key = t.key) then q.future else q.future ++ [t]
        futureSize := (q.futureSize + 1) % 2 ^ 32 }
      demote rest

/-- `setFuture`. The map that the loop runs over is changed with each step of it here, and after it
in the source. -/
def setFuture (txHash : H256) : Action Unit := do
  let q ← get
  match q.currentByHash txHash with
  | none => return
  | some node =>
    match q.deref node with
    | none => throw .undefined
    | some st =>
      demote ((q.currentByAddressAndNonce.entries.filter fun e => e.1.1 = st.safeSender ∧
        st.nonce ≤ e.1.2).map fun e => (e.1, e.2))

def drop (txHash : H256) : Action Unit := do
  let q ← get
  if txHash ∈ q.known then
    set { q with dropped := insert txHash q.dropped }
    let _ ← remove txHash

def dropGood (env : Containers) (t : TransactionBase) : Action Unit := do
  makeCurrent env (((t.sender H C).toOption.map Prod.fst).getD 0) t.nonce
  match t.sha3 H .WithSignature with
  | .error e => throw (.transaction e)
  | .ok h => do
    let q ← get
    if h.1 ∈ q.known then
      let _ ← remove h.1

def clear : TransactionQueue :=
  { dropped := q.dropped
    nextNode := q.nextNode
    limit := q.limit
    futureLimit := q.futureLimit }

inductive Op where
  | importTransaction (t : TransactionBase) (ik : IfDropped)
  | importRLP (data : Bytes) (ik : IfDropped)
  | setFuture (txHash : H256)
  | drop (txHash : H256)
  | dropGood (t : TransactionBase)
  | clear

def Op.exec (env : Containers) : Op → Action Unit
  | .importTransaction t ik => do
    let _ ← TransactionQueue.importTransaction H C env t ik
  | .importRLP data ik => do
    let _ ← TransactionQueue.importRLP H C env data ik
  | .setFuture txHash => TransactionQueue.setFuture txHash
  | .drop txHash => TransactionQueue.drop txHash
  | .dropGood t => TransactionQueue.dropGood H C env t
  | .clear => modify TransactionQueue.clear

def step (op : Containers × Op) : TransactionQueue := ((op.2.exec H C op.1).run.run q).2

def run (ops : List (Containers × Op)) : TransactionQueue := ops.foldl (fun q op => q.step H C op) q

end TransactionQueue
end Vapory
