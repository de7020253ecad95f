import Vapory.State.Account

/-! `State.h` and `State.cpp`: accounts in a cache over the state trie, with a log of
changes by which the cache is taken back to a savepoint. -/
namespace Vapory

/-- `Change`, an entry of the change log. -/
inductive Change where
  | balance (address : Address) (value : U256)
  | storage (address : Address) (key value : U256)
  | storageRoot (address : Address) (value : H256)
  | nonce (address : Address) (value : U256)
  | create (address : Address)
  | code (address : Address) (oldCode : Bytes)
  | touch (address : Address)
deriving DecidableEq

namespace Change

def address : Change → Address
  | balance a _ => a
  | storage a _ _ => a
  | storageRoot a _ => a
  | nonce a _ => a
  | create a => a
  | code a _ => a
  | touch a => a

end Change

/-- `CodeSizeCache`, in the order of the hashes. -/
structure CodeSizeCache where
  entries : List (H256 × ℕ)

namespace CodeSizeCache

def find (c : CodeSizeCache) (hash : H256) : Option ℕ := c.entries.lookup hash

/-- The element at or after a random hash, or else the first one, is removed. -/
def removeRandomElement (c : CodeSizeCache) (random : H256) : CodeSizeCache :=
  match c.entries.find? fun e => random ≤ e.1 with
  | some e => ⟨c.entries.filter fun e' => e'.1 ≠ e.1⟩
  | none => ⟨c.entries.tail⟩

def store (c : CodeSizeCache) (random hash : H256) (size : ℕ) : CodeSizeCache :=
  let c := if c.entries.length ≥ 50000 then c.removeRandomElement random else c
  ⟨(c.entries.filter fun e => e.1 < hash) ++ (hash, size) :: c.entries.filter fun e => hash < e.1⟩

end CodeSizeCache

/-- What `State` reads of its database: the accounts of the state trie, the storage trie
under a root and the code under a hash. -/
structure StateDB where
  account : Address → Option StoredAccount
  storage : H256 → U256 → U256
  code : H256 → Bytes

/-- `State`, with the random numbers it will draw and the code sizes it shares with others. -/
structure State where
  db : StateDB
  cache : Address → Option Account
  unchangedCacheEntries : List Address
  nonExistingAccountsCache : Address → Bool
  accountStartNonce : U256
  /-- The newest change first. -/
  changeLog : List Change
  codeSizes : CodeSizeCache
  random : ℕ → ℕ

inductive StateError where
  | NotEnoughCash
  | InvalidAccountStartNonceInState
deriving DecidableEq, Repr

/-- Operations on the state; what was done before an exception stays done. -/
abbrev StateOp := ExceptT StateError (StateM State)

namespace State

/-- `State(_accountStartNonce, _db)`. -/
def opened (db : StateDB) (accountStartNonce : U256) (codeSizes : CodeSizeCache) (random : ℕ → ℕ) :
    State where
  db := db
  cache := fun _ => none
  unchangedCacheEntries := []
  nonExistingAccountsCache := fun _ => false
  accountStartNonce := accountStartNonce
  changeLog := []
  codeSizes := codeSizes
  random := random

def evict (s : State) (addr : Address) : State :=
  match s.cache addr with
  | some a => if a.isDirty then s else { s with cache := Function.update s.cache addr none }
  | none => s

/-- One turn of `clearCacheIfTooLarge`: a random entry is swapped with the last, which is
dropped. -/
def evictRandom (s : State) : State :=
  let entries := s.unchangedCacheEntries
  let i := s.random 0 % entries.length
  let s := { s with random := fun n => s.random (n + 1) }
  match entries[i]?, entries.getLast? with
  | some addr, some last =>
    { s with unchangedCacheEntries := (entries.set i last).dropLast }.evict addr
  | _, _ => s

/-- `clearCacheIfTooLarge`, a turn for every entry above 1000. -/
def clearCacheIfTooLarge (s : State) : State :=
  evictRandom^[s.unchangedCacheEntries.length - 1000] s

section
variable (H : Hasher)

/-- `account(_addr)`, the account in the cache or the null pointer. -/
def account (addr : Address) : StateM State (Option Account) := do
  let s ← get
  match s.cache addr with
  | some a => return some a
  | none =>
    if s.nonExistingAccountsCache addr then return none
    else
      match s.db.account addr with
      | none =>
        set { s with nonExistingAccountsCache := Function.update s.nonExistingAccountsCache addr true }
        return none
      | some stored =>
        let s := s.clearCacheIfTooLarge
        set { s with
          cache := Function.update s.cache addr (some (.load H stored))
          unchangedCacheEntries := s.unchangedCacheEntries ++ [addr] }
        return some (.load H stored)

/-- `m_cache[addr]`, changed in place; the access makes a dead account if there is none. -/
def update (addr : Address) (f : Account → Account) : StateM State Unit :=
  modify fun s => { s with
    cache := Function.update s.cache addr (some (f ((s.cache addr).getD (.dead H)))) }

/-- `m_changeLog.emplace_back`. -/
def log (c : Change) : StateM State Unit := modify fun s => { s with changeLog := c :: s.changeLog }

def requireAccountStartNonce : StateOp U256 := do
  let s ← get
  if s.accountStartNonce = BitVec.allOnes 256 then throw .InvalidAccountStartNonceInState
  return s.accountStartNonce

def addressInUse (addr : Address) : StateM State Bool := do
  return (← account H addr).isSome

def accountNonemptyAndExisting (addr : Address) : StateM State Bool := do
  match ← account H addr with
  | some a => return !a.isEmpty H
  | none => return false

def addressHasCode (addr : Address) : StateM State Bool := do
  match ← account H addr with
  | some a => return a.codeHash ≠ H.emptySHA3
  | none => return false

def balance (addr : Address) : StateM State U256 := do
  match ← account H addr with
  | some a => return a.balance
  | none => return 0

def getNonce (addr : Address) : StateM State U256 := do
  match ← account H addr with
  | some a => return a.nonce
  | none => return (← get).accountStartNonce

def storage (addr : Address) (key : U256) : StateM State U256 := do
  match ← account H addr with
  | some a =>
    match a.storageOverlay key with
    | some v => return v
    | none =>
      let v := (← get).db.storage a.storageRoot key
      update H addr fun a => a.setStorageCache key v
      return v
  | none => return 0

/-- `CodeSizeCache::instance().store`. -/
def storeCodeSize (hash : H256) (size : ℕ) : StateM State Unit :=
  modify fun s =>
    { s with
      codeSizes := s.codeSizes.store (BitVec.ofNat 256 (s.random 0)) hash size
      random := fun n => s.random (n + 1) }

def code (addr : Address) : StateM State Bytes := do
  match ← account H addr with
  | none => return []
  | some a =>
    if a.codeHash = H.emptySHA3 then return []
    else if a.codeCache = [] then
      let code := (← get).db.code a.codeHash
      update H addr fun a => a.noteCode code
      storeCodeSize a.codeHash code.length
      return code
    else return a.codeCache

def codeHash (addr : Address) : StateM State H256 := do
  match ← account H addr with
  | some a => return a.codeHash
  | none => return H.emptySHA3

def codeSize (addr : Address) : StateM State ℕ := do
  match ← account H addr with
  | none => return 0
  | some a =>
    if a.hasNewCode then return a.codeCache.length
    else
      match (← get).codeSizes.find a.codeHash with
      | some size => return size
      | none =>
        let size := (← code H addr).length
        storeCodeSize a.codeHash size
        return size

def createAccount (addr : Address) (a : Account) : StateM State Unit := do
  update H addr fun _ => a
  modify fun s => { s with
    nonExistingAccountsCache := Function.update s.nonExistingAccountsCache addr false }
  log (.create addr)

def incNonce (addr : Address) : StateOp Unit := do
  match ← account H addr with
  | some a =>
    update H addr Account.incNonce
    log (.nonce addr a.nonce)
  | none => createAccount H addr (.new H ((← requireAccountStartNonce) + 1) 0)

def setNonce (addr : Address) (newNonce : U256) : StateM State Unit := do
  match ← account H addr with
  | some a =>
    update H addr fun a => a.setNonce newNonce
    log (.nonce addr a.nonce)
  | none => createAccount H addr (.new H newNonce 0)

def addBalance (addr : Address) (amount : U256) : StateOp Unit := do
  match ← account H addr with
  | some a =>
    if !a.isDirty ∧ a.isEmpty H then log (.touch addr)
    update H addr fun a => a.addBalance amount
  | none => createAccount H addr (.new H (← requireAccountStartNonce) amount)
  if amount ≠ 0 then log (.balance addr amount)

def subBalance (addr : Address) (value : U256) : StateOp Unit := do
  if value = 0 then return
  match ← account H addr with
  | none => throw .NotEnoughCash
  | some a =>
    if a.balance < value then throw .NotEnoughCash
    addBalance H addr (0 - value)

def transferBalance (src dst : Address) (value : U256) : StateOp Unit := do
  subBalance H src value
  addBalance H dst value

def createContract (addr : Address) : StateOp Unit := do
  createAccount H addr (.new H (← requireAccountStartNonce) 0)

def setStorage (addr : Address) (key value : U256) : StateM State Unit := do
  log (.storage addr key (← storage H addr key))
  update H addr fun a => a.setStorage key value

def clearStorage (addr : Address) : StateM State Unit := do
  update H addr id
  let old := (((← get).cache addr).getD (.dead H)).storageRoot
  if old = H.emptyTrie then return
  log (.storageRoot addr old)
  update H addr fun a => a.clearStorage H

def setCode (addr : Address) (newCode : Bytes) : StateM State Unit := do
  log (.code addr (← code H addr))
  update H addr fun a => a.setCode H newCode

def kill (addr : Address) : StateM State Unit := do
  match ← account H addr with
  | some _ => update H addr fun a => a.kill H
  | none => return

def savepoint (s : State) : ℕ := s.changeLog.length

/-- One turn of `rollback`: the newest change is undone. -/
def undo (c : Change) : StateM State Unit :=
  match c with
  | .storage a key value => update H a fun acc => acc.setStorage key value
  | .storageRoot a value => update H a fun acc => acc.setStorageRoot value
  | .balance a value => update H a fun acc => acc.addBalance (0 - value)
  | .nonce a value => update H a fun acc => acc.setNonce value
  | .create a => modify fun s => { s with cache := Function.update s.cache a none }
  | .code a oldCode => update H a fun acc => acc.setCode H oldCode
  | .touch a => do
    update H a Account.untouch
    modify fun s => { s with unchangedCacheEntries := s.unchangedCacheEntries ++ [a] }

/-- So many turns of `rollback`. -/
def undoNewest : ℕ → StateM State Unit
  | 0 => return
  | n + 1 => do
    match (← get).changeLog with
    | [] => return
    | c :: rest =>
      undo H c
      modify fun s => { s with changeLog := rest }
      undoNewest n

/-- `rollback`, to a savepoint not above the log. -/
def rollback (savepoint : ℕ) : StateM State Unit := do
  undoNewest H ((← get).changeLog.length - savepoint)

end
end State
end Vapory
