import Vapory.Devcore.FixedHash

/-! `Account.h` and `Account.cpp`: one account as `State` keeps it in its cache. -/
namespace Vapory

structure Account where
  isAlive : Bool
  isUnchanged : Bool
  hasNewCode : Bool
  nonce : U256
  balance : U256
  storageRoot : H256
  codeHash : H256
  storageOverlay : U256 → Option U256
  codeCache : Bytes

structure StoredAccount where
  nonce : U256
  balance : U256
  storageRoot : H256
  codeHash : H256

namespace Account
variable (H : Hasher)

/-- `Account()`, a dead account. -/
def dead : Account where
  isAlive := false
  isUnchanged := false
  hasNewCode := false
  nonce := 0
  balance := 0
  storageRoot := H.emptyTrie
  codeHash := H.emptySHA3
  storageOverlay := fun _ => none
  codeCache := []

/-- `Account(_nonce, _balance)`, changed. -/
def new (nonce balance : U256) : Account := { dead H with isAlive := true, nonce, balance }

/-- `Account(_nonce, _balance, _contractRoot, _codeHash, Unchanged)`. -/
def load (a : StoredAccount) : Account :=
  { dead H with
    isAlive := true, isUnchanged :=
      true, nonce := a.nonce, balance := a.balance, storageRoot := a.storageRoot,
    codeHash := a.codeHash }

def kill (a : Account) : Account :=
  { a with
    isAlive := false, storageOverlay := fun _ => none, codeHash := H.emptySHA3, storageRoot := H.emptyTrie,
    balance := 0, nonce := 0, isUnchanged := false }

def isDirty (a : Account) : Bool := !a.isUnchanged

def untouch (a : Account) : Account := { a with isUnchanged := true }

def isEmpty (a : Account) : Bool := a.nonce = 0 ∧ a.balance = 0 ∧ a.codeHash = H.emptySHA3

def addBalance (a : Account) (value : U256) : Account :=
  { a with balance := a.balance + value, isUnchanged := false }

def incNonce (a : Account) : Account := { a with nonce := a.nonce + 1, isUnchanged := false }

def setNonce (a : Account) (nonce : U256) : Account := { a with nonce, isUnchanged := false }

def setStorage (a : Account) (p v : U256) : Account :=
  { a with storageOverlay := Function.update a.storageOverlay p (some v), isUnchanged := false }

def clearStorage (a : Account) : Account :=
  { a with storageOverlay := fun _ => none, storageRoot := H.emptyTrie, isUnchanged := false }

def setStorageRoot (a : Account) (root : H256) : Account :=
  { a with storageOverlay := fun _ => none, storageRoot := root, isUnchanged := false }

/-- A value that is in the database; the account is not changed by it. -/
def setStorageCache (a : Account) (p v : U256) : Account :=
  { a with storageOverlay := Function.update a.storageOverlay p (some v) }

/-- `setCode` does not mark the account as changed. -/
def setCode (a : Account) (code : Bytes) : Account :=
  { a with codeCache := code, hasNewCode := true, codeHash := H.hash code }

def noteCode (a : Account) (code : Bytes) : Account := { a with codeCache := code }

end Account
end Vapory
