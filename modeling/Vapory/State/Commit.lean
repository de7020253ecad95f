import Vapory.State.State

/-! `State::commit` and the free function `commit` of `State.cpp`: the changed accounts of the
cache go into the state trie. -/
namespace Vapory

inductive CommitBehaviour where
  | KeepEmptyAccounts
  | RemoveEmptyAccounts
deriving DecidableEq, Repr

/-- The roots of the tries; a root is a function of what its trie holds. -/
structure TrieRoots where
  /-- The root of the state trie with these accounts. -/
  state : (Address → Option StoredAccount) → H256
  /-- The root of a storage trie, of which the root was known, after some writes. -/
  storage : H256 → (U256 → Option U256) → H256
  storage_none : ∀ root, storage root (fun _ => none) = root

def TrieRoots.trivial : TrieRoots := ⟨fun _ => 0, fun root _ => root, fun _ => rfl⟩

namespace State
variable (H : Hasher) (roots : TrieRoots)

def rootHash (s : State) : H256 := roots.state s.db.account

/-- `removeEmptyAccounts`: empty accounts of the cache are killed if they are dirty. -/
def removeEmptyAccounts : StateM State Unit :=
  modify fun s => { s with
    cache := fun addr => (s.cache addr).map fun a =>
      if a.isDirty ∧ a.isEmpty H then a.kill H else a }

/-- A turn of the loop of `commit`, for an address of the cache. -/
def commitAccount (addr : Address) : StateM State Unit := do
  match (← get).cache addr with
  | none => return
  | some a =>
    if !a.isDirty then return
    else if !a.isAlive then
      modify fun s => { s with db := { s.db with account := Function.update s.db.account addr none } }
    else
      -- an empty overlay leaves the trie as it is, and its root
      let root := roots.storage a.storageRoot a.storageOverlay
      modify fun s =>
        let storage key := (a.storageOverlay key).getD (s.db.storage a.storageRoot key)
        { s with db := { s.db with storage := Function.update s.db.storage root storage } }
      if a.hasNewCode then
        storeCodeSize a.codeHash a.codeCache.length
        modify fun s => { s with
          db := { s.db with code := Function.update s.db.code a.codeHash a.codeCache } }
      let stored : StoredAccount := ⟨a.nonce, a.balance, root, a.codeHash⟩
      modify fun s => { s with
        db := { s.db with account := Function.update s.db.account addr (some stored) } }

/-- `commit`. `walk` lists the addresses of the cache in the order in which the map has them. -/
def commit (walk : List Address) (behaviour : CommitBehaviour) : StateM State Unit := do
  if behaviour = .RemoveEmptyAccounts then removeEmptyAccounts H
  walk.forM (commitAccount roots)
  modify fun s => { s with changeLog := [], cache := fun _ => none, unchangedCacheEntries := [] }

end State
end Vapory
