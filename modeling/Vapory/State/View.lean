import Vapory.Base.Post
import Vapory.State.State

/-! What can be observed of a state, whatever the cache holds of it, and the states whose
cache agrees with their database. Reading leaves both alone. -/
namespace Vapory
open Function Option

@[ext] structure AccountView where
  isAlive : Bool
  nonce : U256
  balance : U256
  storageRoot : H256
  codeHash : H256
  code : Bytes
  storage : U256 → U256

abbrev View := Address → Option AccountView

section
variable (H : Hasher)

def Account.view (db : StateDB) (a : Account) : AccountView where
  isAlive := a.isAlive
  nonce := a.nonce
  balance := a.balance
  storageRoot := a.storageRoot
  codeHash := a.codeHash
  code := if a.codeHash = H.emptySHA3 then [] else if a.codeCache =
    [] then db.code a.codeHash else a.codeCache
  storage k := (a.storageOverlay k).getD (db.storage a.storageRoot k)

/-- `Account::isEmpty`. -/
def AccountView.isEmpty (a : AccountView) : Bool :=
  a.nonce = 0 ∧ a.balance = 0 ∧ a.codeHash = H.emptySHA3

def StateDB.view (db : StateDB) : View :=
  fun addr => (db.account addr).map fun a => (Account.load H a).view H db

namespace State

/-- The cache comes before the database. -/
def view (s : State) : View := fun addr =>
  match s.cache addr with
  | some a => some (a.view H s.db)
  | none => s.db.view H addr

/-- The cache agrees with the database: an account that is not dirty is as stored, one
known not to exist is not stored, and a code hash is the hash of the code. -/
structure Sound (s : State) : Prop where
  clean : ∀ addr a, s.cache addr = some a → a.isUnchanged = true →
    s.db.view H addr = some (a.view H s.db)
  absent : ∀ addr, s.nonExistingAccountsCache addr = true → s.db.account addr = none
  coded : ∀ addr a, s.cache addr = some a → H.hash (a.view H s.db).code = a.codeHash
  stored : ∀ addr v, s.db.view H addr = some v → H.hash v.code = v.codeHash

/-- The states differ only in what their caches hold of accounts that are not dirty. -/
structure Twins (s s' : State) : Prop where
  db : s'.db = s.db
  changeLog : s'.changeLog = s.changeLog
  accountStartNonce : s'.accountStartNonce = s.accountStartNonce
  view : s'.view H = s.view H
  clean : ∀ addr, (s'.cache addr).all (·.isUnchanged) = (s.cache addr).all (·.isUnchanged)

/-- `s'` is `s` with other things in the cache: nothing observable has changed, and what was
dirty is still there. -/
structure Reads (s s' : State) : Prop extends Twins H s s' where
  sound : s'.Sound H

end State
end

namespace State
variable {H : Hasher} {s s₁ s₂ : State} {addr : Address}

theorem view_of_cache {a : Account} (h : s.cache addr = some a) :
    s.view H addr = some (a.view H s.db) := by
  rw [view, h]

theorem view_of_cache_none (h : s.cache addr = none) : s.view H addr = s.db.view H addr := by
  rw [view, h]

theorem cache_of_view_none (h : s.view H addr = none) : s.cache addr = none := by
  cases hc : s.cache addr with
  | none => rfl
  | some a =>
    rw [view_of_cache hc] at h
    cases h

theorem sound_opened {db : StateDB}
    (hstored : ∀ addr v, db.view H addr = some v → H.hash v.code = v.codeHash)
    (accountStartNonce : U256) (codeSizes : CodeSizeCache) (random : ℕ → ℕ) :
    (opened db accountStartNonce codeSizes random).Sound H :=
  ⟨by intros; contradiction, by intros; contradiction, by intros; contradiction, hstored⟩

theorem Twins.trans (h₁ : Twins H s s₁) (h₂ : Twins H s₁ s₂) : Twins H s s₂ where
  db := h₂.db.trans h₁.db
  changeLog := h₂.changeLog.trans h₁.changeLog
  accountStartNonce := h₂.accountStartNonce.trans h₁.accountStartNonce
  view := h₂.view.trans h₁.view
  clean addr := (h₂.clean addr).trans (h₁.clean addr)

namespace Reads

theorem refl (h : s.Sound H) : Reads H s s := ⟨⟨rfl, rfl, rfl, rfl, fun _ => rfl⟩, h⟩

theorem trans (h₁ : Reads H s s₁) (h₂ : Reads H s₁ s₂) : Reads H s s₂ :=
  ⟨h₁.toTwins.trans h₂.toTwins, h₂.sound⟩

end Reads

/-- What reading may do to the cache at one address. -/
inductive Recached (H : Hasher) (db : StateDB) (addr : Address) : Option Account → Option Account →
    Prop where
  | same (c : Option Account) : Recached H db addr c c
  | evicted {a : Account} (h : a.isUnchanged = true) : Recached H db addr (some a) none
  | loaded {a : StoredAccount} (h : db.account addr = some a) :
    Recached H db addr none (some (.load H a))
  | filled {a a' : Account} (hview : a'.view H db = a.view H db)
    (hflag : a'.isUnchanged = a.isUnchanged) : Recached H db addr (some a) (some a')

theorem reads_of_recached {s' : State} (h : s.Sound H)
    (hcache : ∀ x, Recached H s.db x (s.cache x) (s'.cache x)) (hdb : s'.db = s.db)
    (hlog : s'.changeLog = s.changeLog) (hnonce : s'.accountStartNonce = s.accountStartNonce)
    (habsent : ∀ x, s'.nonExistingAccountsCache x = true → s.db.account x = none) : Reads H s s' := by
  -- a cached account was there before and looks the same, or it is as stored
  have hfrom {x : Address} {b : Account} (hb : s'.cache x = some b) :
      (∃ a, s.cache x = some a ∧ b.view H s.db = a.view H s.db ∧ b.isUnchanged = a.isUnchanged) ∨
        ∃ a, s.db.account x = some a ∧ b = .load H a := by
    have hx := hcache x
    rw [hb] at hx
    generalize s.cache x = c at hx
    cases hx with
    | same => exact .inl ⟨b, rfl, rfl, rfl⟩
    | loaded ha => exact .inr ⟨_, ha, rfl⟩
    | filled hv hf => exact .inl ⟨_, rfl, hv, hf⟩
  have hstored {x : Address} {a : StoredAccount} (ha : s.db.account x = some a) :
      s.db.view H x = some ((Account.load H a).view H s.db) := by rw [StateDB.view, ha, map_some]
  refine ⟨⟨hdb, hlog, hnonce, ?_, ?_⟩, ?_⟩
  · funext x
    have hx := hcache x
    simp only [view, hdb]
    generalize hc : s.cache x = c at hx
    generalize s'.cache x = c' at hx
    cases hx with
    | same => rfl
    | evicted hu => exact h.clean x _ hc hu
    | loaded ha => exact (hstored ha).symm
    | filled hv hf => exact congrArg some hv
  · intro x
    have hx := hcache x
    generalize s.cache x = c at hx
    generalize s'.cache x = c' at hx
    cases hx with
    | same => rfl
    | evicted hu => exact hu.symm
    | loaded _ => rfl
    | filled _ hf => exact hf
  · refine ⟨?_, ?_, ?_, ?_⟩
    · intro x b hb hu
      rw [hdb]
      rcases hfrom hb with ⟨a, ha, hv, hf⟩ | ⟨a, ha, rfl⟩
      · exact hv ▸ h.clean x a ha (hf ▸ hu)
      · exact hstored ha
    · rw [hdb]
      exact habsent
    · intro x b hb
      rw [hdb]
      rcases hfrom hb with ⟨a, ha, hv, -⟩ | ⟨a, ha, rfl⟩
      · rw [hv, h.coded x a ha]
        exact (congrArg AccountView.codeHash hv).symm
      · exact h.stored x _ (hstored ha)
    · rw [hdb]
      exact h.stored

section Eviction
variable {I : State → Prop} (hdrop : ∀ {s : State} {addr : Address} {a : Account}, I s →
  s.cache addr = some a → a.isDirty = false →
  I { s with cache := Function.update s.cache addr none })
include hdrop

theorem evict_rule {s : State} (hs : I s) (addr : Address) : I (s.evict addr) := by
  unfold evict
  cases hc : s.cache addr with
  | none => exact hs
  | some a =>
    dsimp only
    split_ifs with hd
    · exact hs
    · exact hdrop hs hc (Bool.eq_false_iff.mpr hd)

/-- What is kept when an account that is not dirty is dropped, whatever is entered and drawn, is
kept by the whole loop. -/
theorem clearCacheIfTooLarge_rule
    (hfields : ∀ {s : State} (entries : List Address) (random : ℕ → ℕ), I s →
      I { s with unchangedCacheEntries := entries, random := random })
    {s : State} (hs : I s) : I s.clearCacheIfTooLarge := by
  unfold clearCacheIfTooLarge
  generalize s.unchangedCacheEntries.length - 1000 = n
  induction n generalizing s with
  | zero => exact hs
  | succ n ih =>
    rw [Function.iterate_succ_apply]
    apply ih
    unfold evictRandom
    dsimp only
    split
    · exact evict_rule hdrop (hfields _ _ hs) _
    · exact hfields s.unchangedCacheEntries _ hs

end Eviction

section
variable {H : Hasher} {s : State} (h : s.Sound H)
include h

theorem reads_fields (entries : List Address) (random : ℕ → ℕ) (codeSizes : CodeSizeCache) :
    Reads H s { s with unchangedCacheEntries := entries, random := random, codeSizes := codeSizes } :=
  reads_of_recached h (fun _ => .same _) rfl rfl rfl h.absent

theorem reads_clearCacheIfTooLarge : Reads H s s.clearCacheIfTooLarge := by
  refine clearCacheIfTooLarge_rule ?_
    (fun entries random hs => hs.trans (reads_fields hs.sound entries random _)) (.refl h)
  intro s₁ addr a hs ha hd
  refine hs.trans (reads_of_recached hs.sound (fun x => ?_) rfl rfl rfl hs.sound.absent)
  by_cases hx : x = addr
  · subst hx
    simp only [update_self, ha]
    exact .evicted (by simpa [Account.isDirty] using hd)
  · simp only [update_of_ne hx]
    exact .same _

end

theorem cache_clearCacheIfTooLarge (h : s.cache addr = none) :
    s.clearCacheIfTooLarge.cache addr = none := by
  refine clearCacheIfTooLarge_rule (I := fun s => s.cache addr = none) ?_ (fun _ _ hs => hs) h
  intro s₁ x a hs _ _
  by_cases hx : addr = x
  · rw [hx]
    exact update_self ..
  · exact (update_of_ne hx ..).trans hs

theorem account_rule {P : Option Account → State → Prop}
    (hcached : ∀ a, s.cache addr = some a → P (some a) s)
    (hknown : s.cache addr = none → s.nonExistingAccountsCache addr = true → P none s)
    (habsent : s.cache addr = none → s.db.account addr = none →
      P none { s with nonExistingAccountsCache := Function.update s.nonExistingAccountsCache addr true })
    (hload : ∀ st, s.cache addr = none → s.nonExistingAccountsCache addr = false →
      s.db.account addr = some st → P (some (.load H st)) { s.clearCacheIfTooLarge with
        cache := Function.update s.clearCacheIfTooLarge.cache addr (some (.load H st))
        unchangedCacheEntries := s.clearCacheIfTooLarge.unchangedCacheEntries ++ [addr] }) :
    Post (account H addr) s P := by
  unfold account
  simp only [post_bind, post_get]
  cases hc : s.cache addr with
  | some a => exact hcached a hc
  | none =>
    simp only [post_ite, post_pure]
    split_ifs with hn
    · exact hknown hc hn
    · cases hd : s.db.account addr with
      | none => exact habsent hc hd
      | some st => exact hload st hc (Bool.eq_false_iff.mpr hn) hd

theorem account_spec (h : s.Sound H) (addr : Address) :
    Post (account H addr) s fun r s' =>
      Reads H s s' ∧ s'.cache addr = r ∧ s.view H addr = r.map (Account.view H s.db) := by
  have hstored (hc : s.cache addr = none) : s.view H addr = s.db.view H addr := view_of_cache_none hc
  refine account_rule (fun a hc => ⟨.refl h, hc, view_of_cache hc⟩) (fun hc hn => ⟨.refl h, hc, ?_⟩)
    (fun hc hd => ⟨reads_of_recached h (fun _ => .same _) rfl rfl rfl fun x hx => ?_, hc, ?_⟩)
    fun st hc hn hd => ?_
  · rw [hstored hc, StateDB.view, h.absent addr hn]
    rfl
  · by_cases hxa : x = addr
    · exact hxa ▸ hd
    · exact h.absent x (by simpa [update_of_ne hxa] using hx)
  · rw [hstored hc, StateDB.view, hd]
    rfl
  · have hclear := reads_clearCacheIfTooLarge h
    have hnone := cache_clearCacheIfTooLarge hc
    rw [hstored hc, StateDB.view, hd]
    generalize s.clearCacheIfTooLarge = s₁ at hclear hnone
    refine ⟨hclear.trans (reads_of_recached hclear.sound (fun x => ?_) rfl rfl rfl
      hclear.sound.absent), update_self .., rfl⟩
    by_cases hx : x = addr
    · subst hx
      simp only [update_self, hnone]
      exact .loaded (hclear.db ▸ hd)
    · simp only [update_of_ne hx]
      exact .same _

section
variable {H : Hasher} {s : State} (h : s.Sound H) (addr : Address)
include h

theorem addressInUse_spec :
    Post (addressInUse H addr) s fun r s' => r = (s.view H addr).isSome ∧ Reads H s s' := by
  unfold addressInUse
  rw [post_bind]
  refine (account_spec h addr).mono ?_
  rintro r s' ⟨hr, -, hv⟩
  simp [hv, hr]

theorem field_spec {α : Type} (f : AccountView → α) (g : Account → α) (default : α)
    (hfg : ∀ a, f (a.view H s.db) = g a) : Post (do match ← account H addr with
      | some a => pure (g a)
      | none => pure default) s fun r s' => r = ((s.view H addr).map f).getD default ∧ Reads H s s' := by
  rw [post_bind]
  refine (account_spec h addr).mono ?_
  rintro (_ | a) s' ⟨hr, -, hv⟩
  · simp [hv, hr]
  · simp [hv, hfg, hr]

theorem balance_spec :
    Post (balance H addr) s fun r s' => r = ((s.view H addr).map (·.balance)).getD 0 ∧ Reads H s s' :=
  field_spec h addr _ _ _ fun _ => rfl

theorem codeHash_spec :
    Post (codeHash H addr) s fun r s' =>
      r = ((s.view H addr).map (·.codeHash)).getD H.emptySHA3 ∧ Reads H s s' :=
  field_spec h addr _ _ _ fun _ => rfl

theorem accountNonemptyAndExisting_spec :
    Post (accountNonemptyAndExisting H addr) s fun r s' =>
      r = ((s.view H addr).map fun a => !a.isEmpty H).getD false ∧ Reads H s s' :=
  field_spec h addr _ _ _ fun _ => rfl

theorem addressHasCode_spec :
    Post (addressHasCode H addr) s fun r s' =>
      r = ((s.view H addr).map fun a => decide (a.codeHash ≠ H.emptySHA3)).getD false ∧ Reads H s s' :=
  field_spec h addr _ _ _ fun _ => rfl

theorem getNonce_spec :
    Post (getNonce H addr) s fun r s' =>
      r = ((s.view H addr).map (·.nonce)).getD s.accountStartNonce ∧ Reads H s s' := by
  unfold getNonce
  rw [post_bind]
  refine (account_spec h addr).mono ?_
  rintro (_ | a) s' ⟨hr, -, hv⟩
  · simp only [post_bind, post_get, post_pure, hv, hr.accountStartNonce]
    exact ⟨rfl, hr⟩
  · simp [hv, hr, Account.view]

theorem reads_update {a : Account} (ha : s.cache addr = some a) (f : Account → Account)
    (hview : (f a).view H s.db = a.view H s.db) (hflag : (f a).isUnchanged = a.isUnchanged) :
    Post (update H addr f) s fun _ s' => Reads H s s' ∧ s'.cache addr = some (f a) := by
  simp only [update, post_modify, ha, getD_some, update_self, and_true]
  refine reads_of_recached h (fun x => ?_) rfl rfl rfl h.absent
  by_cases hx : x = addr
  · subst hx
    simp only [update_self, ha]
    exact .filled hview hflag
  · simp only [update_of_ne hx]
    exact .same _

theorem storage_spec (key : U256) :
    Post (storage H addr key) s fun r s' =>
      r = ((s.view H addr).map (·.storage key)).getD 0 ∧ Reads H s s' ∧
        (s'.cache addr).isSome = (s.view H addr).isSome := by
  unfold storage
  rw [post_bind]
  refine (account_spec h addr).mono ?_
  rintro (_ | a) s' ⟨hr, hc, hv⟩
  · simp [hv, hr, hc]
  · cases ho : a.storageOverlay key with
    | some v => simp [hv, hr, hc, ho, Account.view]
    | none =>
      simp only [ho, post_bind, post_get]
      refine (reads_update hr.sound addr hc
        (·.setStorageCache key (s'.db.storage a.storageRoot key)) ?_ rfl).mono ?_
      · refine AccountView.ext rfl rfl rfl rfl rfl rfl (funext fun k => ?_)
        by_cases hk : k = key
        · simp [Account.view, Account.setStorageCache, hk, ho]
        · simp [Account.view, Account.setStorageCache, update_of_ne hk]
      · rintro _ s'' ⟨hr', hc'⟩
        simp [hv, hc', hr.trans hr', Account.view, ho, hr.db]

theorem code_spec :
    Post (code H addr) s fun r s' =>
      r = ((s.view H addr).map (·.code)).getD [] ∧ Reads H s s' ∧
        (s'.cache addr).isSome = (s.view H addr).isSome := by
  unfold code
  rw [post_bind]
  refine (account_spec h addr).mono ?_
  rintro (_ | a) s' ⟨hr, hc, hv⟩
  · simp [hv, hr, hc]
  · simp only [post_ite, post_pure]
    split_ifs with hempty hcode
    · simp [hv, hr, hc, Account.view, hempty]
    · simp only [post_bind, post_get]
      refine (reads_update hr.sound addr hc (·.noteCode (s'.db.code a.codeHash)) ?_ rfl).mono ?_
      · refine AccountView.ext rfl rfl rfl rfl rfl ?_ rfl
        by_cases hd : s'.db.code a.codeHash = []
        · simp [Account.view, Account.noteCode, hcode, hd]
        · simp [Account.view, Account.noteCode, hcode, hd]
      · rintro _ s'' ⟨hr', hc'⟩
        have hr'' := hr.trans hr'
        simp only [storeCodeSize, post_modify, post_pure, hv, hc']
        exact ⟨by simp [Account.view, hempty, hcode, hr.db],
          hr''.trans (reads_fields hr''.sound ..), rfl⟩
    · simp [hv, hr, hc, Account.view, hempty, hcode]

/-- What can be read at the address is the same in both states. -/
structure ReadsAlike (H : Hasher) (addr : Address) (s s' : State) : Prop where
  balance : ((State.balance H addr).run s').1 = ((State.balance H addr).run s).1
  getNonce : ((State.getNonce H addr).run s').1 = ((State.getNonce H addr).run s).1
  storage : ∀ key, ((State.storage H addr key).run s').1 = ((State.storage H addr key).run s).1
  code : ((State.code H addr).run s').1 = ((State.code H addr).run s).1
  codeHash : ((State.codeHash H addr).run s').1 = ((State.codeHash H addr).run s).1
  addressInUse : ((State.addressInUse H addr).run s').1 = ((State.addressInUse H addr).run s).1
  accountNonemptyAndExisting : ((State.accountNonemptyAndExisting H addr).run s').1 =
    ((State.accountNonemptyAndExisting H addr).run s).1

/-- Two states that look the same at an address, but for the root of its storage, are read alike
there. -/
theorem reads_agree {s' : State} (h' : s'.Sound H)
    (hnonce : s'.accountStartNonce = s.accountStartNonce) (root : AccountView → H256)
    (hview : s'.view H addr = (s.view H addr).map fun w => { w with storageRoot := root w }) :
    ReadsAlike H addr s s' := by
  refine ⟨?_, ?_, fun key => ?_, ?_, ?_, ?_, ?_⟩
  · rw [(balance_spec h' addr).1, (balance_spec h addr).1, hview, map_map]
    rfl
  · rw [(getNonce_spec h' addr).1, (getNonce_spec h addr).1, hview, hnonce, map_map]
    rfl
  · rw [(storage_spec h' addr key).1, (storage_spec h addr key).1, hview, map_map]
    rfl
  · rw [(code_spec h' addr).1, (code_spec h addr).1, hview, map_map]
    rfl
  · rw [(codeHash_spec h' addr).1, (codeHash_spec h addr).1, hview, map_map]
    rfl
  · rw [(addressInUse_spec h' addr).1, (addressInUse_spec h addr).1, hview, isSome_map]
  · rw [(accountNonemptyAndExisting_spec h' addr).1, (accountNonemptyAndExisting_spec h addr).1,
      hview, map_map]
    rfl

/-- The size may come from a cache shared by all states, so it is not a function of the view. -/
theorem codeSize_spec : Post (codeSize H addr) s fun _ s' => Reads H s s' := by
  unfold codeSize
  rw [post_bind]
  refine (account_spec h addr).mono ?_
  rintro (_ | a) s' ⟨hr, hc, hv⟩
  · exact hr
  · simp only [post_ite, post_bind, post_get, post_pure]
    split_ifs
    · exact hr
    · split
      · exact hr
      · simp only [post_bind, post_pure]
        refine (code_spec hr.sound addr).mono ?_
        rintro c s'' ⟨-, hr', -⟩
        have hr'' := hr.trans hr'
        exact hr''.trans (reads_fields hr''.sound ..)

end

end State
end Vapory
