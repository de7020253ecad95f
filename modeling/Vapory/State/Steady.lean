import Vapory.State.Rollback

/-! Invariants of the state. The mutators are made of a few steps; an invariant that these keep is
kept by the mutators. -/
namespace Vapory

/-- `b` is as alive as `a` is, and has its code where `a` has it. -/
structure Account.Alike (a b : Account) : Prop where
  isAlive : b.isAlive = a.isAlive
  hasNewCode : b.hasNewCode = a.hasNewCode
  codeHash : b.codeHash = a.codeHash
  codeCache : b.codeCache = a.codeCache

namespace State

/-- `I` is kept by what is done to the cache and to the log. -/
structure Steady (H : Hasher) (I : State → Prop) : Prop where
  fields : ∀ {s : State} (entries : List Address) (random : ℕ → ℕ), I s →
    I { s with unchangedCacheEntries := entries, random := random }
  drop : ∀ {s : State} (addr : Address), I s → I { s with cache := Function.update s.cache addr none }
  absent : ∀ {s : State} {addr : Address}, I s → s.cache addr = none →
    I { s with nonExistingAccountsCache := Function.update s.nonExistingAccountsCache addr true }
  load : ∀ {s : State} {addr : Address} {st : StoredAccount}, I s →
    s.nonExistingAccountsCache addr = false →
    s.db.account addr = some st →
      I { s with cache := Function.update s.cache addr (some (.load H st)) }
  replace : ∀ {s : State} {addr : Address} {a b : Account}, I s → s.cache addr = some a →
    a.Alike b → I { s with cache := Function.update s.cache addr (some b) }
  create : ∀ {s : State} (addr : Address) (nonce balance : U256), I s →
    I { s with
      cache := Function.update s.cache addr (some (.new H nonce balance))
      nonExistingAccountsCache := Function.update s.nonExistingAccountsCache addr false }
  log : ∀ {s : State} {c : Change}, I s → (∀ x old, c ≠ .code x old) →
    I { s with changeLog := c :: s.changeLog }

namespace Steady
variable {H : Hasher} {I : State → Prop} (h : Steady H I) {s : State}
include h

theorem clearCacheIfTooLarge (hs : I s) :
    I s.clearCacheIfTooLarge ∧ s.clearCacheIfTooLarge.db = s.db ∧
      s.clearCacheIfTooLarge.nonExistingAccountsCache = s.nonExistingAccountsCache := by
  have hstart : I s ∧ s.db = s.db ∧ s.nonExistingAccountsCache = s.nonExistingAccountsCache :=
    ⟨hs, rfl, rfl⟩
  refine clearCacheIfTooLarge_rule
    (I := fun s' => I s' ∧ s'.db = s.db ∧ s'.nonExistingAccountsCache = s.nonExistingAccountsCache)
    ?_ ?_ hstart
  · intro s₁ addr a hs₁ _ _
    exact ⟨h.drop addr hs₁.1, hs₁.2⟩
  · intro s₁ entries random hs₁
    exact ⟨h.fields entries random hs₁.1, hs₁.2⟩

theorem account (hs : I s) (addr : Address) :
    Post (State.account H addr) s fun r s' => I s' ∧ s'.cache addr = r := by
  refine account_rule (fun a hc => ⟨hs, hc⟩) (fun hc _ => ⟨hs, hc⟩)
    (fun hc _ => ⟨h.absent hs hc, hc⟩) fun st _ hn hd => ?_
  obtain ⟨hclear, hdb, habsent⟩ := h.clearCacheIfTooLarge hs
  generalize s.clearCacheIfTooLarge = s₁ at hclear hdb habsent
  have hfields := h.fields (s₁.unchangedCacheEntries ++ [addr]) s₁.random hclear
  exact ⟨h.load (s := { s₁ with unchangedCacheEntries := s₁.unchangedCacheEntries ++ [addr] })
    hfields ((congrFun habsent addr).trans hn) (hdb ▸ hd), Function.update_self ..⟩

theorem keeps_account (addr : Address) : KeepsS I (State.account H addr) :=
  fun _ hs => (h.account hs addr).1

theorem keeps_log {c : Change} (hc : ∀ x old, c ≠ .code x old) : KeepsS I (State.log c) :=
  fun _ hs => h.log hs hc

theorem keeps_createAccount (addr : Address) (nonce balance : U256) :
    KeepsS I (createAccount H addr (.new H nonce balance)) := by
  intro s hs
  exact h.log (h.create addr nonce balance hs) fun x old hx => by cases hx

omit h in
theorem keeps_requireAccountStartNonce : KeepsE I requireAccountStartNonce := by
  intro s hs
  simp only [requireAccountStartNonce, postE_bind, postE_get, postE_ite, postE_pure, postE_throw]
  split_ifs
  · exact hs
  · exact hs

theorem update {addr : Address} {a : Account} (hs : I s) (hc : s.cache addr = some a)
    (f : Account → Account) (hf : a.Alike (f a)) : Post (State.update H addr f) s fun _ s' => I s' ∧
    s'.cache addr = some (f a) := by
  simp only [State.update, post_modify, hc, Option.getD_some, Function.update_self, and_true]
  exact h.replace hs hc hf

theorem keeps_incNonce (addr : Address) : KeepsE I (incNonce H addr) := by
  intro s hs
  unfold incNonce
  simp only [postE_bind, postE_lift]
  refine (h.account hs addr).mono ?_
  rintro (_ | a) s₁ ⟨h₁, hc⟩
  · exact (keeps_requireAccountStartNonce.bind fun nonce =>
      (h.keeps_createAccount addr (nonce + 1) 0).lift) s₁ h₁
  · simp only [postE_bind, postE_lift]
    refine (h.update h₁ hc Account.incNonce ⟨rfl, rfl, rfl, rfl⟩).mono fun _ s₂ h₂ => ?_
    exact h.log h₂.1 fun x old hx => by cases hx

theorem keeps_setNonce (addr : Address) (newNonce : U256) : KeepsS I (setNonce H addr newNonce) := by
  intro s hs
  unfold setNonce
  rw [post_bind]
  refine (h.account hs addr).mono ?_
  rintro (_ | a) s₁ ⟨h₁, hc⟩
  · exact h.keeps_createAccount addr newNonce 0 s₁ h₁
  · simp only [post_bind]
    refine (h.update h₁ hc (fun a => a.setNonce newNonce) ⟨rfl, rfl, rfl, rfl⟩).mono fun _ s₂ h₂ => ?_
    exact h.log h₂.1 fun x old hx => by cases hx

theorem keeps_addBalance (addr : Address) (amount : U256) : KeepsE I (addBalance H addr amount) := by
  have hlast : KeepsE I (if amount ≠ 0 then liftM (State.log (.balance addr amount))
      else pure () : StateOp PUnit) := by
    split_ifs
    · exact (h.keeps_log fun x old hx => by cases hx).lift
    · exact keepsE_pure _
  intro s hs
  unfold addBalance
  rw [postE_bind, postE_lift]
  refine (h.account hs addr).mono ?_
  rintro (_ | a) s₁ ⟨h₁, hc⟩
  · exact (keeps_requireAccountStartNonce.bind fun nonce =>
      (h.keeps_createAccount addr nonce amount).lift.bind fun _ => hlast) s₁ h₁
  · have hadd {s₂ : State} (h₂ : I s₂) (hc₂ : s₂.cache addr = some a) :
        PostE (do
          liftM (State.update H addr fun a => a.addBalance amount)
          if amount ≠ 0 then liftM (State.log (.balance addr amount)) else pure () : StateOp PUnit)
            s₂ (fun _ => I) I := by
      rw [postE_bind, postE_lift]
      refine (h.update h₂ hc₂ (fun a => a.addBalance amount) ⟨rfl, rfl, rfl, rfl⟩).mono fun _ s₃ h₃ => ?_
      exact hlast s₃ h₃.1
    dsimp only
    by_cases htouch : !a.isDirty ∧ a.isEmpty H
    · rw [if_pos htouch, postE_bind, postE_lift]
      exact hadd (h.log h₁ fun x old hx => by cases hx) hc
    · rw [if_neg htouch]
      exact hadd h₁ hc

theorem keeps_subBalance (addr : Address) (value : U256) : KeepsE I (subBalance H addr value) := by
  unfold subBalance
  split_ifs
  · exact keepsE_pure _
  · refine (h.keeps_account addr).lift.bind fun r => ?_
    cases r with
    | none => exact fun s hs => hs
    | some a =>
      dsimp only
      split_ifs
      · exact fun s hs => hs
      · exact h.keeps_addBalance addr _

theorem keeps_createContract (addr : Address) : KeepsE I (createContract H addr) :=
  keeps_requireAccountStartNonce.bind fun nonce => (h.keeps_createAccount addr nonce 0).lift

theorem keeps_storage (addr : Address) (key : U256) : KeepsS I (storage H addr key) := by
  intro s hs
  unfold storage
  rw [post_bind]
  refine (h.account hs addr).mono ?_
  rintro (_ | a) s₁ ⟨h₁, hc⟩
  · exact h₁
  · cases ho : a.storageOverlay key with
    | some v =>
      simp only [ho]
      exact h₁
    | none =>
      simp only [ho, post_bind, post_get]
      refine (h.update h₁ hc (fun b => b.setStorageCache key (s₁.db.storage a.storageRoot key))
        ⟨rfl, rfl, rfl, rfl⟩).mono ?_
      exact fun _ s₂ h₂ => h₂.1

theorem keeps_field {α : Type} (addr : Address) {f : Account → α} {default : StateM State α}
    (hd : KeepsS I default) : KeepsS I (do match ← State.account H addr with
      | some a => pure (f a)
      | none => default) := by
  refine (h.keeps_account addr).bind fun o => ?_
  cases o with
  | none => exact hd
  | some a => exact keepsS_pure _

theorem keeps_read (hcode : ∀ addr, KeepsS I (code H addr))
    (hsize : ∀ addr, KeepsS I (codeSize H addr)) (r : Read) : KeepsS I (r.exec H) := by
  have hdone {α : Type} {m : StateM State α} (hm : KeepsS I m) : KeepsS I (do let _ ← m) :=
    hm.bind fun _ => keepsS_pure _
  cases r with
  | addressInUse addr => exact hdone ((h.keeps_account addr).bind fun _ => keepsS_pure _)
  | accountNonemptyAndExisting addr => exact hdone (h.keeps_field addr (keepsS_pure _))
  | addressHasCode addr => exact hdone (h.keeps_field addr (keepsS_pure _))
  | balance addr => exact hdone (h.keeps_field addr (keepsS_pure _))
  | getNonce addr => exact hdone (h.keeps_field addr fun _ hs => hs)
  | codeHash addr => exact hdone (h.keeps_field addr (keepsS_pure _))
  | storage addr key => exact hdone (h.keeps_storage addr key)
  | code addr => exact hdone (hcode addr)
  | codeSize addr => exact hdone (hsize addr)

theorem op (hcode : ∀ addr, KeepsS I (code H addr)) (hsize : ∀ addr, KeepsS I (codeSize H addr))
    (hs : I s) (o : Op) (hstorage : ∀ addr key value, o = .setStorage addr key value →
      Post (setStorage H addr key value) s fun _ => I)
    (hset : ∀ addr newCode, o = .setCode addr newCode → Post (setCode H addr newCode) s fun _ => I)
    (hback : ∀ savepoint, o = .rollback savepoint → Post (rollback H savepoint) s fun _ => I) :
    Post (o.exec H) s fun _ => I := by
  have hdone {ε α : Type} {m : ExceptT ε (StateM State) α} (hm : KeepsE I m) :
    Post (do let _ ← m.run) s fun _ => I :=
    hm.run s hs
  cases o with
  | addBalance addr amount => exact hdone (h.keeps_addBalance addr amount)
  | subBalance addr value => exact hdone (h.keeps_subBalance addr value)
  | transferBalance src dst value =>
    exact hdone ((h.keeps_subBalance src value).bind fun _ => h.keeps_addBalance dst value)
  | incNonce addr => exact hdone (h.keeps_incNonce addr)
  | setNonce addr newNonce => exact h.keeps_setNonce addr newNonce s hs
  | createContract addr => exact hdone (h.keeps_createContract addr)
  | setStorage addr key value => exact hstorage addr key value rfl
  | setCode addr newCode => exact hset addr newCode rfl
  | read r => exact h.keeps_read hcode hsize r s hs
  | rollback savepoint => exact hback savepoint rfl

end Steady
end State
end Vapory
