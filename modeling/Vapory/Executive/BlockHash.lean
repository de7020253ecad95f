import Vapory.Executive.Nested

/-! `BLOCKHASH`: from some block on it runs a transaction on the state and then empties the
cache, while the changes of the transaction stay in the log. -/
namespace Vapory
open Vvm State List

/-- Whatever `m` does, the log keeps what it had. A class, so that instances follow the way `m`
is built. -/
class LogGrows {α : Type} (m : Process State α) : Prop where
  grows : ∀ s, Ends m s fun _ s' => s.changeLog <:+ s'.changeLog

class OpLogGrows {α : Type} (m : StateM State α) : Prop where
  grows : ∀ s, Post m s fun _ s' => s.changeLog <:+ s'.changeLog

class ThrowLogGrows {α : Type} (m : StateOp α) : Prop where
  grows : ∀ s, PostE m s (fun _ s' => s.changeLog <:+ s'.changeLog) fun s' =>
    s.changeLog <:+ s'.changeLog

section
variable {α β : Type}

instance (a : α) : OpLogGrows (pure a) := ⟨fun s => suffix_refl s.changeLog⟩
instance : OpLogGrows (get : StateM State State) := ⟨fun s => suffix_refl s.changeLog⟩

instance {m : StateM State α} {f : α → StateM State β} [hm : OpLogGrows m]
    [hf : ∀ a, OpLogGrows (f a)] : OpLogGrows (m >>= f) :=
  ⟨fun s => (hm.grows s).trans ((hf _).grows _)⟩

instance {c : Prop} [Decidable c] {m m' : StateM State α} [OpLogGrows m] [OpLogGrows m'] :
    OpLogGrows (if c then m else m') := by
  split_ifs <;> infer_instance

theorem OpLogGrows.option {m : StateM State (Option α)} {f : Option α → StateM State β} [OpLogGrows m]
    (hnone : OpLogGrows (f none)) (hsome : ∀ a, OpLogGrows (f (some a))) : OpLogGrows (m >>= f) := by
  have (o : Option α) : OpLogGrows (f o) := by
    cases o with
    | none => exact hnone
    | some a => exact hsome a
  infer_instance

instance (a : α) : ThrowLogGrows (pure a) := ⟨fun s => suffix_refl s.changeLog⟩
instance : ThrowLogGrows (get : StateOp State) := ⟨fun s => suffix_refl s.changeLog⟩
instance (e : StateError) : ThrowLogGrows (throw e : StateOp α) :=
  ⟨fun s => suffix_refl s.changeLog⟩

instance {m : StateM State α} [hm : OpLogGrows m] : ThrowLogGrows (liftM m : StateOp α) :=
  ⟨fun s => hm.grows s⟩

instance {m : StateOp α} {f : α → StateOp β} [hm : ThrowLogGrows m]
    [hf : ∀ a, ThrowLogGrows (f a)] : ThrowLogGrows (m >>= f) := by
  refine ⟨fun s => postE_bind.mpr ((hm.grows s).mono (fun a s₁ h₁ => ?_) fun _ h => h)⟩
  exact ((hf a).grows s₁).mono (fun _ _ h => h₁.trans h) fun _ h => h₁.trans h

theorem ThrowLogGrows.option {m : StateOp (Option α)} {f : Option α → StateOp β} [ThrowLogGrows m]
    (hnone : ThrowLogGrows (f none)) (hsome : ∀ a, ThrowLogGrows (f (some a))) :
    ThrowLogGrows (m >>= f) := by
  have (o : Option α) : ThrowLogGrows (f o) := by
    cases o with
    | none => exact hnone
    | some a => exact hsome a
  infer_instance

instance {c : Prop} [Decidable c] {m m' : StateOp α} [ThrowLogGrows m] [ThrowLogGrows m'] :
    ThrowLogGrows (if c then m else m') := by
  split_ifs <;> infer_instance

instance (a : α) : LogGrows (pure a : Process State α) :=
  ⟨fun s => (ends_pure a).mpr (suffix_refl s.changeLog)⟩
instance (r : Stop) : LogGrows (stop r : Process State α) := ⟨fun _ => (ends_stop r).mpr trivial⟩

instance {m : StateM State α} [hm : OpLogGrows m] : LogGrows (liftM m : Process State α) :=
  ⟨fun s => ends_lift.mpr (hm.grows s)⟩

instance {m : StateOp α} [hm : ThrowLogGrows m] : LogGrows (uncaught m) :=
  ⟨fun s => ends_uncaught.mpr ((hm.grows s).mono (fun _ _ h => h) fun _ _ => trivial)⟩

instance {m : Process State α} {f : α → Process State β} [hm : LogGrows m]
    [hf : ∀ a, LogGrows (f a)] : LogGrows (m >>= f) :=
  ⟨fun s => (hm.grows s).bind fun a s₁ h₁ => ((hf a).grows s₁).mono fun _ _ h => h₁.trans h⟩

instance {c : Prop} [Decidable c] {m m' : Process State α} [LogGrows m] [LogGrows m'] :
    LogGrows (if c then m else m') := by
  split_ifs <;> infer_instance

end

namespace State
variable (H : Hasher)

theorem changeLog_clearCacheIfTooLarge (s : State) : s.clearCacheIfTooLarge.changeLog = s.changeLog :=
  clearCacheIfTooLarge_rule (I := fun s' => s'.changeLog = s.changeLog) (fun hs _ _ => hs)
    (fun _ _ hs => hs) rfl

theorem changeLog_account (addr : Address) (s : State) :
    Post (account H addr) s fun _ s' => s'.changeLog = s.changeLog := by
  refine account_rule (fun _ _ => rfl) (fun _ _ => rfl) (fun _ _ => rfl) fun st _ _ _ => ?_
  dsimp only
  exact changeLog_clearCacheIfTooLarge s

instance (addr : Address) : OpLogGrows (account H addr) :=
  ⟨fun s => (changeLog_account H addr s).mono fun _ _ h => h ▸ suffix_refl _⟩

instance (addr : Address) (f : Account → Account) : OpLogGrows (update H addr f) :=
  ⟨fun s => suffix_refl s.changeLog⟩
instance (c : Change) : OpLogGrows (log c) := ⟨fun s => suffix_cons c s.changeLog⟩
instance (hash : H256) (size : ℕ) : OpLogGrows (storeCodeSize hash size) :=
  ⟨fun s => suffix_refl s.changeLog⟩

instance : ThrowLogGrows requireAccountStartNonce := by
  unfold requireAccountStartNonce; infer_instance

instance (addr : Address) : OpLogGrows (addressInUse H addr) := by
  unfold addressInUse; infer_instance

instance (addr : Address) : OpLogGrows (balance H addr) :=
  .option inferInstance fun _ => inferInstance

instance (addr : Address) (key : U256) : OpLogGrows (storage H addr key) := by
  refine .option inferInstance fun a => ?_
  dsimp only
  cases a.storageOverlay key <;> infer_instance

instance (addr : Address) : OpLogGrows (code H addr) := by
  refine .option inferInstance fun a => ?_
  dsimp only
  infer_instance

instance (addr : Address) : OpLogGrows (getNonce H addr) := by
  refine .option ?_ fun _ => ?_ <;> dsimp only <;> infer_instance

instance (addr : Address) : OpLogGrows (addressHasCode H addr) :=
  .option inferInstance fun _ => inferInstance
instance (addr : Address) : OpLogGrows (codeHash H addr) :=
  .option inferInstance fun _ => inferInstance

instance (addr : Address) : OpLogGrows (accountNonemptyAndExisting H addr) :=
  .option inferInstance fun _ => inferInstance

instance (addr : Address) : OpLogGrows (codeSize H addr) := by
  refine .option inferInstance fun a => ?_
  dsimp only
  have (o : Option ℕ) : OpLogGrows (match o with
      | some size => pure size
      | none => do
        let size := (← code H addr).length
        storeCodeSize a.codeHash size
        return size) := by
    cases o <;> dsimp only <;> infer_instance
  infer_instance

instance (addr : Address) (a : Account) : OpLogGrows (createAccount H addr a) := by
  refine ⟨fun s => ?_⟩
  simp only [createAccount, update, log, post_bind, post_modify]
  exact suffix_cons ..

instance (addr : Address) : ThrowLogGrows (incNonce H addr) := by
  refine .option ?_ fun _ => ?_ <;> dsimp only <;> infer_instance

instance (addr : Address) (nonce : U256) : OpLogGrows (setNonce H addr nonce) := by
  refine .option ?_ fun _ => ?_ <;> dsimp only <;> infer_instance

instance (addr : Address) (amount : U256) : ThrowLogGrows (addBalance H addr amount) := by
  refine .option ?_ fun _ => ?_ <;> dsimp only <;> infer_instance

instance (addr : Address) (value : U256) : ThrowLogGrows (subBalance H addr value) := by
  unfold subBalance
  have : ThrowLogGrows (do match ← account H addr with
      | none => throw .NotEnoughCash
      | some a =>
        if a.balance < value then throw .NotEnoughCash
        addBalance H addr (0 - value)) := by
    refine .option ?_ fun _ => ?_ <;> dsimp only <;> infer_instance
  dsimp only
  infer_instance

instance (src dst : Address) (value : U256) : ThrowLogGrows (transferBalance H src dst value) := by
  unfold transferBalance
  infer_instance

instance (addr : Address) (key value : U256) : OpLogGrows (setStorage H addr key value) := by
  unfold setStorage
  infer_instance

instance (addr : Address) : OpLogGrows (clearStorage H addr) := by
  unfold clearStorage
  dsimp only
  infer_instance

instance (addr : Address) (newCode : Bytes) : OpLogGrows (setCode H addr newCode) := by
  unfold setCode
  infer_instance

instance (addr : Address) : OpLogGrows (kill H addr) := .option inferInstance fun _ => inferInstance

theorem changeLog_rollback {older newer : List Change} {s : State} (h : s.changeLog = newer ++ older) :
    Post (rollback H older.length) s fun _ s' => s'.changeLog = older := by
  unfold rollback
  rw [post_bind, post_get, h, length_append, Nat.add_sub_cancel]
  induction newer generalizing s with
  | nil => exact h
  | cons c newer ih =>
    rw [length_cons, undoNewest, post_bind, post_get, h]
    simp only [cons_append, post_bind, post_modify]
    exact ih rfl

end State
/-- Whatever a run does, the log keeps what it had. -/
def VMRun.LogGrows (run : VMRun) : Prop := ∀ E gas, Vapory.LogGrows (run E gas)

namespace Executive
variable {H : Hasher} {S : SealEngineFace} {run : VMRun}

instance (e : Executive) (sender : Address) : LogGrows (e.incSenderNonce H S sender) := by
  unfold incSenderNonce
  infer_instance

variable {older : List Change} {s : State} {e : Executive}

theorem changeLog_revert (hpoint : e.savepoint = older.length)
    (h : older <:+ s.changeLog) : Ends (e.revert H) s fun e' s' => s'.changeLog = older ∧
    e'.savepoint = e.savepoint := by
  obtain ⟨newer, hlog⟩ := h
  unfold revert
  rw [hpoint]
  simp only [ends_bind, ends_lift, ends_pure]
  exact (changeLog_rollback H hlog.symm).mono fun _ _ h' => ⟨h', trivial⟩

/-- The executive knows the log at its entry, which the log still has. -/
def Marked (older : List Change) (r : Bool × Executive) (s : State) : Prop :=
  older <:+ s.changeLog ∧ r.2.savepoint = older.length

theorem marked_then {α : Type} {m : Process State α} [hm : LogGrows m]
    (h : older <:+ s.changeLog) {f : α → Process State (Bool × Executive)}
    (hf : ∀ a s', older <:+ s'.changeLog → Ends (f a) s' (Marked older)) :
    Ends (m >>= f) s (Marked older) :=
  (hm.grows s).bind fun a s' h' => hf a s' (h.trans h')

theorem marked_enterCall (e : Executive) (p : CallParameters) (gasPrice : U256) (origin : Address)
    (s : State) : Ends (e.enterCall H S p gasPrice origin) s (Marked s.changeLog) := by
  have h := suffix_refl s.changeLog
  unfold enterCall
  rw [ends_bind, ends_get]
  dsimp only
  split_ifs
  · exact marked_then h fun _ _ h₁ => (ends_pure _).mpr ⟨h₁, rfl⟩
  · exact (ends_pure _).mpr ⟨h, rfl⟩
  · exact (ends_pure _).mpr ⟨h, rfl⟩
  · exact marked_then h fun _ _ h₁ => (ends_pure _).mpr ⟨h₁, rfl⟩
  · refine marked_then h fun hasCode s₁ h₁ => ?_
    split_ifs
    · refine marked_then h₁ fun _ s₂ h₂ => marked_then h₂ fun _ s₃ h₃ => ?_
      rw [ends_bind, ends_pure]
      exact marked_then h₃ fun _ _ h₄ => (ends_pure _).mpr ⟨h₄, rfl⟩
    · rw [ends_bind, ends_pure]
      exact marked_then h₁ fun _ _ h₂ => (ends_pure _).mpr ⟨h₂, rfl⟩

instance (addr : Address) : OpLogGrows (accountAlreadyExist H addr) := by
  unfold accountAlreadyExist
  infer_instance

instance (e : Executive) (sender : Address) (endowment : U256) :
    LogGrows (e.endow H S sender endowment) := by
  unfold endow
  infer_instance

theorem marked_enterCreate (e : Executive) (sender : Address) (endowment gasPrice gas : U256)
    (init : Bytes) (origin : Address) (s : State) :
    Ends (e.enterCreate H S sender endowment gasPrice gas init origin) s (Marked s.changeLog) := by
  unfold enterCreate
  rw [ends_bind, ends_get]
  refine marked_then (suffix_refl s.changeLog) fun exists_ s₁ h₁ => ?_
  split_ifs
  · have hpoint : s.savepoint = s.changeLog.length := rfl
    rw [ends_bind]
    refine (changeLog_revert hpoint h₁).mono fun e' s₂ h₂ => (ends_pure _).mpr ⟨?_, h₂.2⟩
    rw [h₂.1]
  · exact marked_then h₁ fun _ s₂ h₂ => (ends_pure _).mpr ⟨h₂, rfl⟩
  · exact marked_then h₁ fun _ s₂ h₂ => (ends_pure _).mpr ⟨h₂, rfl⟩

theorem marked_executeCreate (e : Executive) (sender : Address) (endowment gasPrice gas : U256)
    (init : Bytes) (origin : Address) (s : State) :
    Ends (e.executeCreate H S sender endowment gasPrice gas init origin) s fun r s' =>
      ∃ older, s.changeLog <:+ older ∧ Marked older r s' := by
  unfold executeCreate
  rw [ends_bind]
  refine (LogGrows.grows s).mono fun _ s₁ h₁ => ?_
  exact (marked_enterCreate e sender endowment gasPrice gas init origin s₁).mono fun _ _ h =>
    ⟨_, h₁, h⟩

theorem marked_createOpcode (e : Executive) (sender : Address) (endowment gasPrice gas : U256)
    (init : Bytes) (origin : Address) (s : State) :
    Ends (e.createOpcode H S sender endowment gasPrice gas init origin) s fun r s' =>
      ∃ older, s.changeLog <:+ older ∧ Marked older r s' := by
  unfold createOpcode
  rw [ends_bind]
  refine (LogGrows.grows s).mono fun nonce s₁ h₁ => ?_
  cases rlpSenderNonce sender nonce with
  | error _ => exact (ends_stop _).mpr trivial
  | ok rlp =>
    exact (marked_executeCreate _ sender endowment gasPrice gas init origin s₁).mono fun _ _ ⟨older, h, hm⟩ =>
      ⟨older, h₁.trans h, hm⟩

theorem marked_call (e : Executive) (p : CallParameters) (gasPrice : U256) (origin : Address)
    (s : State) : Ends (e.call H S p gasPrice origin) s fun r s' => ∃ older, s.changeLog <:+ older ∧
    Marked older r s' := by
  have henter {s₁ : State} (h₁ : s.changeLog <:+ s₁.changeLog) :
    Ends (e.enterCall H S p gasPrice origin) s₁ fun r s' =>
      ∃ older, s.changeLog <:+ older ∧ Marked older r s' :=
    (marked_enterCall e p gasPrice origin s₁).mono fun _ _ h => ⟨_, h₁, h⟩
  unfold call
  simp only [ends_ite, ends_bind]
  split_ifs
  · exact (LogGrows.grows s).mono fun _ s₁ h₁ => henter h₁
  · exact henter (suffix_refl _)

/-- What follows a run goes back to the savepoint at most. -/
theorem changeLog_settle (hpoint : e.savepoint = older.length) (addr : Address)
    (kept : Except VMException (Bytes × U256)) (h : older <:+ s.changeLog) :
    Ends (e.settle H addr kept) s fun _ s' => older <:+ s'.changeLog := by
  have hrevert (e' : Executive) (hpoint' : e'.savepoint = older.length) :
      Ends (e'.revert H) s fun _ s' => older <:+ s'.changeLog :=
    (changeLog_revert hpoint' h).mono fun _ s' h' => h'.1 ▸ suffix_refl _
  rcases kept with ex | ⟨out, gas⟩
  · cases ex
    case RevertInstruction output =>
      simp only [settle, ends_bind, ends_pure]
      exact hrevert e hpoint
    all_goals exact hrevert _ hpoint
  · simp only [settle, ends_ite, ends_bind, ends_lift, ends_pure]
    split_ifs
    · exact (OpLogGrows.grows s).mono fun _ _ h' => h.trans h'
    · exact h

theorem changeLog_go (hrun : run.LogGrows) {r : Bool × Executive}
    (h : Marked older r s) : Ends (r.2.go H S run) s fun _ s' => older <:+ s'.changeLog := by
  obtain ⟨hlog, hpoint⟩ := h
  unfold go
  cases r.2.ext with
  | none => exact (ends_pure _).mpr hlog
  | some ext =>
    have hrest {s₁ : State} (h₁ : older <:+ s₁.changeLog) : Ends (run ext r.2.gas) s₁ fun a s₂ => ∀ kept,
        Ends (settle H { r.2 with gas := a.2.1, ext := some { ext with sub := a.2.2 } }
          ext.myAddress kept) s₂ fun _ s' => older <:+ s'.changeLog :=
      ((hrun ext r.2.gas).grows s₁).mono fun a s₂ h₂ kept =>
        changeLog_settle (by exact hpoint) _ kept (h₁.trans h₂)
    simp only [ends_ite, ends_bind, ends_lift, ends_pure]
    split_ifs
    · exact (OpLogGrows.grows s).mono fun _ s₁ h₁ => (hrest (hlog.trans h₁)).mono fun _ _ h₂ => h₂ _
    · exact (hrest hlog).mono fun _ _ h₂ => h₂ _

-- the instances for long computations are large terms
set_option synthInstance.maxSize 4096

instance (e : Executive) (t : Transaction) : LogGrows (e.initialize_ H S t) := by
  unfold initialize_
  cases t.sender with
  | none => dsimp only; infer_instance
  | some sender => dsimp only; infer_instance

instance (addrs : List Address) :
    LogGrows (addrs.forM fun a => (State.kill H a : Process State Unit)) := by
  induction addrs with
  | nil => exact inferInstanceAs (LogGrows (pure ()))
  | cons a addrs ih =>
    exact inferInstanceAs (LogGrows ((State.kill H a : Process State Unit) >>= fun _ => _))

instance (e : Executive) (t : Transaction) : LogGrows (e.finalize H S t) := by
  unfold finalize
  cases t.sender with
  | none => dsimp only; infer_instance
  | some sender =>
    cases e.ext with
    | none => dsimp only [Option.map_none]; infer_instance
    | some ext => dsimp only [Option.map_some]; infer_instance

theorem t_init (e : Executive) (t : Transaction) (s : State) :
    Ends (e.initialize_ H S t) s fun e' _ => e'.t = some t := by
  unfold initialize_
  cases t.sender with
  | none => simp only [ends_ite, ends_bind, ends_stop, ends_pure, ite_self]
  | some sender =>
    simp only [ends_ite, ends_bind, ends_stop, ends_pure, ends_lift, post_true, ite_self]

theorem changeLog_incSenderNonce (e : Executive) {sender : Address} (hsender : sender ≠ maxAddress)
    (s : State) : Ends (e.incSenderNonce H S sender) s fun _ s' => ∃ c,
    s'.changeLog = c :: s.changeLog := by
  unfold incSenderNonce
  rw [if_pos (.inl hsender), ends_uncaught]
  unfold incNonce
  simp only [postE_bind, postE_lift]
  refine (changeLog_account H sender s).mono ?_
  rintro (_ | a) s₁ h₁
  · simp only [requireAccountStartNonce, postE_bind, postE_get, postE_ite, postE_pure, postE_throw,
      postE_lift, createAccount, update, log, post_bind, post_modify, h₁]
    split_ifs
    exact ⟨_, rfl⟩
  · simp only [postE_bind, postE_lift, update, log, post_modify, h₁]
    exact ⟨_, rfl⟩

theorem marked_execute {t : Transaction} (ht : e.t = some t) (s : State) :
    Ends (e.execute H S t) s fun r s' => ∃ older, s.changeLog <:+ older ∧ Marked older r s' ∧
      (t.isCreation = false → t.sender ≠ some maxAddress → s.changeLog.length < older.length) := by
  unfold execute
  cases hsender : t.sender with
  | none => exact (ends_stop _).mpr trivial
  | some sender =>
    dsimp only
    rw [ends_bind]
    refine (LogGrows.grows s).mono fun _ s₁ h₁ => ?_
    split_ifs with hcreation
    · refine (marked_createOpcode e sender _ _ _ _ _ s₁).mono ?_
      rintro r s' ⟨older, h, hm⟩
      exact ⟨older, h₁.trans h, hm, fun hcall => absurd (hcreation.symm.trans hcall) (by simp)⟩
    · unfold call
      simp only [ht, Option.isSome_some, if_true, ends_bind]
      by_cases hmax : sender = maxAddress
      · refine (LogGrows.grows s₁).mono fun _ s₂ h₂ => (marked_enterCall e _ _ _ s₂).mono fun r s' hm => ?_
        exact ⟨_, h₁.trans h₂, hm, fun _ hne => absurd (congrArg some hmax) hne⟩
      · refine (changeLog_incSenderNonce e hmax s₁).mono ?_
        rintro _ s₂ ⟨c, h₂⟩
        refine (marked_enterCall e _ _ _ s₂).mono fun r s' hm => ⟨_, ?_, hm, fun _ _ => ?_⟩
        · exact h₁.trans (h₂ ▸ suffix_cons c _)
        · rw [h₂, length_cons]
          exact Nat.lt_succ_of_le h₁.length_le

end Executive

namespace ExtVM
variable {H : Hasher} {S : SealEngineFace} {run : VMRun} {E : ExtVM}

theorem changeLog_finish (hrun : run.LogGrows) {older : List Change} {r : Bool × Executive}
    {f : Frame} (h : Executive.Marked older r f.state) :
    Ends (finish H S run r.1 r.2) f fun _ f' => older <:+ f'.state.changeLog := by
  unfold finish
  simp only [ends_ite, ends_pure, ends_bind, ends_onState]
  split_ifs
  · exact h.1
  · refine (Executive.changeLog_go hrun h).mono fun e s' h' => ?_
    cases e.ext with
    | none => exact (ends_pure e).mpr h'
    | some ext => exact ends_bind.mpr ((ends_modify _).mpr ((ends_pure e).mpr h'))

/-- The transaction adds to the log; and at least the entry of the sender's nonce, if that is
incremented. -/
theorem changeLog_executeReverted (hrun : run.LogGrows) (envInfo : EnvInfo) (t : Transaction)
    (s : State) : Ends (State.executeReverted H S run envInfo t) s fun _ s' =>
      s.changeLog <:+ s'.changeLog ∧ (∀ addr, s'.cache addr = none) ∧
        (t.isCreation = false → t.sender ≠ some maxAddress → s.changeLog.length < s'.changeLog.length) := by
  unfold State.executeReverted Executive.executeTransaction
  simp only [ends_bind, ends_modify, ends_pure, implies_true, true_and]
  refine ((LogGrows.grows s).and (Executive.t_init _ t s)).mono ?_
  rintro e s₁ ⟨h₁, ht⟩
  refine (Executive.marked_execute ht s₁).mono ?_
  rintro r s₂ ⟨older, h₂, hm, hstrict⟩
  -- what is longer than the savepoint's log stays so to the end
  have hfinal (e' : Executive) {s₃ : State} (h₃ : older <:+ s₃.changeLog) :
    Ends (e'.finalize H S t) s₃ fun _ s₄ =>
      s.changeLog <:+ s₄.changeLog ∧
        (t.isCreation = false → t.sender ≠ some maxAddress → s.changeLog.length < s₄.changeLog.length) := by
    refine (LogGrows.grows s₃).mono fun _ s₄ h₄ =>
      ⟨h₁.trans (h₂.trans (h₃.trans h₄)), fun hcall hsender => ?_⟩
    have hlong := hstrict hcall hsender
    have hle₁ := h₁.length_le
    have hle₄ := (h₃.trans h₄).length_le
    omega
  rw [ends_ite]
  split_ifs
  · exact ends_bind.mpr ((ends_pure _).mpr (hfinal _ hm.1))
  · exact (Executive.changeLog_go hrun hm).bind fun e' s₃ h₃ => hfinal e' h₃

theorem blockHash_cases (hrun : run.LogGrows) (number : U256) (s : State) :
    Ends (E.blockHash H S run number) s fun _ s' =>
      NeedsNoContract S E number ∧ s' = s ∨ ¬ NeedsNoContract S E number ∧ s.changeLog <:+ s'.changeLog ∧
        (∀ addr, s'.cache addr = none) ∧
        (E.caller ≠ maxAddress → s.changeLog.length < s'.changeLog.length) := by
  unfold blockHash NeedsNoContract
  dsimp only
  generalize (if E.envInfo.number ≤ 256 then 256 else E.envInfo.number) - 256 = oldest
  simp only [ends_ite, ends_bind, ends_pure]
  split_ifs with hrange hold
  · exact .inl ⟨by rw [← or_assoc]; exact .inl hrange, trivial⟩
  · exact .inl ⟨.inr (.inr hold), trivial⟩
  · have hasks : ¬ (number ≥ E.envInfo.number ∨ number < oldest ∨
      E.envInfo.number < S.constantinopleForkBlock + 256) := by
      rw [← or_assoc]
      exact fun h => h.elim hrange hold
    refine (LogGrows.grows s).mono fun nonce s₁ h₁ => ?_
    refine (changeLog_executeReverted hrun _ _ s₁).mono fun _ s₂ h₂ =>
      .inr ⟨hasks, h₁.trans h₂.1, h₂.2.1, fun hcaller => ?_⟩
    refine lt_of_le_of_lt h₁.length_le (h₂.2.2 rfl ?_)
    simp only [blockHashTransaction]
    split_ifs
    · simp
    · exact fun h => hcaller (Option.some.inj h)

theorem changeLog_answer (hrun : run.LogGrows) (q : ExtCall) (f : Frame) :
    Ends (E.answer H S run q) f fun _ f' => f.state.changeLog <:+ f'.state.changeLog := by
  cases q with
  | store key => exact ends_onState.mpr (LogGrows.grows f.state)
  | setStore key value => exact ends_onState.mpr (LogGrows.grows f.state)
  | balance a => exact ends_onState.mpr (LogGrows.grows f.state)
  | codeAt a => exact ends_onState.mpr (LogGrows.grows f.state)
  | codeSizeAt a => exact ends_onState.mpr (LogGrows.grows f.state)
  | exists_ a =>
    simp only [answer, ends_onState, ends_ite]
    split_ifs
    · exact LogGrows.grows f.state
    · exact LogGrows.grows f.state
  | suicide a =>
    unfold answer suicide
    rw [ends_bind, ends_onState]
    exact (LogGrows.grows f.state).mono fun _ _ h => (ends_modify _).mpr h
  | create endowment gas init op salt =>
    simp only [answer, create, createExecutive_eq, ends_onState, ends_bind, ends_pure]
    have hentry : Ends (E.enterCreate H S endowment gas init op salt) f.state fun r s' =>
        ∃ older, f.state.changeLog <:+ older ∧ Executive.Marked older r s' :=
      enterCreate_cases (P := fun m => Ends m f.state _)
        (Executive.marked_createOpcode _ _ _ _ _ _ _ _) fun _ =>
        Executive.marked_executeCreate _ _ _ _ _ _ _ _
    refine hentry.mono ?_
    rintro r s₁ ⟨older, h, hm⟩
    exact (changeLog_finish hrun (f := ⟨s₁, f.sub⟩) hm).mono fun _ _ h' => h.trans h'
  | call p =>
    simp only [answer, call, ends_onState, ends_bind, ends_pure]
    refine (Executive.marked_call _ p _ _ f.state).mono ?_
    rintro r s₁ ⟨older, h, hm⟩
    exact (changeLog_finish hrun hm).mono fun _ _ h' => h.trans h'
  | log topics data => exact (ends_modify _).mpr (suffix_refl _)
  | blockHash number =>
    refine ends_onState.mpr ((blockHash_cases hrun number f.state).mono ?_)
    rintro _ s' (⟨-, rfl⟩ | ⟨-, h, -⟩)
    · exact suffix_refl _
    · exact h
  | addRefund gas => exact (ends_modify _).mpr (suffix_refl _)

end ExtVM

theorem logGrows_runVM (H : Hasher) (S : SealEngineFace) (n : ℕ) : (runVM H S n).LogGrows := by
  induction n with
  | zero => exact fun _ _ => inferInstanceAs (LogGrows (stop .steps))
  | succ n ih =>
    intro E gas
    refine ⟨fun s => ?_⟩
    refine ends_runOnce (P := fun _ s' => s.changeLog <:+ s'.changeLog) ?_
    refine (ends_interp (I := fun f : Frame => s.changeLog <:+ f.state.changeLog)
      (fun q _ f hf => ?_) (Prog.sat_true _) (suffix_refl _)).mono fun _ _ h => h.2
    exact (ExtVM.changeLog_answer ih q f).mono fun _ _ h => hf.trans h

/-- `BLOCKHASH` is a pure read exactly as long as no contract is asked. Otherwise everything that
was not committed is gone, while the log has become longer. -/
theorem blockHash_pure_iff (H : Hasher) (S : SealEngineFace) (n : ℕ) (E : ExtVM) (number : U256)
    (s : State) : Ends (E.blockHash H S (runVM H S n) number) s fun _ s' =>
      (E.NeedsNoContract S number → s' = s) ∧
        (¬ E.NeedsNoContract S number → ∀ addr, s'.cache addr = none) ∧
        (E.caller ≠ maxAddress →
          (s'.view H = s.view H ∧ s'.changeLog = s.changeLog ↔ E.NeedsNoContract S number)) := by
  refine (ExtVM.blockHash_cases (logGrows_runVM H S n) number s).mono ?_
  rintro _ s' (⟨hno, rfl⟩ | ⟨hask, -, hcache, hlong⟩)
  · exact ⟨fun _ => rfl, fun h => absurd hno h, fun _ => iff_of_true ⟨rfl, rfl⟩ hno⟩
  · refine ⟨fun h => absurd h hask, fun _ => hcache, fun hcaller => iff_of_false (fun h => ?_) hask⟩
    have hlt := hlong hcaller
    rw [h.2] at hlt
    exact lt_irrefl _ hlt

/-- 5 wei are added to account 1; asking for a block hash in block 300 takes them away again. -/
theorem blockHash_loses_balance :
    let s := ((addBalance lengthHasher 1 5).run.run (exampleWorld [])).2
    ((balance lengthHasher 1).run s).1 = 15 ∧ s.changeLog.length = 1 ∧
      (((exampleContext 300 [] false).blockHash lengthHasher exampleEngine
        (runVM lengthHasher exampleEngine 3) 299).run
        s).toOption.map (fun r => (((balance lengthHasher 1).run r.2).1, r.2.changeLog.length)) =
          some (10, 4) := by
  decide +kernel

end Vapory
