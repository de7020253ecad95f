import Vapory.Executive.Enter
import Vapory.State.Rollback

/-! Nested calls and creations: whatever the code does, its changes can be taken back, and
what fails is taken back. -/
namespace Vapory
open Vvm State
variable {H : Hasher} {S : SealEngineFace} {run : VMRun}

namespace ExtVM
open Executive
variable {Pre : ExtVM → State → Prop} {I : ExtVM → State → SubState → State → Prop} {E : ExtVM}

/-- How `call` ends, from the frame `f`, with success or not. -/
inductive CallEnds (H : Hasher) (S : SealEngineFace) (I : ExtVM → State → SubState → State → Prop)
    (E : ExtVM) (p : CallParameters) (f f' : Frame) : Bool → Prop where
  | refused (hprecompiled : S.isPrecompiled p.codeAddress E.envInfo.number = true)
      (hview : f'.state.view H = f.state.view H ∨ S.eip158ForkBlock ≤ E.envInfo.number ∧
        f'.state.view H = (f.state.view H).credit (f.state.fresh H) p.codeAddress 0)
      (hsub : f'.sub = f.sub) : CallEnds H S I E p f f' false
  | done (htransfer : Transferred H p.senderAddress p.receiveAddress p.valueTransfer f.state
        (f'.state.view H)) (hsub : f'.sub = f.sub) : CallEnds H S I E p f f' true
  | failed (hview : f'.state.view H = f.state.view H) (hsub : f'.sub = f.sub) :
      CallEnds H S I E p f f' false
  | ran {E' : ExtVM} {s₁ : State} {sub : SubState} (hlater : Later H f.state s₁)
      (htransfer : Transferred H p.senderAddress p.receiveAddress p.valueTransfer f.state (s₁.view H))
      (hempty : E'.sub = .empty) (hI : I E' s₁ sub f'.state) (hsub : f'.sub = f.sub.accrue sub) :
      CallEnds H S I E p f f' true

/-- How `finish` ends after code was run, from the frame `f` and the savepoint of `s₁`. -/
inductive Finished (H : Hasher) (creation : Bool) (I : ExtVM → State → SubState → State → Prop)
    (E' : ExtVM) (s₁ : State) (f : Frame) (e' : Executive) (f' : Frame) : Prop where
  | kept {s₂ : State} {sub : SubState} (hexcepted : e'.excepted = .None) (hI : I E' f.state sub s₂)
      (hsame : creation = false → f'.state = s₂) (hsub : f'.sub = f.sub.accrue sub) :
      Finished H creation I E' s₁ f e' f'
  | reverted (hexcepted : e'.excepted ≠ .None) (hview : f'.state.view H = s₁.view H)
      (hsub : f'.sub = f.sub) : Finished H creation I E' s₁ f e' f'

variable {f : Frame}

theorem ends_finish (hrun : VMRun.Keeps H Pre I run) {e : Executive} {E' : ExtVM} {s₁ : State}
    (h : Entered H e E' s₁ f.state) (hpre : Pre E' f.state) :
    Ends (finish H S run false e) f fun e' f' =>
      Later H s₁ f'.state ∧ Finished H e.isCreation I E' s₁ f e' f' := by
  unfold finish
  simp only [Bool.false_eq_true, if_false, ends_bind, ends_onState]
  refine (ends_go h (hrun E' e.gas f.state hpre h.runnable.sound)).mono ?_
  rintro e' s' ⟨hl, sub, s₂, hI, hran⟩
  rcases hran with ⟨hexc, hext, hsame⟩ | ⟨hexc, hext, hview⟩
  · rw [hext]
    simp only [ends_bind, ends_modify, ends_pure]
    exact ⟨hl, .kept hexc hI hsame rfl⟩
  · rw [hext]
    simp only [ends_bind, ends_modify, ends_pure, SubState.accrue_empty]
    exact ⟨hl, .reverted hexc hview rfl⟩

theorem ends_call (hrun : VMRun.Keeps H Pre I run) {p : CallParameters}
    (hs : f.state.Sound H) (hpre : ∀ E' s, E'.envInfo = E.envInfo → E'.staticCall = p.staticCall →
      Runnable H E'.myAddress s → Pre E' s) :
    Ends (E.call H S run p) f fun r f' => Later H f.state f'.state ∧ CallEnds H S I E p f f' r.1 := by
  unfold call Executive.call
  simp only [Option.isSome_none, Bool.false_eq_true, if_false, ends_bind, ends_onState, ends_pure]
  refine (ends_enterCall hs rfl rfl rfl).mono ?_
  rintro ⟨done, e⟩ s₁ ⟨hl, hcalled⟩
  cases hcalled with
  | refused hprecompiled hexcepted hview =>
    simp only [finish, if_true, ends_pure, decide_eq_false hexcepted]
    exact ⟨hl, .refused hprecompiled hview rfl⟩
  | done hexcepted htransfer =>
    simp only [finish, if_true, ends_pure, decide_eq_true hexcepted]
    exact ⟨hl, .done htransfer rfl⟩
  | entered h hcall henv hstatic htransfer =>
    refine (ends_finish (f := ⟨s₁, f.sub⟩) hrun h (hpre _ _ henv hstatic h.runnable)).mono ?_
    rintro e' f' ⟨hl', hfinished⟩
    refine ⟨hl', ?_⟩
    cases hfinished with
    | kept hexcepted hI hsame hsub =>
      rw [decide_eq_true hexcepted]
      exact .ran hl htransfer h.sub (hsame hcall ▸ hI) hsub
    | reverted hexcepted hview hsub =>
      rw [decide_eq_false hexcepted]
      exact .failed hview hsub

/-- The address at which `create` makes an account. -/
def newAddress (H : Hasher) (E : ExtVM) (s : State) (init : Bytes) (op : Instruction)
    (salt : U256) : Address :=
  if op = .CREATE then
    match rlpSenderNonce E.myAddress ((getNonce H E.myAddress).run s).1 with
    | .ok rlp => right160 (H.hash rlp)
    | .error _ => 0
  else
    let senderBytes := (List.range 20).map fun i => UInt8.ofNat (E.myAddress.toNat / 256 ^ (19 - i))
    right160 (H.hash (senderBytes ++ wordBytes salt ++ H.sha3 init))

/-- The number is not one of the last 256 blocks, or the chain itself knows the hash. -/
def NeedsNoContract (S : SealEngineFace) (E : ExtVM) (number : U256) : Prop :=
  number ≥ E.envInfo.number ∨
    number < (if E.envInfo.number ≤ 256 then 256 else E.envInfo.number) - 256 ∨
    E.envInfo.number < S.constantinopleForkBlock + 256

instance (number : U256) : Decidable (E.NeedsNoContract S number) := by
  unfold NeedsNoContract
  infer_instance

theorem ends_blockHash {number : U256} (h : E.NeedsNoContract S number) (s : State) :
    Ends (E.blockHash H S run number) s fun _ s' => s' = s := by
  unfold NeedsNoContract at h
  unfold blockHash
  dsimp only
  generalize (if E.envInfo.number ≤ 256 then 256 else E.envInfo.number) - 256 = oldest at h ⊢
  simp only [ends_ite, ends_pure]
  split_ifs with hrange hold
  rw [← or_assoc] at h
  exact absurd h (not_or.mpr ⟨hrange, hold⟩)

end ExtVM

theorem Guards.onState {α : Type} {m m' : Process State α} (h : Guards m m') :
    Guards (onState m) (onState m') := by
  intro f
  rcases h f.state with h | h
  · exact .inl (congrArg (·.bind fun r => .ok (r.1, { f with state := r.2 })) h)
  · exact .inr (congrArg (·.bind fun r => .ok (r.1, { f with state := r.2 })) h)

section Guarded
variable {run' : VMRun} (h : ∀ E gas, Guards (run E gas) (run' E gas))
include h

namespace Executive

theorem guards_go (e : Executive) : Guards (e.go H S run) (e.go H S run') := by
  unfold go
  cases e.ext with
  | none => exact .refl _
  | some ext =>
    dsimp only
    split_ifs
    · exact (Guards.refl _).bind fun _ => (h _ _).bind fun _ => .refl _
    · exact (h _ _).bind fun _ => .refl _

theorem guards_executeTransaction (envInfo : EnvInfo) (t : Transaction) :
    Guards (executeTransaction H S run envInfo t) (executeTransaction H S run' envInfo t) := by
  refine (Guards.refl _).bind fun e => (Guards.refl _).bind fun r => ?_
  dsimp only
  split_ifs
  · exact .refl _
  · exact (guards_go h _).bind fun _ => .refl _

end Executive

theorem guards_executeReverted (envInfo : EnvInfo) (t : Transaction) :
    Guards (executeReverted H S run envInfo t) (executeReverted H S run' envInfo t) :=
  (Executive.guards_executeTransaction h _ _).bind fun _ => .refl _

namespace ExtVM
variable {E : ExtVM}

theorem guards_finish (done : Bool) (e : Executive) :
    Guards (finish H S run done e) (finish H S run' done e) := by
  cases done with
  | true => exact .refl _
  | false => exact (Executive.guards_go h e).onState.bind fun _ => .refl _

theorem guards_call (p : CallParameters) : Guards (E.call H S run p) (E.call H S run' p) :=
  (Guards.refl _).bind fun _ => (guards_finish h _ _).bind fun _ => .refl _

theorem guards_createExecutive (endowment gas : U256) (init : Bytes) (op : Instruction)
    (salt : U256) : Guards (E.createExecutive H S run endowment gas init op salt)
      (E.createExecutive H S run' endowment gas init op salt) :=
  (Guards.refl _).bind fun _ => guards_finish h _ _

theorem guards_answer (q : ExtCall) : Guards (E.answer H S run q) (E.answer H S run' q) := by
  cases q with
  | create => exact (guards_createExecutive h _ _ _ _ _).bind fun _ => .refl _
  | call p => exact guards_call h p
  | blockHash number =>
    apply Guards.onState
    unfold blockHash
    dsimp only
    generalize (if E.envInfo.number ≤ 256 then 256 else E.envInfo.number) - 256 = oldest
    split_ifs
    · exact .refl _
    · exact .refl _
    · exact (Guards.refl _).bind fun _ => (guards_executeReverted h _ _).bind fun _ => .refl _
  | _ => exact .refl _

end ExtVM

end Guarded

/-- `runVM`, except that the first call of the machine that is not `ok`, at whatever depth, ends the
process. -/
def runWithin (H : Hasher) (S : SealEngineFace) (ok : ExtVM → State → ExtCall → Bool) : ℕ → VMRun
  | 0, _, _ => stop .steps
  | n + 1, E, gas => E.runOnce H S (fun q => do
      if ok E (← get).state q then E.answer H S (runWithin H S ok n) q else stop .exit) n gas

section
variable {ok : ExtVM → State → ExtCall → Bool}

theorem ExtVM.guards_runOnce {E : ExtVM} {answer answer' : (q : ExtCall) → Process Frame q.Answer}
    (h : ∀ q, Guards (answer q) (answer' q)) (n : ℕ) (gas : U256) :
    Guards (E.runOnce H S answer n gas) (E.runOnce H S answer' n gas) := by
  refine (Guards.refl _).bind fun s => Guards.bind (fun s' => ?_) fun _ => .refl _
  rcases Guards.interp h (exec H (E.face S) n gas) ⟨s, E.sub⟩ with heq | hexit
  · exact .inl (by rw [heq])
  · exact .inr (by rw [hexit]; rfl)

variable (n : ℕ)

theorem guards_runWithin (E : ExtVM) (gas : U256) :
    Guards (runWithin H S ok n E gas) (runVM H S n E gas) := by
  induction n generalizing E gas with
  | zero => exact .refl _
  | succ n ih =>
    have hanswer (q : ExtCall) : Guards (do
        if ok E (← get).state q then E.answer H S (runWithin H S ok n) q else stop .exit)
        (E.answer H S (runVM H S n) q) := by
      intro f
      by_cases hq : ok E f.state q = true
      · simpa [hq] using ExtVM.guards_answer ih q f
      · exact .inr (by simp [hq]; rfl)
    exact ExtVM.guards_runOnce hanswer n gas

/-- A computation that runs the machine makes no call that is not `ok`: it is not ended where such a
call ends the process. -/
def AsksOnly (H : Hasher) (S : SealEngineFace) (ok : ExtVM → State → ExtCall → Bool) (n : ℕ)
    {σ α : Type} (m : VMRun → Process σ α) (s : σ) : Prop :=
  (m (runWithin H S ok n)).run s ≠ .error .exit

theorem AsksOnly.of_isSome {σ α : Type} {m : VMRun → Process σ α} {s : σ}
    (h : ((m (runWithin H S ok n)).run s).toOption.isSome = true) : AsksOnly H S ok n m s := by
  intro hexit
  rw [hexit] at h
  cases h

theorem AsksOnly.ends {n : ℕ} {σ α : Type} {m : VMRun → Process σ α} {s : σ} {P : α → σ → Prop}
    (h : AsksOnly H S ok n m s) (hm : Guards (m (runWithin H S ok n)) (m (runVM H S n)))
    (hends : Ends (m (runWithin H S ok n)) s P) : Ends (m (runVM H S n)) s P := by
  intro a s' hr
  apply hends
  rcases hm s with heq | hexit
  · exact heq.trans hr
  · exact absurd hexit h

end

/-- What a frame keeps with every call of the machine that can be made, it keeps in every run. -/
theorem keeps_runWithin {ok : ExtVM → State → ExtCall → Bool} {Pre : ExtVM → State → Prop}
    {I : ExtVM → State → SubState → State → Prop} (Ok : ExtVM → ExtCall → Prop)
    (hok : ∀ E s n gas, Pre E s → (exec H (ExtVM.face S E) n gas).Sat (Ok E) fun _ => True)
    (hinit : ∀ E s, I E s E.sub s)
    (hstep : ∀ run, VMRun.Keeps H Pre I run → ∀ E s q f, Pre E s → Ok E q → ok E f.state q = true →
      s.Sound H → Later H s f.state → I E s f.sub f.state →
      Ends (E.answer H S run q) f fun _ f' => Later H f.state f'.state ∧ I E s f'.sub f'.state) (n : ℕ) :
    VMRun.Keeps H Pre I (runWithin H S ok n) := by
  induction n with
  | zero =>
    intro E gas s _ _
    exact (ends_stop _).mpr trivial
  | succ n ih =>
    intro E gas s hpre hs
    refine ends_runOnce (P := fun sub s' => Later H s s' ∧ I E s sub s') ?_
    refine (ends_interp (I := fun f : Frame => Later H s f.state ∧ I E s f.sub f.state)
      (fun q hq f hf => ?_) (hok E s n gas hpre) ⟨.refl s, hinit E s⟩).mono fun _ _ h => h.2
    simp only [ends_bind, ends_get, ends_ite, ends_stop]
    split_ifs with hallowed
    · exact (hstep _ ih E s q f hpre hq hallowed hs hf.1 hf.2).mono fun _ f' h' => ⟨hf.1.trans h'.1, h'.2⟩

/-- A chain after Constantinople from its first block on, without precompiled contracts. -/
def exampleEngine : SealEngineFace where
  vvmSchedule := fun _ => .constantinople
  eip158ForkBlock := 0
  constantinopleForkBlock := 0
  isPrecompiled := fun _ _ => false
  costOfPrecompiled := fun _ _ _ => 0
  executePrecompiled := fun _ _ _ => (true, [])
  verifyTransaction := fun _ _ => true

def exampleWorld (code : Bytes) : State :=
  opened
    { account := fun addr =>
        if addr = 1 then some ⟨3, 10, lengthHasher.emptyTrie, lengthHasher.emptySHA3⟩
        else if addr = 2 then some ⟨1, 0, lengthHasher.emptyTrie, lengthHasher.hash code⟩
        else none
      storage := fun _ _ => 0
      code := fun h => if h = lengthHasher.hash code then code else [] } 0 ⟨[]⟩ id

def exampleContext (number : U256) (code : Bytes) (staticCall : Bool) : ExtVM where
  envInfo := { number, author := 9, timestamp := 0, difficulty := 0, gasLimit := 10000000,
               gasUsed := 0, precedingHashes := [] }
  myAddress := 1
  caller := 7
  origin := 7
  value := 0
  gasPrice := 0
  data := []
  code := code
  depth := 0
  staticCall := staticCall
  sub := .empty

theorem sound_exampleWorld (code : Bytes) : (exampleWorld code).Sound lengthHasher := by
  refine sound_opened ?_ _ _ _
  intro addr v hv
  simp only [StateDB.view] at hv
  split_ifs at hv
  · cases hv
    simp [Account.view, Account.load, Hasher.emptySHA3]
  · cases hv
    simp only [Account.view, Account.load, Account.dead, if_true]
    split_ifs with h
    · exact h.symm
    · rfl
  · cases hv

def exampleCall : CallParameters where
  senderAddress := 1
  codeAddress := 2
  receiveAddress := 2
  valueTransfer := 0
  apparentValue := 0
  gas := 100000
  data := []
  staticCall := false

end Vapory
