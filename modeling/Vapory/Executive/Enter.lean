import Vapory.Executive.ExtVM
import Vapory.State.Touch

/-! How calls and creations begin and end around a run of code: one statement for each function
of `Executive` says what it can do to the view of the state. -/
namespace Vapory
open Vvm State

theorem onState_eq {α : Type} (m : Process State α) :
    onState m = zoom Frame.state (fun f s => { f with state := s }) m := rfl

@[simp] theorem ends_onState {α : Type} {m : Process State α} {f : Frame} {P : α → Frame → Prop} :
    Ends (onState m) f P ↔ Ends m f.state fun a s => P a { f with state := s } := by
  rw [onState_eq, ends_zoom]

variable {H : Hasher} {S : SealEngineFace} {run : VMRun}

theorem ends_runOnce {E : ExtVM} {answer : (q : ExtCall) → Process Frame q.Answer} {n : ℕ}
    {gas : U256} {s : State} {P : SubState → State → Prop}
    (h : Ends ((exec H (E.face S) n gas).interp answer) ⟨s, E.sub⟩ fun _ f => P f.sub f.state) :
    Ends (E.runOnce H S answer n gas) s fun r s' => P r.2.2 s' := by
  unfold ExtVM.runOnce
  simp only [ends_bind, ends_get, ends_liftExcept, ends_set]
  rintro ⟨⟨result, left⟩, f⟩ hr
  have hend := h _ f hr
  rcases result with ex | _ | output
  · exact (ends_pure _).mpr hend
  · exact (ends_stop _).mpr trivial
  · exact (ends_pure _).mpr hend

section
variable {s s' : State} {addr : Address} (hl : Later H s s')
include hl

theorem dirty_later (hs : s.Sound H) (h : s.Dirty addr) : s'.Dirty addr :=
  (hl.since s (.refl hs)).dirty addr h

end

/-- The code of an account can be run: the account exists. -/
structure Runnable (H : Hasher) (addr : Address) (s : State) : Prop where
  sound : s.Sound H
  existing : (s.view H addr).isSome

/-- What a run of the machine owes the code that called it, if `Pre` holds: its changes can be
taken back, and `I` holds of the state before, and the substate and the state after. -/
def VMRun.Keeps (H : Hasher) (Pre : ExtVM → State → Prop)
    (I : ExtVM → State → SubState → State → Prop) (run : VMRun) : Prop :=
  ∀ E gas s, Pre E s → s.Sound H →
    Ends (run E gas) s fun r s' => Later H s s' ∧ I E s r.2.2 s'

theorem toTransactionException_ne (ex : VMException) : toTransactionException ex ≠ .None := by
  cases ex <;> rintro ⟨⟩

theorem SubState.accrue_empty (sub : SubState) : sub.accrue .empty = sub := by
  simp [accrue, empty]

namespace Executive

/-- An executive that has code to run, with the state `s₁` of its savepoint. -/
structure Entered (H : Hasher) (e : Executive) (E : ExtVM) (s₁ s : State) : Prop where
  savepoint : e.savepoint = s₁.savepoint
  sound : s₁.Sound H
  later : Later H s₁ s
  ext : e.ext = some E
  sub : E.sub = .empty
  excepted : e.excepted = .None
  runnable : Runnable H E.myAddress s
  dirty : e.isCreation = true → s.Dirty E.myAddress
  root : e.isCreation = true → EmptyRoot H (s.view H E.myAddress)

/-- How a run of code ends: with what the machine made of the substate and the state, and then
the code of a creation; or with an exception and everything taken back. -/
def Ran (H : Hasher) (creation : Bool) (E : ExtVM) (s₁ : State) (P : SubState → State → Prop)
    (e : Executive) (s : State) : Prop :=
  ∃ sub s₂, P sub s₂ ∧
    (e.excepted = .None ∧ e.ext = some { E with sub } ∧ (creation = false → s = s₂) ∨
      e.excepted ≠ .None ∧ e.ext = some { E with sub := .empty } ∧ s.view H = s₁.view H)

variable {e : Executive}

theorem ends_revert {s₁ s : State} (hpoint : e.savepoint = s₁.savepoint) (hs : s₁.Sound H)
    (h : Later H s₁ s) : Ends (e.revert H) s fun e' s' =>
      e' = { e with ext := e.ext.map fun ext => { ext with sub := .empty }, newAddress := 0 } ∧
        Later H s₁ s' ∧ s'.view H = s₁.view H := by
  unfold revert
  rw [hpoint]
  simp only [ends_bind, ends_lift, ends_pure, true_and]
  exact later_rollback (.refl s₁) hs h

variable {P : SubState → State → Prop}

theorem ends_settle {E : ExtVM} {s₁ s : State}
    {sub : SubState} (hpoint : e.savepoint = s₁.savepoint) (hs : s₁.Sound H) (hlater : Later H s₁ s)
    (hext : e.ext = some { E with sub }) (hexcepted : e.excepted = .None) (hP : P sub s)
    (hdirty : e.isCreation = true → s.Dirty E.myAddress)
    (kept : Except VMException (Bytes × U256)) : Ends (e.settle H E.myAddress kept) s fun e' s' =>
      Later H s₁ s' ∧ Ran H e.isCreation E s₁ P e' s' := by
  rcases kept with ex | ⟨out, gas⟩
  · -- both ways to revert
    have hrevert (e' : Executive) (hpoint' : e'.savepoint = e.savepoint) (hext' : e'.ext = e.ext) :
        Ends (e'.revert H) s fun e'' s' => e''.excepted = e'.excepted ∧
          e''.ext = some { E with sub := .empty } ∧ Later H s₁ s' ∧ s'.view H = s₁.view H := by
      refine (ends_revert (hpoint'.trans hpoint) hs hlater).mono ?_
      rintro _ s' ⟨rfl, h⟩
      exact ⟨rfl, by rw [hext', hext]; rfl, h⟩
    have hother (ex : VMException) :
        Ends (revert H { e with gas := 0, excepted := toTransactionException ex }) s fun e' s' =>
          Later H s₁ s' ∧ Ran H e.isCreation E s₁ P e' s' := by
      refine (hrevert { e with gas := 0, excepted := toTransactionException ex } rfl rfl).mono ?_
      rintro e' s' ⟨hexc, hext', hl, hview⟩
      exact ⟨hl, sub, s, hP, .inr ⟨hexc ▸ toTransactionException_ne ex, hext', hview⟩⟩
    cases ex
    case RevertInstruction output =>
      simp only [settle, ends_bind, ends_pure]
      refine (hrevert e rfl rfl).mono ?_
      rintro e' s' ⟨-, hext', hl, hview⟩
      exact ⟨hl, sub, s, hP, .inr ⟨(by simp), hext', hview⟩⟩
    all_goals exact hother _
  · simp only [settle, ends_ite, ends_bind, ends_lift, ends_pure]
    split_ifs with hcreation
    · refine (later_setCode (hlater.sound hs) (hdirty hcreation) out).mono fun _ s' hl => ?_
      exact ⟨hlater.trans hl, sub, s, hP, .inl ⟨hexcepted, hext, fun hcall => by simp [hcall] at hcreation⟩⟩
    · exact ⟨hlater, sub, s, hP, .inl ⟨hexcepted, hext, fun _ => rfl⟩⟩

theorem ends_go {E : ExtVM} {s₁ s : State} (h : Entered H e E s₁ s)
   
    (hrun : Ends (run E e.gas) s fun r s₂ => Later H s s₂ ∧ P r.2.2 s₂) :
    Ends (e.go H S run) s fun e' s' => Later H s₁ s' ∧ Ran H e.isCreation E s₁ P e' s' := by
  unfold go
  rw [h.ext]
  -- what follows once the storage is cleared
  have hrest : Ends (run E e.gas) s fun r s₂ => ∀ kept,
      Ends (settle H { e with gas := r.2.1, ext := some { E with sub := r.2.2 } } E.myAddress kept)
        s₂ fun e' s₃ => Later H s₁ s₃ ∧ Ran H e.isCreation E s₁ P
          (if e'.output = [] then e' else { e' with resultOutput := e'.output }) s₃ := by
    refine hrun.mono fun r s₂ h₂ kept => ?_
    have hdirty (hcreation : e.isCreation = true) : s₂.Dirty E.myAddress :=
      dirty_later h₂.1 h.runnable.sound (h.dirty hcreation)
    refine (ends_settle (e := { e with gas := r.2.1, ext := some { E with sub := r.2.2 } }) (E := E)
      h.savepoint h.sound (h.later.trans h₂.1) rfl h.excepted h₂.2 hdirty kept).mono fun e' s₃ h' => ?_
    split_ifs
    · exact h'
    · exact h'
  simp only [ends_bind, ends_ite, ends_lift, ends_pure]
  split_ifs with hcreation
  · refine (clearStorage_same (h.dirty hcreation) (h.root hcreation)).mono ?_
    rintro _ _ rfl
    exact hrest.mono fun _ _ h' => h' _
  · exact hrest.mono fun _ _ h' => h' _

/-- The view after a transfer from the state `s₁`. -/
structure Transferred (H : Hasher) (src dst : Address) (value : U256) (s₁ : State) (v : View) :
    Prop where
  view : v = ((s₁.view H).debit src value).credit (s₁.fresh H) dst value
  cash : value ≠ 0 → ∃ w, s₁.view H src = some w ∧ value ≤ w.balance

/-- How `call` ends, from the state `s₁` of its savepoint: a precompiled contract does not
succeed, there is no code to run, or there is. -/
inductive Called (H : Hasher) (S : SealEngineFace) (envInfo : EnvInfo) (p : CallParameters)
    (s₁ : State) : Bool × Executive → State → Prop where
  | refused {e : Executive} {s : State} (hprecompiled : S.isPrecompiled p.codeAddress envInfo.number = true)
      (hexcepted : e.excepted ≠ .None)
      (hview : s.view H = s₁.view H ∨
        S.eip158ForkBlock ≤ envInfo.number ∧ s.view H = (s₁.view H).credit (s₁.fresh H) p.codeAddress 0) :
      Called H S envInfo p s₁ (true, e) s
  | done {e : Executive} {s : State} (hexcepted : e.excepted = .None)
      (htransfer : Transferred H p.senderAddress p.receiveAddress p.valueTransfer s₁ (s.view H)) :
      Called H S envInfo p s₁ (true, e) s
  | entered {e : Executive} {E : ExtVM} {s : State} (h : Entered H e E s₁ s) (hcall : e.isCreation = false)
      (henv : E.envInfo = envInfo) (hstatic : E.staticCall = p.staticCall)
      (htransfer : Transferred H p.senderAddress p.receiveAddress p.valueTransfer s₁ (s.view H)) :
      Called H S envInfo p s₁ (false, e) s

theorem ends_enterCall {p : CallParameters} {gasPrice : U256} {origin : Address} {s : State}
    (hs : s.Sound H) (hext : e.ext = none) (hexcepted : e.excepted = .None)
    (hcall : e.isCreation = false) :
    Ends (e.enterCall H S p gasPrice origin) s fun r s' => Later H s s' ∧
    Called H S e.envInfo p s r s' := by
  -- a transfer after something was read
  have htransfer {s₁ : State} (hr : Reads H s s₁) :
      PostE (transferBalance H p.senderAddress p.receiveAddress p.valueTransfer) s₁
        (fun _ s' => Later H s s' ∧
        Transferred H p.senderAddress p.receiveAddress p.valueTransfer s (s'.view H)) fun _ => True := by
    refine ((later_transferBalance hr.sound _ _ _).and (view_transferBalance hr.sound _ _ _)).mono
      ?_ fun _ _ => trivial
    rintro _ s' ⟨hl, hview, hcash⟩
    have hread : Later H s s₁ := .of_reads hr
    rw [hr.view, fresh_of_later hread hs] at hview
    rw [hr.view] at hcash
    exact ⟨hread.trans hl, hview, hcash⟩
  unfold enterCall
  simp only [ends_bind, ends_get, ends_ite, ends_lift, ends_pure, ends_uncaught, hext, hcall,
    hexcepted]
  split_ifs with hprecompiled hgas heip hsuccess
  · refine ((later_addBalance hs 0).and (view_addBalance hs 0)).mono ?_ fun _ _ => trivial
    rintro _ s' ⟨hl, hview⟩
    exact ⟨hl, .refused hprecompiled (by simp) (.inr ⟨heip, hview⟩)⟩
  · exact ⟨.refl s, .refused hprecompiled (by simp) (.inl rfl)⟩
  · exact ⟨.refl s, .refused hprecompiled (by simp) (.inl rfl)⟩
  · exact (htransfer (.refl hs)).mono (fun _ s' h => ⟨h.1, .done rfl h.2⟩) fun _ _ => trivial
  · refine (addressHasCode_spec hs p.codeAddress).mono ?_
    rintro hasCode s₁ ⟨-, hr₁⟩
    split_ifs
    · refine (code_spec hr₁.sound p.codeAddress).mono ?_
      rintro code s₂ ⟨-, hr₂, -⟩
      refine (codeHash_spec hr₂.sound p.codeAddress).mono ?_
      rintro _ s₃ ⟨-, hr₃⟩
      refine (htransfer (hr₁.trans (hr₂.trans hr₃))).mono ?_ fun _ _ => trivial
      rintro _ s' ⟨hl, htransferred⟩
      refine ⟨hl, .entered ⟨rfl, hs, hl, rfl, rfl, rfl, ⟨hl.sound hs, ?_⟩, (by simp), (by simp)⟩ rfl
        rfl rfl htransferred⟩
      rw [htransferred.view, View.credit, Function.update_self]
      rfl
    · refine (htransfer hr₁).mono ?_ fun _ _ => trivial
      rintro _ s' ⟨hl, htransferred⟩
      exact ⟨hl, .done rfl htransferred⟩

end Executive

namespace ExtVM

/-- How `create` begins, with either instruction. -/
def enterCreate (H : Hasher) (S : SealEngineFace) (E : ExtVM) (endowment gas : U256) (init : Bytes)
    (op : Instruction) (salt : U256) : Process State (Bool × Executive) :=
  let e : Executive := { envInfo := E.envInfo, depth := E.depth + 1 }
  if op = .CREATE then e.createOpcode H S E.myAddress endowment E.gasPrice gas init E.origin
  else e.create2Opcode H S E.myAddress endowment E.gasPrice gas init E.origin salt

variable {E : ExtVM} {endowment gas : U256} {init : Bytes} {op : Instruction} {salt : U256}

theorem createExecutive_eq : createExecutive H S run E endowment gas init op salt = (do
    let r ← onState (E.enterCreate H S endowment gas init op salt)
    finish H S run r.1 r.2) := rfl

theorem enterCreate_cases {P : Process State (Bool × Executive) → Prop}
    (hcreate : P (Executive.createOpcode H S { envInfo := E.envInfo, depth := E.depth + 1 }
      E.myAddress endowment E.gasPrice gas init E.origin))
    (hcreate2 : ∀ newAddress, P
      (Executive.executeCreate H S { envInfo := E.envInfo, depth := E.depth + 1, newAddress }
      E.myAddress endowment E.gasPrice gas init E.origin)) :
        P (E.enterCreate H S endowment gas init op salt) := by
  unfold enterCreate
  split_ifs
  · exact hcreate
  · exact hcreate2 _

end ExtVM
end Vapory
