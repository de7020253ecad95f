import Vapory.Executive.Nested
import Vapory.Vvm.Static

/-! A static call, with everything that it calls, only touches accounts, as long as it executes no
`CREATE2` and asks no contract for the hash of a block. -/
namespace Vapory
open Vvm State
variable {H : Hasher} {S : SealEngineFace} {run : VMRun}

namespace ExtVM
variable {E : ExtVM}

/-- The calls of the machine other than `CREATE2` and block hashes that the contract is asked
for. -/
def guarded (S : SealEngineFace) (E : ExtVM) (_ : State) : ExtCall → Bool
  | .create _ _ _ op _ => op ≠ .CREATE2
  | .blockHash number => E.NeedsNoContract S number
  | _ => true

/-- What a static context does: accounts are touched, and nothing is added to the substate. -/
def OnlyTouches (H : Hasher) (E : ExtVM) (s : State) (sub : SubState) (s' : State) : Prop :=
  Touched H s s' ∧ sub = E.sub

theorem touches_call (hrun : VMRun.Keeps H (fun E _ => E.staticCall = true) (OnlyTouches H) run)
    {p : CallParameters} (hp : (ExtCall.call p).Static) {f : Frame} (hs : f.state.Sound H) :
    Ends (E.call H S run p) f fun _ f' =>
      Later H f.state f'.state ∧ Touched H f.state f'.state ∧ f'.sub = f.sub := by
  refine (ends_call hrun hs fun _ _ _ hstatic _ => hstatic.trans hp.1).mono ?_
  rintro ⟨success, output, gas⟩ f' ⟨hl, hends⟩
  refine ⟨hl, ?_⟩
  cases hends with
  | refused _ hview hsub =>
    refine ⟨?_, hsub⟩
    rcases hview with hview | ⟨-, hview⟩
    · exact .of_view hview
    · intro addr
      rw [hview]
      exact (View.credit_zero p.codeAddress addr).imp_right And.right
  | done htransfer hsub => exact ⟨touched_transfer htransfer.view htransfer.cash hp.2, hsub⟩
  | failed hview hsub => exact ⟨.of_view hview, hsub⟩
  | ran hl₁ htransfer hempty hI hsub =>
    refine ⟨(touched_transfer htransfer.view htransfer.cash hp.2).trans hI.1 (fresh_of_later hl₁ hs), ?_⟩
    rw [hsub, hI.2, hempty, SubState.accrue_empty]

theorem touches_answer (hrun : VMRun.Keeps H (fun E _ => E.staticCall = true) (OnlyTouches H) run)
    {q : ExtCall} (hq : q.Static) {f : Frame} (hguard : E.guarded S f.state q = true)
    (hs : f.state.Sound H) : Ends (E.answer H S run q) f fun _ f' =>
      Later H f.state f'.state ∧ Touched H f.state f'.state ∧ f'.sub = f.sub := by
  have hread {s' : State} (hr : Reads H f.state s') : Later H f.state s' ∧ Touched H f.state s' ∧
    True :=
    ⟨.of_reads hr, .of_view hr.view, trivial⟩
  cases q with
  | store key =>
    simp only [answer, ends_onState, ends_lift]
    exact (storage_spec hs _ _).mono fun _ _ h' => hread h'.2.1
  | balance a =>
    simp only [answer, ends_onState, ends_lift]
    exact (balance_spec hs _).mono fun _ _ h' => hread h'.2
  | codeAt a =>
    simp only [answer, ends_onState, ends_lift]
    exact (code_spec hs _).mono fun _ _ h' => hread h'.2.1
  | codeSizeAt a =>
    simp only [answer, ends_onState, ends_lift]
    exact (codeSize_spec hs _).mono fun _ _ h' => hread h'
  | exists_ a =>
    simp only [answer, ends_onState, ends_ite, ends_lift]
    split_ifs
    · exact (accountNonemptyAndExisting_spec hs _).mono fun _ _ h' => hread h'.2
    · exact (addressInUse_spec hs _).mono fun _ _ h' => hread h'.2
  | call p => exact touches_call hrun hq hs
  | blockHash number =>
    simp only [answer, ends_onState]
    refine (ends_blockHash (of_decide_eq_true hguard) f.state).mono ?_
    rintro _ _ rfl
    exact hread (.refl hs)
  | create endowment gas init op salt =>
    have hne : op ≠ .CREATE2 := of_decide_eq_true hguard
    exact absurd hq hne
  | setStore | suicide | log | addRefund => exact hq.elim

end ExtVM

/-- A static run leaves every balance, nonce, storage slot and code as it was, and its substate
is the one it started with; where there was no account, there may be an empty one. -/
theorem static_run_touches (n : ℕ) (E : ExtVM) (gas : U256) (s : State) (hs : s.Sound H)
    (hstatic : E.staticCall = true)
    (hasks : AsksOnly H S (ExtVM.guarded S) n (fun run => run E gas) s) :
    Ends (runVM H S n E gas) s fun r s' => Touched H s s' ∧ r.2.2 = E.sub := by
  have hkeeps : VMRun.Keeps H (fun E _ => E.staticCall = true) (ExtVM.OnlyTouches H)
      (runWithin H S (ExtVM.guarded S) n) := by
    refine keeps_runWithin (fun _ q => q.Static) ?_ (fun E s => ⟨.of_view rfl, rfl⟩) ?_ n
    · intro E s n gas h
      exact static_exec h n gas
    · intro run hrun E s q f _ hq hguard hs hl hI
      refine (ExtVM.touches_answer hrun hq hguard (hl.sound hs)).mono fun _ f' h' =>
        ⟨h'.1, ?_, h'.2.2.trans hI.2⟩
      exact hI.1.trans h'.2.1 (fresh_of_later hl hs)
  exact hasks.ends (guards_runWithin n E gas) ((hkeeps E gas s hstatic hs).mono fun _ _ h => h.2)

def exampleTouch : Bytes :=
  [0x61, 0x01, 0x90, 0x40, 0x60, 0, 0x60, 0, 0x60, 0, 0x60, 0, 0x60, 0, 0x60, 3, 0x60, 100, 0xf1, 0]

/-- In block 300 of a chain with `CREATE2` account 1 asks for the hash of block 400 and touches
account 3. -/
theorem static_run_touches_exampleTouch :
    (((runVM lengthHasher exampleEngine 20 (exampleContext 300 exampleTouch true) 100000).run
      (exampleWorld [])).toOption.map fun r => ((addressInUse lengthHasher 3).run r.2).1) = some true ∧
    Ends (runVM lengthHasher exampleEngine 20 (exampleContext 300 exampleTouch true) 100000)
      (exampleWorld []) fun r s' => Touched lengthHasher (exampleWorld []) s' ∧ r.2.2 = .empty :=
  ⟨by decide +kernel, static_run_touches 20 (exampleContext 300 exampleTouch true) 100000
    (exampleWorld []) (sound_exampleWorld []) rfl (.of_isSome 20 (by decide +kernel))⟩

/-- `CREATE2` is not guarded: a static run of account 1 increments its nonce. -/
theorem static_create2_changes_nonce :
    let E := exampleContext 9 [0x60, 0, 0x60, 0, 0x60, 0, 0x60, 0, 0xfb, 0] true
    E.staticCall = true ∧ ((getNonce lengthHasher 1).run (exampleWorld [])).1 = 3 ∧
      (((runVM lengthHasher exampleEngine 9 E 100000).run (exampleWorld [])).toOption.map fun r =>
        ((getNonce lengthHasher 1).run r.2).1) = some 4 := by
  decide +kernel

end Vapory
