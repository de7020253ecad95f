import Vapory.Vvm.Moves

/-! What the interpreter asks for in a static call: every instruction that would change
the state is guarded, except `CREATE2`. -/
namespace Vapory.Vvm
open ProgT

/-- The calls that leave balances, nonces, storage, codes, logs and suicides alone, reads and static
message calls that transfer nothing to another account; and the creations by `CREATE2`. -/
def ExtCall.Static : ExtCall → Prop
  | store _ => True
  | balance _ => True
  | codeAt _ => True
  | codeSizeAt _ => True
  | exists_ _ => True
  | blockHash _ => True
  | call p => p.staticCall = true ∧ (p.valueTransfer = 0 ∨ p.senderAddress = p.receiveAddress)
  | create _ _ _ op _ => op = .CREATE2
  | _ => False

instance : AllowsReads ExtCall.Static :=
  ⟨fun _ => trivial, fun _ => trivial, fun _ => trivial, fun _ => trivial, fun _ => trivial,
  fun _ => trivial⟩

-- the instances for long instructions are large terms
set_option synthInstance.maxSize 4096

section
variable {H : Hasher} {E : ExtVMFace} (hstatic : E.staticCall = true)
include hstatic

/-- A call in a static context is static, and if it transfers a value, it is a `CALLCODE`,
which transfers it to the sender. -/
theorem static_caseCallSetup (op : Instruction) (s : Machine)
    (hvalue : op = .CALL → s.stack (s.sp + 2) = 0) :
    Spec ExtCall.Static (caseCallSetup E op) s fun setup _ =>
      ∀ p out, setup.call = some (p, out) → (ExtCall.call p).Static := by
  unfold caseCallSetup
  have hstep : Spec ExtCall.Static (toInt63 E.vvmSchedule.callGas.toNat) s fun _ s' => s' = s := by
    simp [toInt63, throwOutOfGas]
  refine hstep.bind fun gas s' hs => ?_
  subst hs
  rw [setRunGas, spec_modify_bind, spec_sp_bind]
  dsimp only
  rw [spec_sp_bind]
  dsimp only
  generalize s'.stack (s'.sp + 2) = value at hvalue ⊢
  -- the gas, the place of input and output, memory and metering do not matter
  iterate 15 refine moves_then fun _ _ => ?_
  rw [spec_ite]
  refine ⟨fun _ => ?_, fun _ => (by simp)⟩
  rw [spec_pure]
  rintro p out ⟨⟩
  refine ⟨by simp [hstatic], ?_⟩
  by_cases hcall : op = .CALL
  · exact .inl (by simp [hcall, hvalue hcall])
  · by_cases hcallcode : op = .CALLCODE
    · exact .inr (by simp [hcallcode])
    · exact .inl (by simp [hcall, hcallcode])

theorem static_caseCall (op : Instruction) (s : Machine)
    (hvalue : op = .CALL → s.stack (s.sp + 2) = 0) :
    Spec ExtCall.Static (caseCall E op) s fun _ _ => True := by
  unfold caseCall
  rw [spec_modify_bind]
  refine Spec.bind (static_caseCallSetup hstatic op { s with returnData := [] } hvalue)
    fun setup s₁ hsetup => ?_
  cases hcall : setup.call with
  | none => exact moves_then fun _ _ => trivial
  | some call =>
    obtain ⟨p, out⟩ := call
    exact (spec_ask_bind _).mpr ⟨hsetup p out hcall, fun _ => trivial⟩

theorem static_caseHalt (op : Instruction) (m : MachineM Bytes) (hop : caseHalt E op = some m)
    (s : Machine) : Spec ExtCall.Static m s fun _ _ => True := by
  unfold caseHalt at hop
  split at hop
  · cases hop
    exact spec_of_moves _ s
  · cases hop
    dsimp only
    exact spec_of_moves _ s
  · cases hop
    simp only [caseSuicide, hstatic, if_true]
    exact trivial
  · cases hop
    exact spec_of_moves _ s
  · cases hop

omit hstatic in
theorem static_caseCreate2 (s : Machine) :
    Spec ExtCall.Static (caseCreate E .CREATE2) s fun _ _ => True := by
  have (endowment gas : U256) (init : Bytes) (salt : U256) :
      Moves ExtCall.Static (ext (.create endowment gas init .CREATE2 salt)) := moves_ext rfl
  unfold caseCreate
  exact spec_of_moves _ s

theorem static_caseNext (pc : ℕ) (op : Instruction) (s : Machine) :
    Spec ExtCall.Static (caseNext H E pc op) s fun _ _ => True := by
  by_cases hplain : op.isPlain = true
  · have : Moves ExtCall.Static (caseNext H E pc op) := moves_caseNext H E pc hplain
    exact spec_of_moves _ s
  unfold caseNext
  cases op
  case CALL =>
    simp only [sp, hstatic, true_and, bind_assoc, pure_bind, spec_get_bind, spec_ite,
      throwDisallowedStateChange, spec_throw_bind]
    exact ⟨fun _ => trivial, fun h => static_caseCall hstatic _ s fun _ => not_not.mp h⟩
  case CALLCODE => exact static_caseCall hstatic _ s (by simp)
  case DELEGATECALL =>
    simp only [spec_ite, throwBadInstruction, spec_throw_bind]
    exact ⟨fun _ => trivial, fun _ => static_caseCall hstatic _ s (by simp)⟩
  case STATICCALL =>
    simp only [spec_ite, throwBadInstruction, spec_throw_bind]
    exact ⟨fun _ => trivial, fun _ => static_caseCall hstatic _ s (by simp)⟩
  -- the guards
  case LOG =>
    simp only [caseLog, hstatic, if_true]
    exact trivial
  case CREATE =>
    simp only [hstatic, if_true]
    exact trivial
  case CREATE2 =>
    simp only [spec_ite, throwBadInstruction, spec_throw_bind]
    exact ⟨fun _ => trivial, fun _ => static_caseCreate2 s⟩
  case SSTORE =>
    simp only [hstatic, if_true]
    exact trivial
  all_goals exact absurd rfl hplain

theorem static_caseOrdinary (pc : ℕ) (op : Instruction) (s : Machine) :
    Spec ExtCall.Static (caseOrdinary H E pc op) s fun _ _ => True := by
  unfold caseOrdinary
  cases hop : caseHalt E op with
  | none => exact (static_caseNext hstatic pc op s).bind fun _ _ _ => trivial
  | some halt => exact (static_caseHalt hstatic op halt hop s).bind fun _ _ _ => trivial

theorem static_exec (n : ℕ) (gas : U256) : (exec H E n gas).Sat ExtCall.Static fun _ => True :=
  sat_exec (static_caseOrdinary hstatic) n gas

end
end Vapory.Vvm
