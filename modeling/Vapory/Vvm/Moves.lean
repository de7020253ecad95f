import Vapory.Vvm.VMOpt

/-! What holds for nearly every part of every instruction: it makes calls of a certain kind only. -/
namespace Vapory.Vvm
open ProgT

/-- The calls that only read are allowed. -/
class AllowsReads (Ok : ExtCall → Prop) : Prop where
  store (key : U256) : Ok (.store key)
  balance (a : Address) : Ok (.balance a)
  codeAt (a : Address) : Ok (.codeAt a)
  codeSizeAt (a : Address) : Ok (.codeSizeAt a)
  exists_ (a : Address) : Ok (.exists_ a)
  blockHash (number : U256) : Ok (.blockHash number)

/-- From any state, `m` makes only calls that are allowed. A class, so that instances follow the way
`m` is built. -/
class Moves (Ok : ExtCall → Prop) {α : Type} (m : MachineM α) : Prop where
  sat : ∀ s, (m.runFrom s).Sat Ok fun _ => True

section
variable {Ok : ExtCall → Prop} {α β : Type} {m m' : MachineM α} {f : α → MachineM β}

theorem spec_of_moves (m : MachineM α) [hm : Moves Ok m] (s : Machine) :
    Spec Ok m s fun _ _ => True := by
  refine (hm.sat s).mono ?_
  rintro ⟨_ | a, s'⟩ -
  · exact trivial
  · exact trivial

instance (a : α) : Moves Ok (pure a : MachineM α) := ⟨fun _ => trivial⟩
instance (e : VMException) : Moves Ok (throw e : MachineM α) := ⟨fun _ => trivial⟩
instance : Moves Ok (get : MachineM Machine) := ⟨fun _ => trivial⟩
instance (g : Machine → Machine) : Moves Ok (modify g : MachineM PUnit) := ⟨fun _ => trivial⟩

instance [hm : Moves Ok m] [hf : ∀ a, Moves Ok (f a)] : Moves Ok (m >>= f) := by
  refine ⟨fun s => ?_⟩
  rw [runFrom_bind]
  refine (hm.sat s).bind ?_
  rintro ⟨_ | a, s'⟩ -
  · exact trivial
  · exact (hf a).sat s'

instance {c : Prop} [Decidable c] [Moves Ok m] [Moves Ok m'] : Moves Ok (if c then m else m') := by
  split_ifs <;> assumption

theorem moves_ext {q : ExtCall} (h : Ok q) : Moves Ok (ext q) := ⟨fun _ => ⟨h, fun _ => trivial⟩⟩

theorem spec_sp_bind (i : ℕ) (f : U256 → MachineM α) (s : Machine) (P : α → Machine → Prop) :
    Spec Ok (sp i >>= f) s P ↔ Spec Ok (f (s.stack (s.sp + i))) s P := .rfl

/-- A first part about which nothing else need be known. -/
theorem moves_then {s : Machine} {P : β → Machine → Prop} [Moves Ok m]
    (hf : ∀ a s', Spec Ok (f a) s' P) : Spec Ok (m >>= f) s P :=
  (spec_of_moves m s).bind fun a s' _ => hf a s'

end

-- the instances for long instructions are large terms
set_option synthInstance.maxSize 4096

section
variable {Ok : ExtCall → Prop} (E : ExtVMFace)

instance (i : ℕ) : Moves Ok (sp i) := by unfold sp; infer_instance
instance (i : ℕ) (v : U256) : Moves Ok (setSp i v) := by unfold setSp; infer_instance
instance (v : U256) : Moves Ok (setSpp v) := by unfold setSpp; infer_instance
instance (gas : UInt64) : Moves Ok (setRunGas gas) := by unfold setRunGas; infer_instance
instance (gas : UInt64) : Moves Ok (addRunGas gas) := by unfold addRunGas; infer_instance
instance {α : Type} : Moves Ok (throwOutOfGas : MachineM α) := by
  unfold throwOutOfGas; infer_instance
instance {α : Type} : Moves Ok (throwBadInstruction : MachineM α) := by
  unfold throwBadInstruction; infer_instance
instance {α : Type} : Moves Ok (throwBadJumpDestination : MachineM α) := by
  unfold throwBadJumpDestination; infer_instance
instance {α : Type} (output : Bytes) : Moves Ok (throwRevertInstruction output : MachineM α) := by
  unfold throwRevertInstruction; infer_instance
instance {α : Type} (spp : ℤ) (removed added : ℕ) :
    Moves Ok (throwBadStack spp removed added : MachineM α) := by
  unfold throwBadStack; infer_instance
instance {α : Type} (endOfAccess : ℕ) : Moves Ok (throwBufferOverrun endOfAccess : MachineM α) := by
  unfold throwBufferOverrun; infer_instance
instance (v : ℕ) : Moves Ok (toInt63 v) := by unfold toInt63; infer_instance
instance (offset size : U256) : Moves Ok (memNeed offset size) := by unfold memNeed; infer_instance
instance (removed added : ℕ) : Moves Ok (adjustStack removed added) := by
  unfold adjustStack; infer_instance

instance : Moves Ok updateIOGas := by unfold updateIOGas; infer_instance
instance : Moves Ok (updateGas E) := by unfold updateGas gasForMem; infer_instance
instance (newMem : UInt64) : Moves Ok (updateMem E newMem) := by unfold updateMem; infer_instance
instance (op : Instruction) : Moves Ok (fetchInstruction E op) := by
  unfold fetchInstruction; infer_instance
instance (data : Bytes) (k : ℕ) : Moves Ok (copyDataToMemory data k) := by
  unfold copyDataToMemory; infer_instance
instance (data : Bytes) : Moves Ok (copyToMemory E data) := by unfold copyToMemory; infer_instance
instance : Moves Ok (returned E) := by unfold returned; infer_instance
instance (v : U256) : Moves Ok (nullary v) := by unfold nullary; infer_instance
instance (f : U256 → U256) : Moves Ok (unary f) := by unfold unary; infer_instance
instance (f : U256 → U256 → U256) : Moves Ok (binary f) := by unfold binary; infer_instance
instance (f : U256 → U256 → U256 → U256) : Moves Ok (ternary f) := by unfold ternary; infer_instance

instance (T : Text) (dest : U256) : Moves Ok (T.jumpTo dest) := by
  unfold Text.jumpTo
  split <;> infer_instance

instance (T : Text) (pc : ℕ) : Moves Ok (T.casePushc pc) := by unfold Text.casePushc; infer_instance
instance (T : Text) (pc : ℕ) (n : Fin 32) : Moves Ok (T.casePush pc n) := by
  unfold Text.casePush; infer_instance
instance (T : Text) : Moves Ok T.caseJump := by unfold Text.caseJump; infer_instance
instance (T : Text) (pc : ℕ) : Moves Ok (T.caseJumpi pc) := by unfold Text.caseJumpi; infer_instance
instance : Moves Ok caseJumpc := by unfold caseJumpc; infer_instance
instance (pc : ℕ) : Moves Ok (caseJumpci pc) := by unfold caseJumpci; infer_instance

end

section
variable {Ok : ExtCall → Prop} [AllowsReads Ok] (E : ExtVMFace)

instance (key : U256) : Moves Ok (ext (.store key)) := moves_ext (AllowsReads.store key)
instance (a : Address) : Moves Ok (ext (.balance a)) := moves_ext (AllowsReads.balance a)
instance (a : Address) : Moves Ok (ext (.codeAt a)) := moves_ext (AllowsReads.codeAt a)
instance (a : Address) : Moves Ok (ext (.codeSizeAt a)) := moves_ext (AllowsReads.codeSizeAt a)
instance (a : Address) : Moves Ok (ext (.exists_ a)) := moves_ext (AllowsReads.exists_ a)
instance (number : U256) : Moves Ok (ext (.blockHash number)) :=
  moves_ext (AllowsReads.blockHash number)

instance (op : Instruction) (a : Address) (value : U256) : Moves Ok (addCallGas E op a value) := by
  unfold addCallGas
  dsimp only
  infer_instance

end

def Instruction.isPlain : Instruction → Bool
  | CREATE | CREATE2 | CALL | CALLCODE | DELEGATECALL | STATICCALL | LOG _ | SSTORE => false
  | _ => true

theorem moves_caseNext {Ok : ExtCall → Prop} [AllowsReads Ok] (H : Hasher) (E : ExtVMFace) (pc : ℕ)
    {op : Instruction} (hop : op.isPlain = true) : Moves Ok (caseNext H E pc op) := by
  cases op
  case CREATE | CREATE2 | CALL | CALLCODE | DELEGATECALL | STATICCALL | LOG | SSTORE => cases hop
  all_goals
    dsimp only [caseNext]
    infer_instance

section
variable {Ok : ExtCall → Prop} {H : Hasher} {E : ExtVMFace}
  (hordinary : ∀ pc op s, Spec Ok (caseOrdinary H E pc op) s fun _ _ => True)
include hordinary

theorem spec_step (T : Text) (pc : ℕ) (s : Machine) : Spec Ok (step H E T pc) s fun _ _ => True := by
  refine moves_then fun _ s₁ => ?_
  unfold caseOf
  split
  · exact spec_of_moves _ s₁
  · exact spec_of_moves _ s₁
  · exact spec_of_moves _ s₁
  · exact spec_of_moves _ s₁
  · exact spec_of_moves _ s₁
  · exact spec_of_moves _ s₁
  · exact hordinary pc _ s₁

theorem spec_interpretCases (T : Text) (n pc : ℕ) (s : Machine) :
    Spec Ok (interpretCases H E T n pc) s fun _ _ => True := by
  induction n generalizing pc s with
  | zero => exact trivial
  | succ n ih =>
    refine (spec_step hordinary T pc s).bind fun next s₁ _ => ?_
    cases next with
    | «continue» pc => exact ih pc s₁
    | halt output => exact trivial

theorem sat_exec (n : ℕ) (gas : U256) : (exec H E n gas).Sat Ok fun _ => True :=
  Prog.Sat.bind (spec_interpretCases hordinary _ n 0 _) fun _ _ => trivial

end
end Vapory.Vvm
