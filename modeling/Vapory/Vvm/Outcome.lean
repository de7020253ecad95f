import Vapory.Base.Outcome
import Vapory.Vvm.VM

/-! How the parts of an instruction end: the stack pointers, the casts to 63 bits and the
charges. -/
namespace Vapory.Vvm
open ProgT

variable {Ans : (q : ExtCall) → q.Answer → Prop} {s : Machine}

variable {R : Except VMException UInt64 → Machine → Prop}

theorem outcome_toInt63 {v : ℕ} :
    Outcome Ans (toInt63 v) s R ↔
    if v < 2 ^ 63 then R (.ok (UInt64.ofNat v)) s else R (.error .OutOfGas) s := by
  unfold toInt63 throwOutOfGas
  rw [outcome_ite]
  split_ifs with h h' h'
  · omega
  · exact outcome_throw _
  · exact outcome_pure _
  · omega

theorem outcome_toInt63_toNat {v : UInt32} :
    Outcome Ans (toInt63 v.toNat) s R ↔ R (.ok (UInt64.ofNat v.toNat)) s := by
  have hlt := v.toNat_lt
  rw [outcome_toInt63, if_pos (by omega)]

theorem ofNat_toNat_le {v : UInt32} {gas : UInt64} :
    UInt64.ofNat v.toNat ≤ gas ↔ v.toNat ≤ gas.toNat := by
  have hlt := v.toNat_lt
  have htoNat : (UInt64.ofNat v.toNat).toNat = v.toNat := Nat.mod_eq_of_lt (by omega)
  rw [UInt64.le_iff_toNat_le, htoNat]

def Machine.charged (s : Machine) : Machine := { s with ioGas := s.ioGas - s.runGas }

theorem outcome_updateIOGas {R : Except VMException Unit → Machine → Prop} :
    Outcome Ans updateIOGas s R ↔
    if s.runGas ≤ s.ioGas then R (.ok ()) s.charged else R (.error .OutOfGas) s := by
  simp only [updateIOGas, throwOutOfGas, outcome_bind, outcome_get, andThen_ok, outcome_ite,
    outcome_throw, andThen_error, outcome_modify]
  rw [← ite_not]
  simp only [UInt64.not_lt]
  rfl

def Machine.fetched (s : Machine) (E : ExtVMFace) (op : Instruction) : Machine :=
  { s with
    sp := s.spp
    spp := s.spp + op.metric.args - op.metric.ret
    runGas := UInt64.ofNat (tierStepGas E op.metric.gasPriceTier).toNat
    newMemSize := UInt64.ofNat s.mem.length
    copyMemSize := 0 }

theorem outcome_fetchInstruction {E : ExtVMFace} {op : Instruction}
    (hargs : s.spp + op.metric.args ≤ Machine.stackEnd)
    (hret : op.metric.ret ≤ s.spp + op.metric.args) {R : Except VMException Unit → Machine → Prop} :
    Outcome Ans (fetchInstruction E op) s R ↔ R (.ok ()) (s.fetched E op) := by
  simp only [fetchInstruction, adjustStack, setRunGas, outcome_bind, outcome_modify, andThen_ok,
    outcome_get, not_lt.mpr hargs, not_lt.mpr hret, ite_false, outcome_toInt63_toNat]
  rfl

end Vapory.Vvm
