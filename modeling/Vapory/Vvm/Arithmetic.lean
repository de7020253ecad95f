import Vapory.Vvm.Outcome
import Vapory.Vvm.Refinement

/-! The arithmetic instructions against integers: division and remainder with and without signs,
modular sums and products, powers, single bytes, sign extension and signed comparisons. -/
namespace Vapory.Vvm
open Function BitVec Nat

open ProgT

section
variable (a b : U256)

theorem u2s_eq_toInt : u2s a = a.toInt := by
  rw [u2s, toInt_eq_msb_cond, msb_eq_getLsbD_last]
  split_ifs <;> simp

theorem s2u_eq_ofInt (x : ℤ) : s2u x = BitVec.ofInt 256 x := by
  rw [s2u]
  split_ifs with h
  · rfl
  · apply eq_of_toNat_eq
    rw [toNat_ofInt, toNat_ofInt]
    congr 1
    exact Int.add_emod_left ..

/-- The invariant of the loop: what is done times what is left of the power. -/
theorem toNat_exp256Loop (n : ℕ) (result base exponent : U256) (hn : exponent.toNat < 2 ^ n) :
    (exp256Loop n result base exponent).toNat =
    result.toNat * base.toNat ^ exponent.toNat % 2 ^ 256 := by
  induction n generalizing result base exponent with
  | zero =>
    have h0 : exponent.toNat = 0 := by omega
    rw [exp256Loop, h0, pow_zero, mul_one, mod_eq_of_lt result.isLt]
  | succ n ih =>
    have hhalf : (exponent >>> 1).toNat = exponent.toNat / 2 := by simp [shiftRight_eq_div_pow]
    have hlt : (exponent >>> 1).toNat < 2 ^ n := by omega
    have hbit : exponent.getLsbD 0 = true ↔ exponent.toNat % 2 = 1 := by
      rw [BitVec.getLsbD, testBit_zero, decide_eq_true_iff]
    have hsquare : (base * base).toNat ^ (exponent.toNat / 2) ≡
      base.toNat ^ (2 * (exponent.toNat / 2)) [MOD 2 ^ 256] := by
      rw [toNat_mul, pow_mul, pow_two]
      exact (mod_modEq ..).pow _
    rw [exp256Loop]
    split_ifs with hzero hodd
    · rw [hzero, show (0 : U256).toNat = 0 from rfl, pow_zero, mul_one, mod_eq_of_lt result.isLt]
    · have hexp : exponent.toNat = 1 + 2 * (exponent.toNat / 2) := by rw [hbit] at hodd; omega
      rw [ih _ _ _ hlt, hhalf]
      refine Nat.ModEq.trans ((mod_modEq ..).mul hsquare) ?_
      rw [mul_assoc, ← pow_succ', ← add_one, add_comm, ← hexp]
    · have hexp : exponent.toNat = 2 * (exponent.toNat / 2) := by rw [hbit] at hodd; omega
      rw [ih _ _ _ hlt, hhalf]
      refine Nat.ModEq.trans (hsquare.mul_left _) ?_
      rw [← hexp]

theorem toNat_exp256 : (exp256 a b).toNat = a.toNat ^ b.toNat % 2 ^ 256 := by
  rw [exp256, toNat_exp256Loop _ _ _ _ b.isLt]
  congr 1
  exact one_mul _

theorem getLsbD_mask {t : ℕ} (ht : t < 256) (i : ℕ) :
    (((1 <<< t : ℕ) : U256) - 1).getLsbD i = decide (i < t) := by
  have hshift : ((1 <<< t : ℕ) : U256).toNat = 2 ^ t := by
    have hlt : 2 ^ t < 2 ^ 256 := Nat.pow_lt_pow_right (by decide) ht
    rw [one_shiftLeft]
    exact mod_eq_of_lt hlt
  have hone : (1 : U256) ≤ ((1 <<< t : ℕ) : U256) := by
    rw [le_def, hshift]
    exact Nat.one_le_two_pow
  rw [BitVec.getLsbD, toNat_sub_of_le hone, hshift]
  exact testBit_two_pow_sub_one ..

theorem getLsbD_signExtend_min {i : ℕ} (hi : i < 256) :
    (signExtend a b).getLsbD i = b.getLsbD (min i (8 * min a.toNat 31 + 7)) := by
  have h31 : a < 31 ↔ a.toNat < 31 := lt_def
  rw [signExtend]
  simp only [h31]
  split_ifs with hk hsign
  · rw [show 8 * min a.toNat 31 + 7 = a.toNat * 8 + 7 by omega, getLsbD_or,
      getLsbD_not, getLsbD_mask (by omega)]
    rcases lt_or_ge i (a.toNat * 8 + 7) with h | h
    · simp [h, h.le]
    · simp [hi, h, hsign]
  · rw [show 8 * min a.toNat 31 + 7 = a.toNat * 8 + 7 by omega, getLsbD_and, getLsbD_mask (by omega)]
    rcases lt_or_ge i (a.toNat * 8 + 7) with h | h
    · simp [h, h.le]
    · simp [h, hsign]
  · rw [show 8 * min a.toNat 31 + 7 = 255 by omega, min_eq_left (by omega)]

/-- `SIGNEXTEND` takes the lowest bytes as a number in two's complement. -/
theorem signExtend_eq :
    signExtend a b = (BitVec.ofNat (8 * min a.toNat 31 + 8) b.toNat).signExtend 256 := by
  apply eq_of_getLsbD_eq
  intro i hi
  rw [getLsbD_signExtend_min a b hi, getLsbD_signExtend, msb_eq_getLsbD_last,
    getLsbD_ofNat, getLsbD_ofNat, BitVec.getLsbD, decide_eq_true hi, Bool.true_and]
  split_ifs with h
  · simp only [h, decide_true, Bool.true_and]
    congr 1
    omega
  · simp only [show 8 * min a.toNat 31 + 8 - 1 < 8 * min a.toNat 31 + 8 by omega, decide_true, Bool.true_and]
    congr 1
    omega

theorem toNat_byteOf :
    (byteOf a b).toNat = if a.toNat < 32 then b.toNat / 256 ^ (31 - a.toNat) % 256 else 0 := by
  rw [byteOf]
  have h32 : a < 32 ↔ a.toNat < 32 := lt_def
  simp only [h32]
  split_ifs with h
  · rw [toNat_and, toNat_ushiftRight, shiftRight_eq_div_pow]
    have := and_two_pow_sub_one_eq_mod (b.toNat / 2 ^ (8 * (31 - a.toNat))) 8
    rw [pow_mul] at this ⊢
    exact this
  · rfl

end

/-- The integers that the instructions stand for, of the three words on top of the stack. -/
def integerValue : Instruction → Option (U256 → U256 → U256 → ℤ)
  | .DIV => some fun a b _ => if b.toNat = 0 then 0 else a.toNat / b.toNat
  | .SDIV => some fun a b _ => if b.toInt = 0 then 0 else a.toInt.tdiv b.toInt
  | .MOD => some fun a b _ => if b.toNat = 0 then 0 else a.toNat % b.toNat
  | .SMOD => some fun a b _ => if b.toInt = 0 then 0 else a.toInt.tmod b.toInt
  | .ADDMOD => some fun a b c => if c.toNat = 0 then 0 else (a.toNat + b.toNat) % c.toNat
  | .MULMOD => some fun a b c => if c.toNat = 0 then 0 else a.toNat * b.toNat % c.toNat
  | .EXP => some fun a b _ => a.toNat ^ b.toNat
  | .SIGNEXTEND => some fun a b _ => Int.bmod b.toNat (2 ^ (8 * min a.toNat 31 + 8))
  | .BYTE => some fun a b _ => if a.toNat < 32 then b.toNat / 256 ^ (31 - a.toNat) % 256 else 0
  | .SLT => some fun a b _ => if a.toInt < b.toInt then 1 else 0
  | .SGT => some fun a b _ => if b.toInt < a.toInt then 1 else 0
  | _ => none

section
variable (a b : U256)

theorem eq_zero_iff_toNat : b = 0 ↔ b.toNat = 0 := by
  rw [← toNat_inj]
  rfl

theorem eq_zero_iff_toInt : b = 0 ↔ b.toInt = 0 := by
  rw [← toInt_inj]
  rfl

theorem guarded_eq_ofInt {v : U256} {x : ℤ} {p : Prop} [Decidable p] (hb : b = 0 ↔ p)
    (hv : v = BitVec.ofInt 256 x) :
    (if b ≠ 0 then v else 0) = BitVec.ofInt 256 (if p then 0 else x) := by
  by_cases h : p
  · rw [if_neg (not_not.mpr (hb.mpr h)), if_pos h]
    rfl
  · rw [if_pos (mt hb.mp h), if_neg h, hv]

theorem word_eq_ofInt (p : Prop) [Decidable p] : word p = BitVec.ofInt 256 (if p then 1 else 0) := by
  by_cases h : p <;> simp [word, h]

theorem exp256_eq_ofInt : exp256 a b = BitVec.ofInt 256 (a.toNat ^ b.toNat : ℤ) := by
  apply eq_of_toNat_eq
  rw [toNat_exp256, ← Int.natCast_pow, ofInt_natCast, toNat_ofNat]

theorem signExtend_eq_ofInt :
    signExtend a b = BitVec.ofInt 256 (Int.bmod b.toNat (2 ^ (8 * min a.toNat 31 + 8))) := by
  rw [← ofInt_toInt (x := signExtend a b), signExtend_eq, toInt_signExtend_of_le
    (by omega), ← ofInt_natCast, toInt_ofInt]

theorem byteOf_eq_ofInt :
    byteOf a b = BitVec.ofInt 256
    (if a.toNat < 32 then b.toNat / 256 ^ (31 - a.toNat) % 256 else 0) := by
  have hnat : byteOf a b = BitVec.ofInt 256 (byteOf a b).toNat := by simp
  rw [hnat, toNat_byteOf]
  congr 1
  split_ifs <;> simp

end

section
variable {Ans : (q : ExtCall) → q.Answer → Prop} {H : Hasher} {E : ExtVMFace} {s : Machine}

/-- The case of an instruction ends with `v` in the place of its operands. -/
def Leaves (s : Machine) (v : U256) (r : Except VMException Unit) (s' : Machine) : Prop :=
  r = .ok () ∧ s'.spp = s.spp ∧ s'.stack = update s.stack s.spp v

theorem leaves_binary {f : U256 → U256 → U256} {v : U256} (hgas : s.runGas ≤ s.ioGas)
    (hv : f (s.stack s.sp) (s.stack (s.sp + 1)) = v) : Outcome Ans (binary f) s (Leaves s v) := by
  simp only [binary, sp, setSpp, outcome_bind, outcome_updateIOGas, if_pos hgas, andThen_ok,
    outcome_get, outcome_pure, outcome_modify]
  exact ⟨rfl, rfl, congrArg (update s.stack s.spp) hv⟩

theorem leaves_ternary {f : U256 → U256 → U256 → U256} {v : U256} (hgas : s.runGas ≤ s.ioGas)
    (hv : f (s.stack s.sp) (s.stack (s.sp + 1)) (s.stack (s.sp + 2)) = v) :
    Outcome Ans (ternary f) s (Leaves s v) := by
  simp only [ternary, sp, setSpp, outcome_bind, outcome_updateIOGas, if_pos hgas, andThen_ok,
    outcome_get, outcome_pure, outcome_modify]
  exact ⟨rfl, rfl, congrArg (update s.stack s.spp) hv⟩

def arithmeticGas (E : ExtVMFace) (op : Instruction) (expon : U256) : UInt32 :=
  if op = .EXP then E.vvmSchedule.expGas + E.vvmSchedule.expByteGas * (32 - UInt32.ofNat
    (firstBitSet expon) / 8)
  else tierStepGas E op.metric.gasPriceTier

variable {f : U256 → U256 → U256 → ℤ}

theorem leaves_integerValue {op : Instruction} (hop : integerValue op = some f) {pc : ℕ}
    (hspp : s.spp = s.sp + op.metric.args - 1) (hrun : op ≠ .EXP → s.runGas ≤ s.ioGas)
    (hexp : op = .EXP → (arithmeticGas E op (s.stack (s.sp + 1))).toNat ≤ s.ioGas.toNat) :
    Outcome Ans (caseNext H E pc op) s
      (Leaves s (BitVec.ofInt 256 (f (s.stack s.sp) (s.stack (s.sp + 1)) (s.stack (s.sp + 2))))) := by
  cases op <;> cases hop
  case DIV =>
    apply leaves_binary (hrun (by decide))
    exact guarded_eq_ofInt _ (eq_zero_iff_toNat _) (congrArg _ (Int.ofNat_tdiv ..).symm)
  case SDIV =>
    apply leaves_binary (hrun (by decide))
    apply guarded_eq_ofInt _ (eq_zero_iff_toInt _)
    rw [divWorkaround, u2s_eq_toInt, u2s_eq_toInt, s2u_eq_ofInt]
  case MOD =>
    apply leaves_binary (hrun (by decide))
    exact guarded_eq_ofInt _ (eq_zero_iff_toNat _) (congrArg _ (Int.ofNat_tmod ..).symm)
  case SMOD =>
    apply leaves_binary (hrun (by decide))
    apply guarded_eq_ofInt _ (eq_zero_iff_toInt _)
    rw [modWorkaround, u2s_eq_toInt, u2s_eq_toInt, s2u_eq_ofInt]
  case ADDMOD =>
    apply leaves_ternary (hrun (by decide))
    exact guarded_eq_ofInt _ (eq_zero_iff_toNat _) (ofInt_natCast ..).symm
  case MULMOD =>
    apply leaves_ternary (hrun (by decide))
    exact guarded_eq_ofInt _ (eq_zero_iff_toNat _) (ofInt_natCast ..).symm
  case EXP =>
    simp only [caseNext, sp, setRunGas, setSpp, outcome_bind, outcome_get, outcome_pure,
      outcome_modify, andThen_ok, outcome_toInt63_toNat, outcome_updateIOGas]
    rw [if_pos]
    · exact ⟨rfl, rfl, congrArg (update s.stack s.spp) (exp256_eq_ofInt ..)⟩
    · exact ofNat_toNat_le.mpr (hexp rfl)
  case SIGNEXTEND =>
    simp only [caseNext, sp, setSp, outcome_bind, outcome_get, outcome_pure, outcome_modify,
      andThen_ok, outcome_updateIOGas, if_pos (hrun (by decide))]
    refine ⟨rfl, rfl, ?_⟩
    rw [hspp, ← signExtend_eq_ofInt]
    rfl
  case SLT =>
    apply leaves_binary (hrun (by decide))
    rw [word_eq_ofInt, u2s_eq_toInt, u2s_eq_toInt]
  case SGT =>
    apply leaves_binary (hrun (by decide))
    rw [word_eq_ofInt, u2s_eq_toInt, u2s_eq_toInt]
  case BYTE => exact leaves_binary (hrun (by decide)) (byteOf_eq_ofInt ..)

/-- On a machine that has the words and the gas, each of the instructions leaves the residue of its
integer modulo `2 ^ 256`, in two's complement, in the place of its operands, and nothing else on the
stack changes. -/
theorem step_integerValue {op : Instruction} (hop : integerValue op = some f) {T : Text}
    {pc : ℕ} (hfetch : T.fetch pc = op) (hstack : s.spp + op.metric.args ≤ Machine.stackEnd)
    (hgas : (arithmeticGas E op (s.stack (s.spp + 1))).toNat ≤ s.ioGas.toNat) :
    Outcome Ans (step H E T pc) s fun r s' => r = .ok (.continue (pc + 1)) ∧
    s'.spp = s.spp + op.metric.args - 1 ∧
      s'.stack = update s.stack (s.spp + op.metric.args - 1)
        (BitVec.ofInt 256 (f (s.stack s.spp) (s.stack (s.spp + 1)) (s.stack (s.spp + 2)))) := by
  have hcase : caseOf H E T pc op = do caseNext H E pc op; return .continue (pc + 1) := by
    cases op <;> cases hop <;> rfl
  have hret : op.metric.ret = 1 := by cases op <;> cases hop <;> rfl
  have hargs : 1 ≤ op.metric.args := by cases op <;> cases hop <;> decide
  have hplace : (s.fetched E op).spp = s.spp + op.metric.args - 1 :=
    congrArg (s.spp + op.metric.args - ·) hret
  rw [step, hfetch, hcase, outcome_bind, outcome_fetchInstruction hstack (by omega), andThen_ok,
    outcome_bind]
  refine (leaves_integerValue hop ?_ ?_ ?_).mono ?_
  · exact hplace
  · intro hne
    rw [arithmeticGas, if_neg hne] at hgas
    exact ofNat_toNat_le.mpr hgas
  · intro _
    exact hgas
  · rintro _ s' ⟨rfl, hspp, hstack'⟩
    rw [hplace] at hspp hstack'
    exact ⟨rfl, hspp, hstack'⟩

end

/-- The least number over `-1`. -/
def exampleQuotient : Machine :=
  { Machine.init 100 with stack := fun i => if i = 1022 then BitVec.intMin 256 else -1, spp := 1022 }

theorem step_integerValue_sdiv :
    Outcome (fun _ _ => True) (step exampleHasher exampleFace (referenceText [0x05]) 0)
    exampleQuotient fun r s' =>
      r = .ok (.continue 1) ∧ s'.spp = 1023 ∧
        s'.stack = update exampleQuotient.stack 1023 (BitVec.intMin 256) := by
  have hvalue : integerValue .SDIV = some fun a b _ =>
    if b.toInt = 0 then 0 else a.toInt.tdiv b.toInt := rfl
  refine (step_integerValue hvalue rfl ?_ ?_).mono ?_
  · decide
  · decide
  · rintro r s' ⟨hr, hspp, hstack⟩
    exact ⟨hr, hspp, hstack⟩

end Vapory.Vvm
