import Vapory.Block.Vapash

/-! The difficulty that `calculateDifficulty` of `Vapash.cpp` gives a block, against the formula in
whole numbers. The source has no rule of its own for Constantinople: its blocks have the rule of
Byzantium. -/
namespace Vapory
open BitVec
namespace Vapash
variable (params : VapashParams) (H : Hasher) (bi parent : BlockHeader)

/-- What the rule of the block's fork adds to the difficulty of the parent. -/
def adjustment : ℤ :=
  let difficulty := parent.difficulty.toNat
  let elapsed := bi.timestamp.toNat - parent.timestamp.toNat
  if bi.number < params.homesteadForkBlock then
    if parent.timestamp.toNat + params.durationLimit.toNat ≤ bi.timestamp.toNat then
      -(difficulty / params.difficultyBoundDivisor.toNat : ℕ)
    else (difficulty / params.difficultyBoundDivisor.toNat : ℕ)
  else
    let factor : ℤ :=
      if bi.number < params.byzantiumForkBlock then max (1 - (elapsed / 10 : ℕ)) (-99)
      else max ((if parent.sha3Uncles ≠ H.hash [0xc0] then 2 else 1) - (elapsed / 9 : ℕ)) (-99)
    (difficulty / 2048 : ℕ) * factor

/-- What the periods of 100000 blocks before a number add, of which Byzantium forgets the first
thirty. -/
def periodBomb (number : ℕ) : ℤ :=
  let number := number - if bi.number < params.byzantiumForkBlock then 0 else 3000000
  if number / 100000 > 1 then 2 ^ (number / 100000 - 2) else 0

/-- The difficulty in whole numbers, without minimum and cap. -/
def plainDifficulty : ℤ :=
  parent.difficulty.toNat + adjustment params H bi parent +
    periodBomb params bi (parent.number.toNat + 1)

def exactDifficulty : ℤ :=
  min (max params.minimumDifficulty.toNat (plainDifficulty params H bi parent)) (2 ^ 256 - 1)

/-- What is lost in Frontier if the time from which on the difficulty goes down is no word, so that
it goes down at once, or if the difficulty that goes up is none. -/
def frontierLoss : ℕ :=
  let step := parent.difficulty.toNat / params.difficultyBoundDivisor.toNat
  let due := parent.timestamp.toNat + params.durationLimit.toNat
  if bi.number < params.homesteadForkBlock ∧ bi.timestamp.toNat < due then
    if 2 ^ 256 ≤ due then 2 * step
    else if 2 ^ 256 ≤ parent.difficulty.toNat + step then 2 ^ 256 else 0
  else 0

/-- Nothing is lost, neither in Frontier nor of the number, which is an `unsigned`; or it does not
matter because the minimum is not passed anyway, or the cap is reached all the same. -/
def LosesNothing : Prop :=
  frontierLoss params bi parent = 0 ∧ parent.number.toNat + 1 < 2 ^ 32 ∨
  plainDifficulty params H bi parent ≤ params.minimumDifficulty.toNat ∨
  params.minimumDifficulty.toNat = 2 ^ 256 - 1 ∨
  2 ^ 256 - 1 + (frontierLoss params bi parent : ℤ) ≤ parent.difficulty.toNat +
    adjustment params H bi parent + periodBomb params bi ((parent.number.toNat + 1) % 2 ^ 32)

variable {params H bi parent}

theorem targetDifficulty_frontier (htime : parent.timestamp < bi.timestamp)
    (hfrontier : bi.number < params.homesteadForkBlock) :
    targetDifficulty params H bi parent = parent.difficulty.toNat + adjustment params H bi parent -
      frontierLoss params bi parent := by
  have hle := Nat.div_le_self parent.difficulty.toNat params.difficultyBoundDivisor.toNat
  have hlt := parent.difficulty.isLt
  have hlater : parent.timestamp.toNat < bi.timestamp.toNat := lt_def.mp htime
  have hword := bi.timestamp.isLt
  have hlimit := params.durationLimit.isLt
  have hstep : (parent.difficulty / params.difficultyBoundDivisor).toNat =
      parent.difficulty.toNat / params.difficultyBoundDivisor.toNat := toNat_udiv
  have hlate : bi.timestamp ≥ parent.timestamp + params.durationLimit ↔
      (parent.timestamp.toNat + params.durationLimit.toNat) % 2 ^ 256 ≤ bi.timestamp.toNat := by
    rw [ge_iff_le, le_def, toNat_add]
  simp only [targetDifficulty, adjustment, frontierLoss, hfrontier, true_and, hlate,
    toNat_sub, toNat_add, hstep]
  generalize parent.difficulty.toNat / params.difficultyBoundDivisor.toNat = step at hle ⊢
  split_ifs <;> omega

/-- From Homestead on the code computes with big integers. -/
theorem targetDifficulty_homestead (htime : parent.timestamp < bi.timestamp)
    (hlater : ¬ bi.number < params.homesteadForkBlock) :
    targetDifficulty params H bi parent = parent.difficulty.toNat + adjustment params H bi parent -
      frontierLoss params bi parent := by
  have hlt : parent.timestamp.toNat < bi.timestamp.toNat := lt_def.mp htime
  have helapsed (n : ℕ) : ((bi.timestamp.toNat : ℤ) - parent.timestamp.toNat).tdiv n =
      ((bi.timestamp.toNat - parent.timestamp.toNat) / n : ℕ) := by
    rw [← Nat.cast_sub hlt.le, ← Int.ofNat_tdiv]
  have hten : ((bi.timestamp.toNat : ℤ) - parent.timestamp.toNat).tdiv 10 = _ := helapsed 10
  have hnine : ((bi.timestamp.toNat : ℤ) - parent.timestamp.toNat).tdiv 9 = _ := helapsed 9
  simp [targetDifficulty, adjustment, frontierLoss, hlater, hten, hnine]

theorem exponentialIceAgeBlockNumber_eq : exponentialIceAgeBlockNumber params bi parent =
    (parent.number.toNat + 1) % 2 ^ 32 -
      if bi.number < params.byzantiumForkBlock then 0 else 3000000 := by
  have hsucc : (parent.number + 1).toNat % 2 ^ 32 = (parent.number.toNat + 1) % 2 ^ 32 := by
    rw [toNat_add]
    change (parent.number.toNat + 1) % 2 ^ 256 % 2 ^ 32 = _
    omega
  unfold exponentialIceAgeBlockNumber
  rw [hsucc]
  by_cases hbyzantium : bi.number < params.byzantiumForkBlock
  · rw [if_pos hbyzantium, if_neg (BitVec.not_le.mpr hbyzantium)]
    rfl
  · rw [if_neg hbyzantium, if_pos (BitVec.not_lt.mp hbyzantium)]

theorem periodBomb_mono {n n' : ℕ} (h : n ≤ n') : periodBomb params bi n ≤ periodBomb params bi n' := by
  unfold periodBomb
  dsimp only
  generalize (if bi.number < params.byzantiumForkBlock then 0 else 3000000) = forgotten
  have hperiods := Nat.div_le_div_right (c := 100000) (Nat.sub_le_sub_right h forgotten)
  split_ifs with hold hnew
  · exact pow_le_pow_right₀ (by norm_num) (Nat.sub_le_sub_right hperiods 2)
  · omega
  · positivity
  · exact le_rfl

/-- A number that is no `unsigned` adds more than any word. -/
theorem le_periodBomb {n : ℕ} (h : 2 ^ 32 ≤ n) : 2 ^ 256 ≤ periodBomb params bi n := by
  have hbomb : periodBomb params bi (2 ^ 32) ≥ 2 ^ 256 := by
    unfold periodBomb
    dsimp only
    split_ifs
    · exact pow_le_pow_right₀ (by norm_num) (by norm_num)
    · omega
    · exact pow_le_pow_right₀ (by norm_num) (by norm_num)
    · omega
  exact hbomb.trans (periodBomb_mono h)

theorem neg_le_adjustment : 0 ≤ (parent.difficulty.toNat : ℤ) + adjustment params H bi parent := by
  have hfactor (x : ℤ) : -(parent.difficulty.toNat : ℤ) ≤
      (parent.difficulty.toNat / 2048 : ℕ) * max x (-99) := by
    calc -(parent.difficulty.toNat : ℤ) ≤ (parent.difficulty.toNat / 2048 : ℕ) * (-99) := by omega
      _ ≤ _ := mul_le_mul_of_nonneg_left (le_max_right _ _) (Int.natCast_nonneg _)
  have hle := Nat.div_le_self parent.difficulty.toNat params.difficultyBoundDivisor.toNat
  unfold adjustment
  dsimp only
  generalize parent.difficulty.toNat / params.difficultyBoundDivisor.toNat = step at hle ⊢
  split_ifs
  · omega
  · omega
  all_goals
    rw [← neg_le_iff_add_nonneg']
    exact hfactor _

theorem exists_capped {m : ℕ} (hm : m < 2 ^ 256) (x y : ℤ) :
    (∃ d : U256, Except.ok (ε := VapashError) (BitVec.ofInt 256 (min (max (m : ℤ) x) (2 ^ 256 - 1))) =
        .ok d ∧ (d.toNat : ℤ) = min (max (m : ℤ) y) (2 ^ 256 - 1)) ↔
      min (max (m : ℤ) x) (2 ^ 256 - 1) = min (max (m : ℤ) y) (2 ^ 256 - 1) := by
  simp only [Except.ok.injEq, exists_eq_left', toNat_ofInt]
  omega

/-- The difficulty of a block after its parent is that of the formula exactly if nothing is lost. A
block with the number of the genesis block has none, and the rule of Frontier divides by a
parameter. -/
theorem calculateDifficulty_exact (htime : parent.timestamp < bi.timestamp) :
    (∃ d, calculateDifficulty params H bi parent = .ok d ∧
        d.toNat = exactDifficulty params H bi parent) ↔
      bi.number ≠ 0 ∧ (bi.number < params.homesteadForkBlock → params.difficultyBoundDivisor ≠ 0) ∧
        LosesNothing params H bi parent := by
  by_cases hnumber : bi.number = 0
  · have hthrows : calculateDifficulty params H bi parent = .error .GenesisBlockCannotBeCalculated :=
      if_pos hnumber
    rw [hthrows]
    exact iff_of_false (fun h => by cases h.choose_spec.1) fun h => h.1 hnumber
  by_cases hzero : bi.number < params.homesteadForkBlock ∧ params.difficultyBoundDivisor = 0
  · have hthrows : calculateDifficulty params H bi parent = .error .overflow_error :=
      (if_neg hnumber).trans (if_pos hzero)
    rw [hthrows]
    exact iff_of_false (fun h => by cases h.choose_spec.1) fun h => h.2.1 hzero.1 hzero.2
  have hdivisor : bi.number < params.homesteadForkBlock → params.difficultyBoundDivisor ≠ 0 :=
    fun hfrontier heq => hzero ⟨hfrontier, heq⟩
  have htarget : targetDifficulty params H bi parent = parent.difficulty.toNat +
      adjustment params H bi parent - frontierLoss params bi parent := by
    by_cases hfrontier : bi.number < params.homesteadForkBlock
    · exact targetDifficulty_frontier htime hfrontier
    · exact targetDifficulty_homestead htime hfrontier
  have hvalue : calculateDifficulty params H bi parent = .ok (BitVec.ofInt 256
      (min (max params.minimumDifficulty.toNat (parent.difficulty.toNat +
        adjustment params H bi parent - frontierLoss params bi parent +
          periodBomb params bi ((parent.number.toNat + 1) % 2 ^ 32))) (2 ^ 256 - 1))) := by
    unfold calculateDifficulty periodBomb
    rw [if_neg hnumber, if_neg hzero, htarget, exponentialIceAgeBlockNumber_eq]
    rfl
  rw [hvalue]
  unfold exactDifficulty LosesNothing plainDifficulty
  have hmin := params.minimumDifficulty.isLt
  have hbase := @neg_le_adjustment params H bi parent
  have hmod := @periodBomb_mono params bi _ _ (Nat.mod_le (parent.number.toNat + 1) (2 ^ 32))
  have hlarge := @le_periodBomb params bi (parent.number.toNat + 1)
  have hsmall : parent.number.toNat + 1 < 2 ^ 32 → periodBomb params bi
      ((parent.number.toNat + 1) % 2 ^ 32) = periodBomb params bi (parent.number.toNat + 1) :=
    fun h => congrArg (periodBomb params bi) (Nat.mod_eq_of_lt h)
  generalize (parent.difficulty.toNat : ℤ) + adjustment params H bi parent = target at hbase ⊢
  generalize periodBomb params bi ((parent.number.toNat + 1) % 2 ^ 32) = bomb at hmod hsmall ⊢
  generalize periodBomb params bi (parent.number.toNat + 1) = bomb' at hmod hlarge hsmall ⊢
  rw [exists_capped hmin, and_iff_right hnumber, and_iff_right hdivisor]
  omega

def frontierParams : VapashParams :=
  { exampleParams 5000 with
    homesteadForkBlock := BitVec.allOnes 256, byzantiumForkBlock := BitVec.allOnes 256 }

def frontierParent (difficulty : U256) : BlockHeader := { exampleHeader 4000000 0 with difficulty }

def frontierChild : BlockHeader := { exampleHeader 4000000 0 with number := 6, timestamp := 110 }

theorem calculateDifficulty_exact_frontier :
    ∃ d, calculateDifficulty frontierParams State.lengthHasher frontierChild (frontierParent 131072) =
        .ok d ∧
      d.toNat = exactDifficulty frontierParams State.lengthHasher frontierChild (frontierParent 131072) :=
  (calculateDifficulty_exact (by decide)).mpr ⟨by decide, fun _ => by decide, .inl (by decide)⟩

/-- The difficulty of a parent at the upper end is not raised but wraps around. -/
theorem calculateDifficulty_wraps :
    calculateDifficulty frontierParams State.lengthHasher frontierChild
    (frontierParent (BitVec.allOnes 256)) =
        .ok (BitVec.ofNat 256 (2 ^ 245 - 2)) ∧
      exactDifficulty frontierParams State.lengthHasher frontierChild
      (frontierParent (BitVec.allOnes 256)) = 2 ^ 256 - 1 := by
  decide +kernel

end Vapash
end Vapory
