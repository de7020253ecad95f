import Mathlib.Data.BitVec
import Vapory.Block.BlockHeader
import Vapory.Executive.SealEngine
import Vapory.State.Rollback

/-! `Vapash.cpp`: the header that a child of a block is given, and what is checked of a header. -/
namespace Vapory
open BitVec Nat

/-- The parameters of a chain that `Vapash` reads besides those of every engine. -/
structure VapashParams extends ChainOperationParams where
  minimumDifficulty : U256
  difficultyBoundDivisor : U256
  durationLimit : U256
  minGasLimit : U256
  maxGasLimit : U256
  gasLimitBoundDivisor : U256
  maximumExtraDataSize : U256

/-- What `Vapash::verify` or `populateFromParent` throws. -/
inductive VapashError where
  | header (e : HeaderError)
  | InvalidDifficulty
  | InvalidGasLimit
  | ExtraDataTooBig
  | ExtraDataIncorrect
  | InvalidBlockNonce
  | GenesisBlockCannotBeCalculated
  /-- A division by zero. -/
  | overflow_error
deriving DecidableEq, Repr

namespace BlockHeader

def populateFromParent (h parent : BlockHeader) : BlockHeader :=
  { h with
    stateRoot := parent.stateRoot
    number := parent.number + 1
    parentHash := parent.memo
    gasLimit := parent.gasLimit
    difficulty := 1
    gasUsed := 0 }

end BlockHeader

namespace Vapash
variable (params : VapashParams)

/-- The target, or the one that stands for `Invalid256`. -/
def floorTarget (gasFloorTarget : U256) : U256 :=
  if gasFloorTarget = BitVec.allOnes 256 then 3141562 else gasFloorTarget

def childGasLimit (bi : BlockHeader) (gasFloorTarget : U256) : U256 :=
  let gasFloorTarget := floorTarget gasFloorTarget
  let gasLimit := bi.gasLimit
  let boundDivisor := params.gasLimitBoundDivisor
  if gasLimit < gasFloorTarget then
    let up := gasLimit + gasLimit / boundDivisor - 1
    if up < gasFloorTarget then up else gasFloorTarget
  else
    let down := gasLimit - gasLimit / boundDivisor + 1 + bi.gasUsed * 6 / 5 / boundDivisor
    if gasFloorTarget < down then down else gasFloorTarget

/-- The number of blocks, `c_expDiffPeriod` in each period, that `calculateDifficulty` counts. -/
def exponentialIceAgeBlockNumber (bi parent : BlockHeader) : ℕ :=
  let number := (parent.number + 1).toNat % 2 ^ 32
  if bi.number ≥ params.byzantiumForkBlock then number - 3000000 else number

/-- The difficulty without the part that grows with the number. The hash of an empty list of uncles
is `EmptyListSHA3`. -/
def targetDifficulty (H : Hasher) (bi parent : BlockHeader) : ℤ :=
  if bi.number < params.homesteadForkBlock then
    let step := parent.difficulty / params.difficultyBoundDivisor
    if bi.timestamp ≥ parent.timestamp + params.durationLimit then (parent.difficulty - step).toNat
    else (parent.difficulty + step).toNat
  else
    let timestampDiff : ℤ := bi.timestamp.toNat - parent.timestamp.toNat
    let adjFactor : ℤ :=
      if bi.number < params.byzantiumForkBlock then max (1 - timestampDiff.tdiv 10) (-99)
      else max ((if parent.sha3Uncles ≠ H.hash [0xc0] then 2 else 1) - timestampDiff.tdiv 9) (-99)
    parent.difficulty.toNat + (parent.difficulty.toNat / 2048 : ℕ) * adjFactor

def calculateDifficulty (H : Hasher) (bi parent : BlockHeader) : Except VapashError U256 := do
  if bi.number = 0 then throw .GenesisBlockCannotBeCalculated
  if bi.number < params.homesteadForkBlock ∧
    params.difficultyBoundDivisor = 0 then throw .overflow_error
  let periodCount := exponentialIceAgeBlockNumber params bi parent / 100000
  let o := targetDifficulty params H bi parent + if periodCount > 1 then 2 ^ (periodCount - 2) else 0
  return BitVec.ofInt 256 (min (max params.minimumDifficulty.toNat o) (2 ^ 256 - 1))

/-- `populateFromParent`, which leaves the target to its default `Invalid256`. -/
def populateFromParent (H : Hasher) (gasFloorTarget : U256) (bi parent : BlockHeader) :
    Except VapashError BlockHeader := do
  let bi := bi.populateFromParent parent
  let bi := bi.setDifficulty (← calculateDifficulty params H bi parent)
  if params.gasLimitBoundDivisor = 0 then throw .overflow_error
  return bi.setGasLimit (childGasLimit params parent gasFloorTarget)

/-- What `verify` checks of a header alone. -/
def verifyAlone (bi : BlockHeader) : Except VapashError Unit := do
  if bi.difficulty < params.minimumDifficulty then throw .InvalidDifficulty
  if bi.gasLimit < params.minGasLimit then throw .InvalidGasLimit
  if bi.gasLimit > params.maxGasLimit then throw .InvalidGasLimit
  if bi.number ≠ 0 ∧ bi.extraData.length > params.maximumExtraDataSize.toNat then
    throw .ExtraDataTooBig
  let daoHardfork := params.daoHardforkBlock
  if daoHardfork ≠ 0 ∧ daoHardfork + 9 ≥ daoHardfork ∧ bi.number ≥ daoHardfork ∧
    bi.number ≤ daoHardfork + 9 then
    if bi.extraData ≠ [0x64, 0x61, 0x6f, 0x2d, 0x68, 0x61, 0x72, 0x64, 0x2d, 0x66, 0x6f, 0x72,
      0x6b] then throw .ExtraDataIncorrect

/-- What `verify` checks of a header against the parent. -/
def verifyAgainst (H : Hasher) (bi parent : BlockHeader) : Except VapashError Unit := do
  if bi.difficulty ≠ (← calculateDifficulty params H bi parent) then throw .InvalidDifficulty
  if params.gasLimitBoundDivisor = 0 then throw .overflow_error
  let gasLimit := bi.gasLimit
  let parentGasLimit := parent.gasLimit
  if gasLimit < params.minGasLimit ∨ gasLimit > params.maxGasLimit ∨
      gasLimit ≤ parentGasLimit - parentGasLimit / params.gasLimitBoundDivisor ∨
      gasLimit ≥ parentGasLimit + parentGasLimit / params.gasLimitBoundDivisor then
    throw .InvalidGasLimit

/-- `verify`, with what `verifySeal` and `quickVerifySeal` say of the header. -/
def verifyHeader (H : Hasher) (verifySeal quickVerifySeal : BlockHeader → Bool)
    (s : BlockHeader.Strictness) (bi parent : BlockHeader) (body : Option (H256 × H256)) :
    Except VapashError Unit := do
  (bi.verify H s parent body).mapError .header
  if s ≠ .CheckNothingNew then verifyAlone params bi
  if parent.isValid then verifyAgainst params H bi parent
  if s = .CheckEverything ∧ bi.parentHash ≠ 0 ∧ !verifySeal bi then throw .InvalidBlockNonce
  else if s = .QuickNonce ∧ bi.parentHash ≠ 0 ∧ !quickVerifySeal bi then throw .InvalidBlockNonce

/-- What the gas limit of a block and the target have to meet for a child: `bound` is what `verify`
computes for the limit that is too high, and `used` what the gas used adds to a lower limit. -/
def GasLimitFits (gasFloorTarget : U256) (parent : BlockHeader) : Prop :=
  let limit := parent.gasLimit.toNat
  let step := limit / params.gasLimitBoundDivisor.toNat
  let bound := (limit + step) % 2 ^ 256
  let target := (floorTarget gasFloorTarget).toNat
  let used := parent.gasUsed.toNat * 6 % 2 ^ 256 / 5 / params.gasLimitBoundDivisor.toNat
  if limit < target then
    limit + 1 < bound + step ∧ params.minGasLimit.toNat ≤ target ∧ params.minGasLimit.toNat < bound ∧
      (target ≤ params.maxGasLimit.toNat ∨ bound ≤ params.maxGasLimit.toNat + 1)
  else
    target < bound ∧ limit + 1 + used < bound + step ∧
      (params.minGasLimit.toNat ≤ target ∨ params.minGasLimit.toNat + step ≤ limit + 1 + used) ∧
      target ≤ params.maxGasLimit.toNat ∧ limit + 1 + used ≤ params.maxGasLimit.toNat + step

section
variable {N L D s T U B g lo hi : ℕ}

theorem rising_iff (hB : B < N) (hs : s ≤ L) (hlow : L < T)
    (hg : g = if (N - 1 + B) % N < T then (N - 1 + B) % N else T) :
    (¬ (g < lo ∨ g > hi ∨ g ≤ L - s ∨ g ≥ B)) ↔
      L + 1 < B + s ∧ lo ≤ T ∧ lo < B ∧ (T ≤ hi ∨ B ≤ hi + 1) := by
  rcases Nat.eq_zero_or_pos B with rfl | hpos
  · omega
  · have hup : (N - 1 + B) % N = B - 1 := by
      rw [show N - 1 + B = B - 1 + N by omega, add_mod_right, mod_eq_of_lt (by omega)]
    rw [hup] at hg
    split_ifs at hg <;> omega

/-- The gas used is too little for the sum to wrap around. -/
theorem falling_lt (hD : 0 < D) (hDN : D < N) (hL : L < N) (hs : s = L / D) (hU : U = g / 5 / D)
    (hg : g < N) : L - s + 1 + U < N := by
  by_contra hlarge
  have hused : U * D ≤ g / 5 := hU ▸ div_mul_le_self _ _
  have hlimit : L < s * D + D := by
    have hlt := lt_div_mul_add hD (a := L)
    rwa [← hs] at hlt
  have hle : s ≤ L := hs ▸ div_le_self L D
  have hsteps : s * D ≤ U * D := by
    apply mul_le_mul_right D
    clear hs hU
    omega
  rcases Nat.eq_zero_or_pos U with hzero | hpos
  · rw [hzero] at hlarge hsteps
    omega
  · have hdivisor : D ≤ U * D := Nat.le_mul_of_pos_left D hpos
    have hself : U ≤ U * D := Nat.le_mul_of_pos_right U hD
    omega

/-- Towards a lower target it goes down by less than a step, and up with the gas used. -/
theorem falling_iff (hs : s ≤ L) (hsum : L - s + 1 + U < N)
    (hg : g = if T < (L - s + 1 + U) % N then (L - s + 1 + U) % N else T) :
    (¬ (g < lo ∨ g > hi ∨ g ≤ L - s ∨ g ≥ B)) ↔
      T < B ∧ L + 1 + U < B + s ∧ (lo ≤ T ∨ lo + s ≤ L + 1 + U) ∧ T ≤ hi ∧ L + 1 + U ≤ hi + s := by
  rw [mod_eq_of_lt hsum] at hg
  split_ifs at hg <;> omega

end

section
variable {H : Hasher} {params : VapashParams} {gasFloorTarget : U256} {parent : BlockHeader}

theorem toNat_ite_lt (x t : U256) :
    (if x < t then x else t).toNat = if x.toNat < t.toNat then x.toNat else t.toNat := by
  rw [apply_ite BitVec.toNat]
  exact if_congr lt_def rfl rfl

theorem toNat_ite_gt (x t : U256) :
    (if t < x then x else t).toNat = if t.toNat < x.toNat then x.toNat else t.toNat := by
  rw [apply_ite BitVec.toNat]
  exact if_congr lt_def rfl rfl

/-- What `verify` has against the gas limit of a child. -/
def GasLimitRefused (params : VapashParams) (gasLimit parentGasLimit : U256) : Prop :=
  gasLimit < params.minGasLimit ∨ gasLimit > params.maxGasLimit ∨
    gasLimit ≤ parentGasLimit - parentGasLimit / params.gasLimitBoundDivisor ∨
    gasLimit ≥ parentGasLimit + parentGasLimit / params.gasLimitBoundDivisor

instance (params : VapashParams) (gasLimit parentGasLimit : U256) :
    Decidable (GasLimitRefused params gasLimit parentGasLimit) :=
  inferInstanceAs (Decidable (_ ∨ _ ∨ _ ∨ _))

theorem childGasLimit_iff (hD : 0 < params.gasLimitBoundDivisor.toNat) :
    ¬ GasLimitRefused params (childGasLimit params parent gasFloorTarget) parent.gasLimit ↔
      GasLimitFits params gasFloorTarget parent := by
  have hle := div_le_self parent.gasLimit.toNat params.gasLimitBoundDivisor.toNat
  have hsub : (parent.gasLimit - parent.gasLimit / params.gasLimitBoundDivisor).toNat =
      parent.gasLimit.toNat - parent.gasLimit.toNat / params.gasLimitBoundDivisor.toNat := by
    rw [toNat_sub_of_le (le_def.mpr (by rwa [toNat_udiv])), toNat_udiv]
  have hadd : (parent.gasLimit + parent.gasLimit / params.gasLimitBoundDivisor).toNat =
      (parent.gasLimit.toNat + parent.gasLimit.toNat / params.gasLimitBoundDivisor.toNat) %
        2 ^ 256 := by
    rw [toNat_add, toNat_udiv]
  unfold GasLimitRefused GasLimitFits
  simp only [lt_def, le_def, gt_iff_lt, ge_iff_le, hsub, hadd]
  by_cases hlow : parent.gasLimit.toNat < (floorTarget gasFloorTarget).toNat
  · have hchild := congrArg BitVec.toNat (if_pos (lt_def.mpr hlow) :
      childGasLimit params parent gasFloorTarget = _)
    rw [toNat_ite_lt, toNat_sub, hadd] at hchild
    rw [if_pos hlow]
    exact rising_iff (mod_lt _ (by norm_num)) hle hlow hchild
  · have hchild := congrArg BitVec.toNat (if_neg (fun hlt => hlow (lt_def.mp hlt)) :
      childGasLimit params parent gasFloorTarget = _)
    rw [toNat_ite_gt, toNat_add, toNat_add, hsub, toNat_udiv,
      toNat_udiv, toNat_mul, mod_add_mod] at hchild
    rw [if_neg hlow]
    have hsum := falling_lt hD params.gasLimitBoundDivisor.isLt parent.gasLimit.isLt rfl rfl
      (mod_lt (parent.gasUsed.toNat * 6) (by norm_num))
    exact falling_iff hle hsum hchild

theorem calculateDifficulty_congr {bi bi' : BlockHeader} (hnumber : bi'.number = bi.number)
    (htime : bi'.timestamp = bi.timestamp) :
    calculateDifficulty params H bi' parent = calculateDifficulty params H bi parent := by
  unfold calculateDifficulty targetDifficulty exponentialIceAgeBlockNumber
  rw [hnumber, htime]

theorem calculateDifficulty_ok {bi : BlockHeader} (hnumber : bi.number ≠ 0)
    (hdivisor : params.difficultyBoundDivisor ≠ 0 ∨ params.homesteadForkBlock ≤ bi.number) :
    ∃ d, calculateDifficulty params H bi parent = .ok d ∧ params.minimumDifficulty ≤ d := by
  have hfrontier : ¬ (bi.number < params.homesteadForkBlock ∧ params.difficultyBoundDivisor = 0) := by
    rintro ⟨hlt, hzero⟩
    rcases hdivisor with hne | hle
    · exact hne hzero
    · exact absurd hlt (BitVec.not_lt.mpr hle)
  unfold calculateDifficulty
  rw [if_neg hnumber, if_neg hfrontier]
  refine ⟨_, rfl, ?_⟩
  generalize targetDifficulty params H bi parent +
    (if exponentialIceAgeBlockNumber params bi parent / 100000 > 1 then
      2 ^ (exponentialIceAgeBlockNumber params bi parent / 100000 - 2) else 0) = o
  have hmin := params.minimumDifficulty.isLt
  rw [le_def, toNat_ofInt]
  omega

/-- A header is built for the child of a block that passes `verify`, and passes the checks against
it, exactly if there is a divisor for the difficulty and the gas limit fits. A header that is built
has the difficulty that is expected of it. -/
theorem verifyAgainst_populateFromParent {verifySeal quickVerifySeal : BlockHeader → Bool}
    {s : BlockHeader.Strictness} {grandparent : BlockHeader} {body : Option (H256 × H256)}
    (hD : 0 < params.gasLimitBoundDivisor.toNat)
    (hparent : verifyHeader params H verifySeal quickVerifySeal s parent grandparent body = .ok ())
    (bi : BlockHeader) :
    ((∃ child, populateFromParent params H gasFloorTarget bi parent = .ok child ∧
        verifyAgainst params H child parent = .ok ()) ↔
      (params.difficultyBoundDivisor ≠ 0 ∨ params.homesteadForkBlock ≤ parent.number + 1) ∧
        GasLimitFits params gasFloorTarget parent) ∧
    ∀ child, populateFromParent params H gasFloorTarget bi parent = .ok child →
      child.timestamp = bi.timestamp ∧ params.minimumDifficulty ≤ child.difficulty ∧
        calculateDifficulty params H child parent = .ok child.difficulty := by
  have hbound : parent.number.toNat ≤ 2 ^ 32 - 1 := by
    by_contra hlarge
    have hverify : parent.verify H s grandparent body = .error .InvalidNumber :=
      if_pos (Nat.lt_of_not_le hlarge)
    unfold verifyHeader at hparent
    rw [hverify] at hparent
    cases hparent
  have hnumber : parent.number + 1 ≠ 0 := by
    intro hzero
    have htoNat := congrArg BitVec.toNat hzero
    rw [toNat_add] at htoNat
    change (_ + 1) % _ = 0 at htoNat
    omega
  have hzero : params.gasLimitBoundDivisor ≠ 0 := by
    rintro heq
    rw [heq] at hD
    exact absurd hD (lt_irrefl 0)
  by_cases hdivisor : params.difficultyBoundDivisor ≠ 0 ∨ params.homesteadForkBlock ≤ parent.number + 1
  · obtain ⟨d, hd, hmin⟩ : ∃ d, calculateDifficulty params H (bi.populateFromParent parent) parent =
        .ok d ∧ params.minimumDifficulty ≤ d := calculateDifficulty_ok hnumber hdivisor
    have hchild : populateFromParent params H gasFloorTarget bi parent =
        .ok (((bi.populateFromParent parent).setDifficulty d).setGasLimit
          (childGasLimit params parent gasFloorTarget)) := by
      unfold populateFromParent
      dsimp only
      rw [hd]
      exact if_neg hzero
    have hexpected : calculateDifficulty params H (((bi.populateFromParent parent).setDifficulty
        d).setGasLimit (childGasLimit params parent gasFloorTarget)) parent = .ok d := by
      rw [← hd]
      exact calculateDifficulty_congr rfl rfl
    have hcheck : verifyAgainst params H (((bi.populateFromParent parent).setDifficulty
        d).setGasLimit (childGasLimit params parent gasFloorTarget)) parent =
          if GasLimitRefused params (childGasLimit params parent gasFloorTarget) parent.gasLimit
          then .error .InvalidGasLimit else .ok () := by
      unfold verifyAgainst
      rw [hexpected]
      exact (if_neg (not_not.mpr rfl)).trans (if_neg hzero)
    rw [hchild, ← childGasLimit_iff hD]
    constructor
    · constructor
      · rintro ⟨_, ⟨⟩, hok⟩
        refine ⟨hdivisor, fun hbad => ?_⟩
        rw [hcheck, if_pos hbad] at hok
        cases hok
      · rintro ⟨-, hgood⟩
        exact ⟨_, rfl, hcheck.trans (if_neg hgood)⟩
    · rintro _ ⟨⟩
      exact ⟨rfl, hmin, hexpected⟩
  · obtain ⟨hnone, hfrontier⟩ := not_or.mp hdivisor
    have hthrows : populateFromParent params H gasFloorTarget bi parent = .error .overflow_error := by
      have hdifficulty : calculateDifficulty params H (bi.populateFromParent parent) parent =
          .error .overflow_error :=
        (if_neg hnumber).trans (if_pos ⟨BitVec.not_le.mp hfrontier, not_not.mp hnone⟩)
      unfold populateFromParent
      dsimp only
      rw [hdifficulty]
      rfl
    rw [hthrows]
    constructor
    · constructor
      · rintro ⟨_, hchild, -⟩
        cases hchild
      · exact fun h => absurd h.1 hdivisor
    · rintro _ ⟨⟩

end

def exampleParams (minGasLimit : U256) : VapashParams where
  reward := 0
  homesteadForkBlock := 0
  eip150ForkBlock := 0
  eip158ForkBlock := 0
  byzantiumForkBlock := 0
  eWASMForkBlock := BitVec.allOnes 256
  constantinopleForkBlock := BitVec.allOnes 256
  daoHardforkBlock := 0
  chainID := 1
  precompiled _ := none
  minimumDifficulty := 131072
  difficultyBoundDivisor := 2048
  durationLimit := 13
  minGasLimit := minGasLimit
  maxGasLimit := 2 ^ 63 - 1
  gasLimitBoundDivisor := 1024
  maximumExtraDataSize := 32

def exampleHeader (gasLimit gasUsed : U256) : BlockHeader :=
  ⟨0, 0, 0, 0, 0, 0, 0, 131072, 5, gasLimit, gasUsed, 100, [], [], 7⟩

def noHeader : BlockHeader := { exampleHeader 0 0 with timestamp := BitVec.allOnes 256 }

def exampleChild (minGasLimit gasFloorTarget gasLimit gasUsed : U256) : Except VapashError Unit :=
  do
  let parent := exampleHeader gasLimit gasUsed
  verifyHeader (exampleParams minGasLimit) State.lengthHasher (fun _ => true)
    (fun _ => true) .CheckEverything parent noHeader none
  let child ← populateFromParent (exampleParams minGasLimit) State.lengthHasher gasFloorTarget
    { noHeader with timestamp := 110 } parent
  verifyHeader (exampleParams minGasLimit) State.lengthHasher (fun _ => true)
    (fun _ => true) .CheckEverything child parent none

/-- A limit below the divisor has no step, one of a single step is passed by the gas used, one at
the minimum goes below it, and one at the maximum above it. -/
theorem childGasLimit_refused :
    exampleChild 1000 (BitVec.allOnes 256) 1023 0 = .error .InvalidGasLimit ∧
    exampleChild 1000 1000 1500 1500 = .error .InvalidGasLimit ∧
    exampleChild 5000 0 5000 0 = .error .InvalidGasLimit ∧
    exampleChild 5000 (BitVec.allOnes 256) (2 ^ 63 - 1) (2 ^ 63 - 1) = .error .InvalidGasLimit := by
  decide +kernel

theorem verifyAgainst_populateFromParent_example :
    ∃ child, populateFromParent (exampleParams 5000) State.lengthHasher (BitVec.allOnes 256)
    { noHeader with timestamp := 110 }
      (exampleHeader 4000000 3000000) = .ok child ∧
      verifyAgainst (exampleParams 5000) State.lengthHasher child (exampleHeader 4000000 3000000) =
      .ok () := by
  have hparent : verifyHeader (exampleParams 5000) State.lengthHasher (fun _ => true)
      (fun _ => true) .CheckEverything (exampleHeader 4000000 3000000) noHeader none = .ok () := by
    decide +kernel
  exact (verifyAgainst_populateFromParent (by decide) hparent { noHeader with timestamp := 110 }).1.mpr
    ⟨.inl (by decide), by unfold GasLimitFits; decide +kernel⟩

end Vapash
end Vapory
