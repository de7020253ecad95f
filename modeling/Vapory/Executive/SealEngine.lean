import Vapory.Executive.Executive

/-! `SealEngine.cpp`, `ChainOperationParams.cpp` and `verifyTransaction` of `Vapash.cpp`: the
engines of the tree, and the transactions that each of them lets through. -/
namespace Vapory
open Vvm

structure PrecompiledContract where
  cost : Bytes → ℕ
  execute : Bytes → Bool × Bytes
  startingBlock : U256

/-- `ChainOperationParams`, as far as the engines and a block read it. -/
structure ChainOperationParams where
  /-- `m_blockReward`. -/
  reward : U256
  homesteadForkBlock : U256
  eip150ForkBlock : U256
  eip158ForkBlock : U256
  byzantiumForkBlock : U256
  eWASMForkBlock : U256
  constantinopleForkBlock : U256
  daoHardforkBlock : U256
  chainID : ℤ
  precompiled : Address → Option PrecompiledContract

namespace ChainOperationParams

def scheduleForBlockNumber (params : ChainOperationParams) (blockNumber : U256) : VVMSchedule :=
  if blockNumber ≥ params.constantinopleForkBlock then .constantinople
  else if blockNumber ≥ params.eWASMForkBlock then .ewasm
  else if blockNumber ≥ params.byzantiumForkBlock then .byzantium
  else if blockNumber ≥ params.eip158ForkBlock then .eip158
  else if blockNumber ≥ params.eip150ForkBlock then .eip150
  else if blockNumber ≥ params.homesteadForkBlock then .homestead
  else .frontier

def blockReward (params : ChainOperationParams) (schedule : VVMSchedule) : U256 :=
  match schedule.blockRewardOverwrite with
  | some reward => reward
  | none => params.reward

end ChainOperationParams

/-- `ImportRequirements`, a set of bits. -/
abbrev ImportRequirements := UInt32

namespace ImportRequirements

def TransactionBasic : ImportRequirements := 8
def TransactionSignatures : ImportRequirements := 32

/-- `ValidSeal | CheckUncles | CheckTransactions | Parent | UncleParent`. -/
def Everything : ImportRequirements :=
  1 ||| (4 ||| 16) ||| (TransactionBasic ||| TransactionSignatures) ||| 64 ||| 128

end ImportRequirements

inductive TransactionError where
  | InvalidSignature
  | InvalidZeroSignatureTransaction
  | TransactionIsUnsigned
  | OutOfGasIntrinsic
  | BlockGasLimitReached
deriving DecidableEq, Repr

def secp256k1n : ℕ := 115792089237316195423570985008687907852837564279074904382605163141518161494337

namespace Transaction

def checkLowS (t : Transaction) : Except TransactionError Unit :=
  match t.vrs with
  | none => .error .TransactionIsUnsigned
  | some vrs => if vrs.s.toNat > secp256k1n / 2 then .error .InvalidSignature else .ok ()

def checkChainId (t : Transaction) (chainId : ℤ) : Except TransactionError Unit :=
  if t.chainId ≠ chainId ∧ t.chainId ≠ -4 then .error .InvalidSignature else .ok ()

end Transaction

section
open ImportRequirements
variable (params : ChainOperationParams) (ir : ImportRequirements) (t : Transaction)
  (header : EnvInfo)

/-- `SealEngineFace::verifyTransaction`, which does not look at the gas. -/
def SealEngineFace.verify : Except TransactionError Unit := do
  if ir &&& TransactionSignatures ≠ 0 ∧ header.number < params.eip158ForkBlock ∧
    t.isReplayProtected then
    throw .InvalidSignature
  if ir &&& TransactionSignatures ≠ 0 ∧ header.number < params.constantinopleForkBlock ∧
    t.hasZeroSignature then
    throw .InvalidSignature
  if ir &&& TransactionBasic ≠ 0 ∧ header.number ≥ params.constantinopleForkBlock ∧
      t.hasZeroSignature ∧ (t.value ≠ 0 ∨ t.gasPrice ≠ 0 ∨ t.nonce ≠ 0) then
    throw .InvalidZeroSignatureTransaction
  if header.number ≥ params.homesteadForkBlock ∧ ir &&& TransactionSignatures ≠ 0 ∧
    t.hasSignature then t.checkLowS

/-- `Vapash::verifyTransaction`. -/
def Vapash.verify (startGasUsed : U256) : Except TransactionError Unit := do
  SealEngineFace.verify params ir t header
  if ir &&& TransactionSignatures ≠ 0 then
    t.checkChainId (if header.number ≥ params.eip158ForkBlock then params.chainID else -4)
  if ir &&& TransactionBasic ≠ 0 ∧
    t.baseGasRequired (params.scheduleForBlockNumber header.number) > t.gas.toNat then
    throw .OutOfGasIntrinsic
  if startGasUsed.toNat + t.gas.toNat > header.gasLimit.toNat then throw .BlockGasLimitReached

end

inductive SealEngine where
  | NoProof
  | BasicAuthority
  | Vapash
deriving DecidableEq, Repr

namespace SealEngine
open ImportRequirements
variable (params : ChainOperationParams)

/-- `verifyTransaction`, which only `Vapash` overrides. -/
def verifyTransaction (engine : SealEngine) (ir : ImportRequirements) (t : Transaction)
    (header : EnvInfo) (startGasUsed : U256) : Except TransactionError Unit :=
  match engine with
  | .NoProof | .BasicAuthority => SealEngineFace.verify params ir t header
  | .Vapash => Vapash.verify params ir t header startGasUsed

def face (engine : SealEngine) : SealEngineFace where
  vvmSchedule := params.scheduleForBlockNumber
  eip158ForkBlock := params.eip158ForkBlock
  constantinopleForkBlock := params.constantinopleForkBlock
  isPrecompiled a number := (params.precompiled a).any fun c => number ≥ c.startingBlock
  costOfPrecompiled a input _ := ((params.precompiled a).map fun c => c.cost input).getD 0
  executePrecompiled a input _ :=
    ((params.precompiled a).map fun c => c.execute input).getD (false, [])
  verifyTransaction t env := (engine.verifyTransaction params Everything t env env.gasUsed).isOk

theorem gas_of_verify {t : Transaction} {env : EnvInfo}
    (h : (Vapash.face params).verifyTransaction t env = true) :
    t.baseGasRequired (params.scheduleForBlockNumber env.number) ≤ t.gas.toNat ∧
      env.gasUsed.toNat + t.gas.toNat ≤ env.gasLimit.toNat := by
  have hok : Vapory.Vapash.verify params Everything t env env.gasUsed = .ok () := by
    simp only [face, verifyTransaction] at h
    generalize Vapory.Vapash.verify params Everything t env env.gasUsed = r at h ⊢
    cases r with
    | error e => cases h
    | ok u => rfl
  unfold Vapory.Vapash.verify at hok
  obtain ⟨_, -, hok⟩ := Except.bind_eq_ok.mp hok
  rw [if_pos (by decide : Everything &&& TransactionSignatures ≠ 0)] at hok
  obtain ⟨_, -, hok⟩ := Except.bind_eq_ok.mp hok
  have hbasic : Everything &&& TransactionBasic ≠ 0 := by decide
  by_cases hbase : t.baseGasRequired (params.scheduleForBlockNumber env.number) > t.gas.toNat
  · rw [if_pos ⟨hbasic, hbase⟩] at hok
    cases hok
  · rw [if_neg fun h => hbase h.2] at hok
    by_cases hlimit : env.gasUsed.toNat + t.gas.toNat > env.gasLimit.toNat
    · rw [if_pos hlimit] at hok
      cases hok
    · exact ⟨not_lt.mp hbase, not_lt.mp hlimit⟩

end SealEngine
end Vapory
