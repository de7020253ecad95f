import Vapory.Executive.SealEngine
import Vapory.Executive.Nested

/-! The gas that a transaction gives to its code. -/
namespace Vapory
open Vvm State

namespace Executive
variable {H : Hasher} {S : SealEngineFace}

/-- The code gets all the gas given to the call or the creation, if there is code to run. -/
def Passes (gas : U256) (r : Bool × Executive) : Prop := r.1 = false → r.2.gas = gas

theorem passes_enterCall (e : Executive) (p : CallParameters) (gasPrice : U256) (origin : Address)
    (s : State) : Ends (e.enterCall H S p gasPrice origin) s fun r _ => Passes p.gas r := by
  unfold enterCall
  rw [ends_bind, ends_get]
  dsimp only
  split_ifs with hprecompiled hcost hfork hsuccess
  · exact ends_then fun _ _ => (ends_pure _).mpr (by simp [Passes])
  · exact (ends_pure _).mpr (by simp [Passes])
  · exact (ends_pure _).mpr (by simp [Passes])
  · exact ends_then fun _ _ => (ends_pure _).mpr (by simp [Passes])
  · refine ends_then fun hasCode s₁ => ?_
    -- with or without code, the executive has the gas of the call
    have hall (e' : Executive) (s' : State) (h : e'.gas = p.gas) :
        Ends (do
          uncaught (State.transferBalance H p.senderAddress p.receiveAddress p.valueTransfer)
          return (e'.ext.isNone, e')) s' fun r _ => Passes p.gas r :=
      ends_then fun _ _ => (ends_pure _).mpr fun _ => h
    split_ifs
    · exact ends_then fun _ _ => ends_then fun _ s₃ => ends_bind.mpr ((ends_pure _).mpr (hall _ s₃ rfl))
    · exact ends_bind.mpr ((ends_pure _).mpr (hall _ s₁ rfl))

theorem passes_call (e : Executive) (p : CallParameters) (gasPrice : U256) (origin : Address)
    (s : State) : Ends (e.call H S p gasPrice origin) s fun r _ => Passes p.gas r := by
  unfold call
  simp only [ends_ite, ends_bind]
  split_ifs
  · exact fun _ s₁ _ => passes_enterCall e p gasPrice origin s₁
  · exact passes_enterCall e p gasPrice origin s

theorem passes_executeCreate (e : Executive) (sender : Address) (endowment gasPrice gas : U256)
    (init : Bytes) (origin : Address) (s : State) :
    Ends (e.executeCreate H S sender endowment gasPrice gas init origin) s fun r _ =>
    Passes gas r := by
  unfold executeCreate enterCreate
  refine ends_then fun _ s₁ => ends_then fun _ s₂ => ends_then fun exists_ s₃ => ?_
  split_ifs
  · exact ends_then fun _ _ => (ends_pure _).mpr (by simp [Passes])
  · exact ends_then fun _ _ => (ends_pure _).mpr (by simp [Passes])
  · exact ends_then fun _ _ => (ends_pure _).mpr fun _ => rfl

theorem passes_createOpcode (e : Executive) (sender : Address) (endowment gasPrice gas : U256)
    (init : Bytes) (origin : Address) (s : State) :
    Ends (e.createOpcode H S sender endowment gasPrice gas init origin) s fun r _ => Passes gas r := by
  refine ends_then fun nonce s₁ => ?_
  cases rlpSenderNonce sender nonce with
  | error _ => exact (ends_stop _).mpr trivial
  | ok rlp => exact passes_executeCreate _ sender endowment gasPrice gas init origin s₁

theorem passes_execute (e : Executive) (t : Transaction) (s : State) :
    Ends (e.execute H S t) s fun r _ => Passes (t.gas - BitVec.ofNat 256 e.baseGasRequired) r := by
  unfold execute
  cases t.sender with
  | none => exact (ends_stop _).mpr trivial
  | some sender =>
    refine ends_then fun _ s₁ => ?_
    split_ifs
    · exact passes_createOpcode e sender _ _ _ _ _ s₁
    · exact passes_call e _ _ _ s₁

structure Accepted (S : SealEngineFace) (env : EnvInfo) (t : Transaction) (e : Executive) : Prop where
  verified : S.verifyTransaction t env = true
  baseGasRequired : e.baseGasRequired = t.baseGasRequired (S.vvmSchedule env.number)

theorem accepted_init (e : Executive) (t : Transaction) (s : State) :
    Ends (e.initialize_ H S t) s fun e' _ => Accepted S e.envInfo t e' := by
  unfold initialize_
  dsimp only
  by_cases hverified : S.verifyTransaction t e.envInfo = true
  · rw [hverified]
    have hall (gasCost : U256) : Accepted S e.envInfo t { e with
        t := some t, baseGasRequired := t.baseGasRequired (S.vvmSchedule e.envInfo.number), gasCost } :=
      ⟨hverified, rfl⟩
    have hsame := hall e.gasCost
    cases t.sender with
    | none =>
      simp only [Bool.not_true, Bool.false_eq_true, if_false, ends_ite, ends_pure, ends_stop, hsame,
        ite_self]
    | some sender =>
      simp only [Bool.not_true, Bool.false_eq_true, if_false, ends_ite, ends_pure, ends_stop,
        ends_bind, ends_lift, hsame, hall, ite_self, post_true]
  · simp [hverified]

end Executive

/-- The gas of a transaction that was accepted and starts is at least its base gas, and its code, if
there is any, gets exactly the rest. -/
def StartsExactly (engine : SealEngine) : Prop :=
  ∀ {H : Hasher} {params : ChainOperationParams} {envInfo : EnvInfo} {t : Transaction}
    {s s₁ s₂ : State} {e e' : Executive} {done : Bool},
    (Executive.initialize_ H (engine.face params) { envInfo, depth := 0 } t).run s = .ok (e, s₁) →
    (e.execute H (engine.face params) t).run s₁ = .ok ((done, e'), s₂) →
    t.baseGasRequired (params.scheduleForBlockNumber envInfo.number) ≤ t.gas.toNat ∧ (done = false →
      e'.gas.toNat = t.gas.toNat - t.baseGasRequired (params.scheduleForBlockNumber envInfo.number))

theorem startsExactly_vapash : StartsExactly .Vapash := by
  intro H params envInfo t s s₁ s₂ e e' done hinit hexec
  have haccepted := Executive.accepted_init _ t s e s₁ hinit
  have hpasses := Executive.passes_execute e t s₁ (done, e') s₂ hexec
  have hle := (SealEngine.gas_of_verify params haccepted.verified).1
  rw [haccepted.baseGasRequired] at hpasses
  refine ⟨hle, fun hdone => ?_⟩
  have hgas := hpasses hdone
  change e'.gas = t.gas - BitVec.ofNat 256
    (t.baseGasRequired (params.scheduleForBlockNumber envInfo.number)) at hgas
  generalize t.baseGasRequired (params.scheduleForBlockNumber envInfo.number) = base at hle hgas ⊢
  have hbits : (BitVec.ofNat 256 base).toNat = base := by
    rw [BitVec.toNat_ofNat, Nat.mod_eq_of_lt (hle.trans_lt t.gas.isLt)]
  rw [hgas, BitVec.toNat_sub_of_le (by rwa [BitVec.le_def, hbits]), hbits]

def exampleParams : ChainOperationParams where
  reward := 0x4563918244f40000
  homesteadForkBlock := 0x7fffffffffffffff
  eip150ForkBlock := 0x7fffffffffffffff
  eip158ForkBlock := 0x7fffffffffffffff
  byzantiumForkBlock := 0x7fffffffffffffff
  eWASMForkBlock := 0x7fffffffffffffff
  constantinopleForkBlock := 0x7fffffffffffffff
  daoHardforkBlock := 0x7fffffffffffffff
  chainID := 0
  precompiled := fun _ => none

def exampleTransaction (gas : U256) : Transaction where
  isCreation := false
  nonce := 3
  value := 0
  receiveAddress := 2
  gasPrice := 0
  gas := gas
  data := []
  sender := some 1
  vrs := some ⟨1, 1⟩
  chainId := -4

def exampleStart (engine : SealEngine) (gas : U256) : Process State (Bool × Executive) := do
  let e ← Executive.initialize_ lengthHasher (engine.face exampleParams)
    { envInfo := (exampleContext 1 [] false).envInfo, depth := 0 } (exampleTransaction gas)
  e.execute lengthHasher (engine.face exampleParams) (exampleTransaction gas)

theorem not_startsExactly {engine : SealEngine}
    (hok : ((exampleStart engine 0).run (exampleWorld [0])).toOption.isSome = true) :
    ¬ StartsExactly engine := by
  intro h
  obtain ⟨⟨⟨done, e'⟩, s₂⟩, hrun⟩ := Except.exists_ok hok
  rw [exampleStart, StateT.run_bind] at hrun
  obtain ⟨⟨e, s₁⟩, hinit, hexec⟩ := Except.bind_eq_ok.mp hrun
  exact absurd (h hinit hexec).1 (by decide)

/-- Only `Vapash` compares the gas with the base gas. -/
theorem starting_gas_exact_iff (engine : SealEngine) : StartsExactly engine ↔ engine = .Vapash := by
  cases engine with
  | NoProof => exact iff_of_false (not_startsExactly (by decide +kernel)) (by simp)
  | BasicAuthority => exact iff_of_false (not_startsExactly (by decide +kernel)) (by simp)
  | Vapash => exact iff_of_true startsExactly_vapash rfl

/-- Without any gas the code of account 2 starts with almost 2^256, unless the engine is
`Vapash`. -/
theorem starting_gas_wraps :
    let start engine :=
  ((exampleStart engine 0).run (exampleWorld [0])).toOption.map fun r => (r.1.1, r.1.2.gas.toNat)
    start .NoProof = some (false, 2 ^ 256 - 21000) ∧
      start .BasicAuthority = some (false, 2 ^ 256 - 21000) ∧ start .Vapash = none := by
  decide +kernel

end Vapory
