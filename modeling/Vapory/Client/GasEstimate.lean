import Vapory.Executive.Executive

/-! `estimateGas` of `ClientBase.cpp`: the search for the least gas with which a transaction runs
through. -/
namespace Vapory

inductive CodeDeposit where
  | None
  | Failed
  | Success
deriving DecidableEq, Repr

structure ExecutionResult where
  gasUsed : U256 := 0
  excepted : TransactionException := .Unknown
  newAddress : Address := 0
  output : Bytes := []
  codeDeposit : CodeDeposit := .None
  gasRefunded : U256 := 0
  depositSize : UInt32 := 0
  gasForDeposit : U256 := 0
deriving DecidableEq

/-- The results after which `estimateGas` tries more gas. -/
def ExecutionResult.failed (er : ExecutionResult) : Bool :=
  er.excepted = .OutOfGas ∨ er.excepted = .OutOfGasBase ∨ er.excepted = .OutOfGasIntrinsic ∨
    er.codeDeposit = .Failed ∨ er.excepted = .BadJumpDestination

namespace GasEstimate

def maxGasEstimate : ℤ := 50000000

/-- What is estimated, with the nonce and the price that the client fills in. -/
structure Request where
  sender : Address
  value : U256
  dest : Address
  data : Bytes
  maxGas : ℤ
  gasPrice : U256
  nonce : U256

def Request.transaction (q : Request) (gas : ℤ) : Transaction where
  isCreation := q.dest = 0
  nonce := q.nonce
  value := q.value
  receiveAddress := q.dest
  gasPrice := q.gasPrice
  gas := BitVec.ofInt 256 gas
  data := q.data
  sender := some q.sender
  vrs := none
  chainId := -4

def Request.upperBound (q : Request) : ℤ :=
  if BitVec.ofInt 256 q.maxGas = BitVec.allOnes 256 ∨
    q.maxGas > maxGasEstimate then maxGasEstimate else q.maxGas

def Request.lowerBound (q : Request) : ℕ := (q.transaction 0).baseGasRequired .default

/-- The variables of the loop. `tried` has the gas that was tried, which the code does not keep. -/
structure Search where
  lowerBound : ℤ
  upperBound : ℤ
  er : ExecutionResult := {}
  lastGood : ExecutionResult := {}
  good : Bool := false
  progress : List (ℤ × ℤ) := []
  tried : List ℤ := []

/-- `GasEstimationProgress` for the callback. -/
def Search.report (s : Search) : Search :=
  { s with progress := s.progress ++ [(s.lowerBound, s.upperBound)] }

/-- The body of the loop, after an execution with the gas `mid`. -/
def Search.update (s : Search) (mid : ℤ) (er : ExecutionResult) : Search :=
  if er.failed then
    { s with er, tried := mid :: s.tried, lowerBound := if s.lowerBound = mid then s.upperBound else mid }
  else
    { s with
      er
      tried := mid :: s.tried
      lastGood := er
      upperBound := if s.upperBound = mid then s.lowerBound else mid
      good := true }

def Search.mid (s : Search) : ℤ := (s.lowerBound + s.upperBound).tdiv 2

section
variable {ε : Type} (execute : Transaction → Except ε ExecutionResult) (q : Request)

def loop : ℕ → Search → Option (Except ε Search)
  | 0, s => if s.upperBound = s.lowerBound then some (.ok s) else none
  | fuel + 1, s =>
    if s.upperBound = s.lowerBound then some (.ok s)
    else match execute (q.transaction s.mid) with
      | .error e => some (.error e)
      | .ok er => loop fuel (s.update s.mid er).report

def start : Search where
  lowerBound := q.lowerBound
  upperBound := q.upperBound

/-- `estimateGas`. Whatever is thrown is caught. -/
def estimateGas (fuel : ℕ) : Option (U256 × ExecutionResult) :=
  (loop execute q fuel (start q)).map fun
    | .ok s => (BitVec.ofInt 256 s.upperBound, if s.good then s.lastGood else s.er)
    | .error _ => (0, {})

end

section
variable {s : Search}

theorem two_mul_mid (s : Search) :
    ∃ r, 2 * s.mid + r = s.lowerBound + s.upperBound ∧ -2 < r ∧ r < 2 ∧
    (0 ≤ s.lowerBound + s.upperBound → 0 ≤ r) := by
  have htwo : (0 : ℤ) < 2 := by decide
  have hlow := Int.lt_tmod_of_pos (s.lowerBound + s.upperBound) htwo
  have hhigh := Int.tmod_lt_of_pos (s.lowerBound + s.upperBound) htwo
  exact ⟨_, Int.mul_tdiv_add_tmod _ 2, hlow, hhigh, Int.tmod_nonneg 2⟩

/-- A bound that the middle meets is moved onto the other one, so that the bounds come closer in any
case. -/
theorem natAbs_update_lt (hne : s.upperBound ≠ s.lowerBound) (er : ExecutionResult) :
    ((s.update s.mid er).upperBound - (s.update s.mid er).lowerBound).natAbs <
    (s.upperBound - s.lowerBound).natAbs := by
  obtain ⟨r, hmid, hlow, hhigh, -⟩ := two_mul_mid s
  unfold Search.update
  by_cases hfailed : er.failed = true
  · rw [if_pos hfailed]
    dsimp only
    split_ifs <;> omega
  · rw [if_neg hfailed]
    dsimp only
    split_ifs <;> omega

variable {ε : Type} (execute : Transaction → Except ε ExecutionResult) (q : Request)

/-- The loop ends with a property that its body keeps, unless an execution throws. -/
theorem loop_ends {P : Search → Prop}
    (hstep : ∀ s er, s.upperBound ≠ s.lowerBound → execute (q.transaction s.mid) = .ok er → P s →
      P (s.update s.mid er).report)
    {fuel : ℕ} (hfuel : (s.upperBound - s.lowerBound).natAbs ≤ fuel) (hs : P s) :
    (∃ s', loop execute q fuel s = some (.ok s') ∧ s'.upperBound = s'.lowerBound ∧ P s') ∨
      ∃ t e, execute t = .error e ∧ loop execute q fuel s = some (.error e) := by
  induction fuel generalizing s with
  | zero =>
    have heq : s.upperBound = s.lowerBound := by omega
    exact .inl ⟨s, if_pos heq, heq, hs⟩
  | succ fuel ih =>
    unfold loop
    by_cases heq : s.upperBound = s.lowerBound
    · exact .inl ⟨s, if_pos heq, heq, hs⟩
    rw [if_neg heq]
    cases her : execute (q.transaction s.mid) with
    | error e => exact .inr ⟨_, e, her, rfl⟩
    | ok er =>
      have hlt := natAbs_update_lt heq er
      have hless : ((s.update s.mid er).report.upperBound - (s.update s.mid
        er).report.lowerBound).natAbs ≤ fuel :=
        Nat.le_of_lt_succ (hlt.trans_le hfuel)
      exact ih hless (hstep s er heq her hs)

end

/-- What is known of the bounds when the search began with `low ≤ high`: the upper bound was tried
with success, if it was moved, and the lower one without, until it is moved onto the upper one. -/
structure Bracket (outcome : ℤ → ExecutionResult) (low high : ℤ) (s : Search) : Prop where
  le : s.lowerBound ≤ s.upperBound
  low_le : low ≤ s.lowerBound
  upper : s.upperBound = high ∨ s.upperBound ∈ s.tried ∧ (outcome s.upperBound).failed = false
  lower : s.lowerBound = low ∨
    s.lowerBound < s.upperBound ∧ s.lowerBound ∈ s.tried ∧ (outcome s.lowerBound).failed = true ∨
    s.lowerBound = s.upperBound ∧ s.upperBound - 1 ∈ s.tried ∧ (outcome (s.upperBound - 1)).failed = true

section
variable {outcome : ℤ → ExecutionResult} {low high : ℤ} {s : Search}

theorem Bracket.update (h : Bracket outcome low high s) (hlow : 0 ≤ low)
    (hne : s.upperBound ≠ s.lowerBound) :
    Bracket outcome low high (s.update s.mid (outcome s.mid)).report := by
  obtain ⟨hle, hlow_le, hupper, hlower⟩ := h
  obtain ⟨r, hmid, -, hmost, hleast⟩ := two_mul_mid s
  have hr := hleast (by omega)
  have htried {g : ℤ} (hg : g ∈ s.tried) : g ∈ s.mid :: s.tried := List.mem_cons_of_mem _ hg
  unfold Search.update
  by_cases hfailed : (outcome s.mid).failed = true
  · rw [if_pos hfailed]
    have hkept : s.upperBound = high ∨ s.upperBound ∈ s.mid :: s.tried ∧
      (outcome s.upperBound).failed = false :=
      hupper.imp_right fun hgood => ⟨htried hgood.1, hgood.2⟩
    by_cases hmeets : s.lowerBound = s.mid
    · have hpred : s.upperBound - 1 = s.mid := by omega
      refine ⟨?_, ?_, hkept, .inr (.inr ⟨if_pos hmeets, ?_⟩)⟩
      · exact (if_pos hmeets).le
      · exact (hlow_le.trans hle).trans_eq (if_pos hmeets).symm
      · change s.upperBound - 1 ∈ s.mid :: s.tried ∧ (outcome (s.upperBound - 1)).failed = true
        rw [hpred]
        exact ⟨List.mem_cons_self, hfailed⟩
    · have hlt : s.mid < s.upperBound := by omega
      have hmoved : (if s.lowerBound = s.mid then s.upperBound else s.mid) = s.mid := if_neg hmeets
      have hlow_mid : low ≤ s.mid := by omega
      refine ⟨hmoved.trans_le hlt.le, hlow_mid.trans_eq hmoved.symm, hkept, .inr (.inl ?_)⟩
      · change _ < s.upperBound ∧ _ ∈ s.mid :: s.tried ∧ (outcome _).failed = true
        rw [hmoved]
        exact ⟨hlt, List.mem_cons_self, hfailed⟩
  · rw [if_neg hfailed]
    have hmeets : s.upperBound ≠ s.mid := by omega
    have hle_mid : s.lowerBound ≤ s.mid := by omega
    have hmoved : (if s.upperBound = s.mid then s.lowerBound else s.mid) = s.mid := if_neg hmeets
    refine ⟨hle_mid.trans_eq hmoved.symm, hlow_le, .inr ?_, ?_⟩
    · change _ ∈ s.mid :: s.tried ∧ (outcome _).failed = false
      rw [hmoved]
      exact ⟨List.mem_cons_self, Bool.eq_false_iff.mpr hfailed⟩
    · rcases hlower with hfirst | ⟨hlt, hmem, hbad⟩ | ⟨heq, -⟩
      · exact .inl hfirst
      -- the same gas cannot fail and succeed
      · have hne_mid : s.lowerBound ≠ s.mid := by
          intro heq
          rw [heq] at hbad
          exact hfailed hbad
        exact .inr (.inl ⟨(lt_of_le_of_ne hle_mid hne_mid).trans_eq hmoved.symm, htried hmem, hbad⟩)
      · exact absurd heq.symm hne

end

structure Found (outcome : ℤ → ExecutionResult) (low high g : ℤ) (tried : List ℤ) : Prop where
  good : g ∈ tried ∧ (outcome g).failed = false ∨ g = high
  least : g - 1 ∈ tried ∧ (outcome (g - 1)).failed = true ∨ g = low

section
variable {ε : Type} (q : Request) {fuel : ℕ}

theorem Bracket.found {outcome : ℤ → ExecutionResult} {low high : ℤ} {s : Search}
    (h : Bracket outcome low high s) (heq : s.upperBound = s.lowerBound) :
    Found outcome low high s.upperBound s.tried := by
  refine ⟨h.upper.symm, ?_⟩
  rcases h.lower with hfirst | ⟨hlt, -⟩ | ⟨-, hfailed⟩
  · exact .inr (heq.trans hfirst)
  · exact absurd heq.symm hlt.ne
  · exact .inl hfailed

/-- Whatever the execution makes of the gas it is given, the search ends: where its bounds meet, or
at an execution that throws, with nothing. If the execution does not throw and the gas that every
such transaction costs is not over the upper bound, the gas returned was tried with success or is
the upper bound, and with less by one the execution failed unless it is the gas that every such
transaction costs. -/
theorem estimateGas_ends (hfuel : (q.upperBound - q.lowerBound).natAbs ≤ fuel) :
    (∀ execute : Transaction → Except ε ExecutionResult,
      (∃ s, loop execute q fuel (start q) = some (.ok s) ∧ s.upperBound = s.lowerBound ∧
        estimateGas execute q fuel =
          some (BitVec.ofInt 256 s.upperBound, if s.good then s.lastGood else s.er)) ∨
      ∃ t e, execute t = .error e ∧ loop execute q fuel (start q) = some (.error e) ∧
        estimateGas execute q fuel = some (0, {})) ∧
      ∀ outcome : Transaction → ExecutionResult, q.lowerBound ≤ q.upperBound →
        ∃ s er, loop (fun t => (.ok (outcome t) : Except ε _)) q fuel (start q) = some (.ok s) ∧
          estimateGas (fun t => (.ok (outcome t) : Except ε _)) q fuel =
            some (BitVec.ofInt 256 s.upperBound, er) ∧
          Found (fun g => outcome (q.transaction g)) q.lowerBound q.upperBound s.upperBound
            s.tried := by
  refine ⟨fun execute => ?_, fun outcome hle => ?_⟩
  · have hends := loop_ends (s := start q) (P := fun _ => True) execute q
      (fun _ _ _ _ _ => trivial) hfuel trivial
    rcases hends with ⟨s, hs, heq, -⟩ | ⟨t, e, ht, he⟩
    · exact .inl ⟨s, hs, heq, congrArg _ hs⟩
    · exact .inr ⟨t, e, ht, he, congrArg _ he⟩
  · have hstart : Bracket (fun g => outcome (q.transaction g)) q.lowerBound q.upperBound (start q) :=
      ⟨hle, le_refl _, .inl rfl, .inl rfl⟩
    have hstep : ∀ s er, s.upperBound ≠ s.lowerBound →
        (.ok (outcome (q.transaction s.mid)) : Except ε _) = .ok er →
        Bracket (fun g => outcome (q.transaction g)) q.lowerBound q.upperBound s →
        Bracket (fun g => outcome (q.transaction g)) q.lowerBound q.upperBound
          (s.update s.mid er).report := by
      intro s er hne her h
      cases her
      exact h.update (Int.natCast_nonneg _) hne
    rcases loop_ends (fun t => (.ok (outcome t) : Except ε _)) q hstep hfuel
      hstart with ⟨s, hs, heq, hbracket⟩ | ⟨_, e, he, -⟩
    · exact ⟨s, _, hs, congrArg _ hs, hbracket.found heq⟩
    · cases he

def exampleRequest : Request := ⟨1, 0, 2, [], 100000, 0, 0⟩

def exampleOutcome (t : Transaction) : ExecutionResult :=
  { excepted := if t.gas < 30000 then .OutOfGas else .None }

theorem estimateGas_ends_example : ∃ s er,
    estimateGas (fun t => (.ok (exampleOutcome t) : Except Empty _)) exampleRequest 79000 =
    some (BitVec.ofInt 256 s, er) ∧
      ∃ tried, Found (fun g => exampleOutcome (exampleRequest.transaction g)) 21000 100000 s tried := by
  have hfuel : (exampleRequest.upperBound - exampleRequest.lowerBound).natAbs ≤ 79000 := by decide
  obtain ⟨s, er, -, hestimate, hfound⟩ :=
    (estimateGas_ends exampleRequest hfuel).2 exampleOutcome (by decide)
  exact ⟨_, er, hestimate, _, hfound⟩

end

end GasEstimate
end Vapory
