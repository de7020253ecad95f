import Vapory.Vvm.CodeLayout

/-! The optimiser changes nothing that can be observed: step by step, the interpreter does
the same on the rewritten code as on the code as it stands. -/
namespace Vapory.Vvm
open ProgT

variable {Ok : ExtCall → Prop}

/-- The stack of `s'` is that of `s`, with the same pointers. -/
structure SameStack (s s' : Machine) : Prop where
  stack : s'.stack = s.stack
  sp : s'.sp = s.sp
  spp : s'.spp = s.spp

theorem spec_updateIOGas (s : Machine) : Spec Ok updateIOGas s fun _ s' => SameStack s s' := by
  simp only [updateIOGas, throwOutOfGas, spec_get_bind, spec_ite, spec_throw_bind, spec_modify]
  exact ⟨fun _ => trivial, fun _ => ⟨rfl, rfl, rfl⟩⟩

theorem spec_fetchInstruction (E : ExtVMFace) (op : Instruction) (s : Machine) :
    Spec Ok (fetchInstruction E op) s fun _ s' => s'.stack = s.stack ∧ s'.sp = s.spp := by
  have hadjust : Spec Ok (adjustStack op.metric.args op.metric.ret) s fun _ s' =>
    s'.stack = s.stack ∧ s'.sp = s.spp := by
    simp [adjustStack, throwBadStack]
  refine hadjust.bind fun _ s₁ h₁ => ?_
  simp [toInt63, throwOutOfGas, setRunGas, h₁]

theorem fetchInstruction_congr (E : ExtVMFace) {op op' : Instruction} (h : op.metric = op'.metric) :
    fetchInstruction E op = fetchInstruction E op' := by
  rw [fetchInstruction, h, fetchInstruction]

theorem runFrom_sp_bind {α : Type} (i : ℕ) (f : U256 → MachineM α) (s : Machine) :
    (sp i >>= f).runFrom s = (f (s.stack (s.sp + i))).runFrom s := rfl

theorem fetch_padding {code : Bytes} {p : Program} {pc : ℕ} (hl : Layout code p)
    (hb : Boundary code pc) (hge : code.length ≤ pc) : p.text.fetch pc = .STOP := by
  have hstop := fetch_of_length_le hge
  cases hl.rewritten pc hb with
  | kept _ h _ => exact h.trans hstop
  | pooled k hlong _ _ _ _ => exact absurd hlong.lt_length (not_lt.mpr hge)
  | unchecked h =>
    rw [hstop] at h
    cases h

/-- What the interpreter has where it stands: a boundary, and, before a jump that is not
checked, a destination on the stack. -/
structure OnTrack (code : Bytes) (p : Program) (pc : ℕ) (s : Machine) : Prop where
  boundary : Boundary code pc
  known : ∀ op, Unchecked op (opAt p.code pc) →
    ((referenceText code).verifyJumpDest (s.stack s.spp)).isSome

/-- `OnTrack` where the next instruction begins. -/
def KeepsTrack (code : Bytes) (p : Program) (next : Next) (s : Machine) : Prop :=
  ∀ pc, next = .continue pc → OnTrack code p pc s

section
variable {code : Bytes} {p : Program} {pc : ℕ} {s : Machine}

theorem lt_length_of_fetch (h : (referenceText code).fetch pc ≠ .STOP) : pc < code.length :=
  not_le.mp fun hle => h (fetch_of_length_le hle)

theorem onTrack_next (hl : Layout code p) (hb : Boundary code pc)
    (hstop : (referenceText code).fetch pc ≠ .STOP)
    (hpush : ∀ k, (referenceText code).fetch pc ≠ .PUSH k) (s : Machine) :
    OnTrack code p (pc + 1) s := by
  have hlt := lt_length_of_fetch hstop
  have hop (k : Fin 32) : opAt code pc ≠ .PUSH k := fun hk => hpush k (fetch_of_push hk)
  have hsize := Instruction.size_eq_one hop
  refine ⟨hsize ▸ hb.next hlt, fun op hu => ?_⟩
  obtain ⟨k, hk, -⟩ := hl.known pc hb hlt op (hsize.symm ▸ hu)
  exact absurd hk (hop k)

theorem onTrack_push (hl : Layout code p) (hb : Boundary code pc) {k : Fin 32}
    (hop : opAt code pc = .PUSH k) (hs : s.stack s.spp = (referenceText code).pushed pc k) :
    OnTrack code p (pc + k + 2) s := by
  have hsize : pc + (opAt code pc).size = pc + k + 2 := by rw [hop]; rfl
  have hlt : pc < code.length := by
    by_contra hlt
    rw [opAt_of_length_le (not_lt.mp hlt)] at hop
    cases hop
  refine ⟨hsize ▸ hb.next hlt, fun op hu => ?_⟩
  obtain ⟨k', hk', hv⟩ := hl.known pc hb hlt op (hsize.symm ▸ hu)
  rw [hop] at hk'
  cases hk'
  rwa [hs]

theorem onTrack_jump (hl : Layout code p) {dest : U256} {d : ℕ}
    (h : (referenceText code).verifyJumpDest dest = some d) (s : Machine) : OnTrack code p d s := by
  simp only [referenceText] at h
  split_ifs at h with hd
  obtain rfl := Option.some.inj h
  refine ⟨hd.1, fun op hu => ?_⟩
  have hfetch : (referenceText code).fetch dest.toNat = .JUMPDEST := by
    simp only [referenceText, hd.2]
    rfl
  cases hl.rewritten _ hd.1 with
  | kept _ hk _ =>
    rw [hk, hfetch] at hu
    cases hu
  | pooled k hlong _ _ _ _ => cases hd.2.symm.trans hlong.op
  | unchecked hu' =>
    rw [hfetch] at hu'
    cases hu'

end

section
variable {H : Hasher} {E : ExtVMFace} {code : Bytes} {p : Program} {pc : ℕ} {s : Machine}

theorem spec_jumpTo (hl : Layout code p) (dest : U256) :
    Spec Ok ((referenceText code).jumpTo dest) s (KeepsTrack code p) := by
  unfold Text.jumpTo
  split
  · rename_i d hd
    rw [spec_pure]
    rintro _ ⟨⟩
    exact onTrack_jump hl hd s
  · exact trivial

theorem jumpTo_congr (hl : Layout code p) : p.text.jumpTo = (referenceText code).jumpTo := by
  funext dest
  have hv : p.text.verifyJumpDest = (referenceText code).verifyJumpDest := hl.verify
  rw [Text.jumpTo, hv, Text.jumpTo]

/-- A destination that was verified is not cut off by the cast to 64 bits. -/
theorem jumpTo_known (hl : Layout code p) {dest : U256}
    (h : ((referenceText code).verifyJumpDest dest).isSome) :
    (referenceText code).jumpTo dest = pure (.continue (u64 dest).toNat) := by
  have hv := congrFun hl.verify dest
  obtain ⟨d, hd⟩ := Option.isSome_iff_exists.mp h
  rw [hd, verifyJumpDest] at hv
  split_ifs at hv
  rw [Text.jumpTo, hd, ← hv]

theorem spec_casePush (hl : Layout code p) (hb : Boundary code pc) {k : Fin 32}
    (hop : opAt code pc = .PUSH k) :
    Spec Ok ((referenceText code).casePush pc k) s (KeepsTrack code p) := by
  refine (spec_updateIOGas s).bind fun _ s₁ _ => ?_
  simp only [setSpp, spec_modify_bind, spec_pure]
  rintro _ ⟨⟩
  exact onTrack_push hl hb hop (Function.update_self _ _ _)

theorem casePushc_eq {k : Fin 32}
    (hpool : p.pool[p.poolOffset pc]? = some ((referenceText code).pushed pc k))
    (hskip : (p.code.getD (pc + 3) 0).toNat + 1 = k) :
    p.text.casePushc pc = (referenceText code).casePush pc k := by
  have hval : p.text.pool (p.poolOffset pc) = (referenceText code).pushed pc k := by
    simp [Program.text, hpool]
  have hpc : pc + 3 + (p.text.byte (pc + 3)).toNat = pc + k + 2 := by
    simp only [Program.text]
    omega
  simp only [Text.casePushc, Text.casePush, ← hval, hpc]
  rfl

theorem spec_caseJump (hl : Layout code p) :
    Spec Ok (referenceText code).caseJump s (KeepsTrack code p) := by
  refine (spec_updateIOGas s).bind fun _ s₁ _ => ?_
  exact spec_jumpTo hl _

theorem spec_caseJumpi (hl : Layout code p) (hb : Boundary code pc)
    (hop : (referenceText code).fetch pc = .JUMPI) :
    Spec Ok ((referenceText code).caseJumpi pc) s (KeepsTrack code p) := by
  refine (spec_updateIOGas s).bind fun _ s₁ _ => ?_
  simp only [sp, bind_assoc, spec_get_bind, pure_bind, spec_ite, spec_pure]
  refine ⟨fun _ => spec_jumpTo hl _, fun _ => ?_⟩
  rintro _ ⟨⟩
  exact onTrack_next hl hb (hop ▸ (by simp)) (hop ▸ (by simp)) s₁

theorem runFrom_caseJumpc (hl : Layout code p)
    (hv : ((referenceText code).verifyJumpDest (s.stack s.sp)).isSome) :
    caseJumpc.runFrom s = (referenceText code).caseJump.runFrom s := by
  refine (Agree.bind (.of_spec (spec_updateIOGas s)) fun _ s₁ h₁ => ?_ : Agree _ _ s fun _ _ => True).1
  refine ⟨?_, spec_true _ _⟩
  rw [runFrom_sp_bind, runFrom_sp_bind, jumpTo_known hl (by rwa [Nat.add_zero, h₁.stack, h₁.sp])]

theorem runFrom_caseJumpci (hl : Layout code p)
    (hv : ((referenceText code).verifyJumpDest (s.stack s.sp)).isSome) :
    (caseJumpci pc).runFrom s = ((referenceText code).caseJumpi pc).runFrom s := by
  refine (Agree.bind (.of_spec (spec_updateIOGas s)) fun _ s₁ h₁ => ?_ : Agree _ _ s fun _ _ => True).1
  refine ⟨?_, spec_true _ _⟩
  simp only [runFrom_sp_bind, runFrom_ite]
  rw [jumpTo_known hl (by rwa [Nat.add_zero, h₁.stack, h₁.sp])]

theorem spec_caseOrdinary (hl : Layout code p) (hb : Boundary code pc)
    (hpush : ∀ k, (referenceText code).fetch pc ≠ .PUSH k) :
    Spec (fun _ => True) (caseOrdinary H E pc ((referenceText code).fetch pc)) s
    (KeepsTrack code p) := by
  unfold caseOrdinary
  split
  · exact (spec_true _ s).bind fun _ s₁ _ _ h => by cases h
  · rename_i hhalt
    refine (spec_true _ s).bind fun _ s₁ _ => ?_
    rw [spec_pure]
    rintro _ ⟨⟩
    refine onTrack_next hl hb (fun hstop => ?_) hpush s₁
    rw [hstop] at hhalt
    cases hhalt

theorem caseOf_cases (H : Hasher) (E : ExtVMFace) (pc : ℕ) (op : Instruction) :
    (∃ k, op = .PUSH k) ∨ op = .JUMP ∨ op = .JUMPI ∨ op.isSynthetic ∨
      (∀ k, op ≠ .PUSH k) ∧ ∀ T, caseOf H E T pc op = caseOrdinary H E pc op := by
  cases op <;> first | exact .inr (.inr
    (.inr (.inr ⟨(by simp), fun _ => rfl⟩))) | simp [Instruction.isSynthetic]

theorem agree_caseOf_kept (hl : Layout code p) (hb : Boundary code pc)
    (hdata : ∀ i, pc < i → i < pc + (opAt code pc).size → p.code.getD i 0 = code.getD i 0) :
    Agree (caseOf H E p.text pc ((referenceText code).fetch pc))
      (caseOf H E (referenceText code) pc ((referenceText code).fetch pc)) s (KeepsTrack code p) := by
  rcases caseOf_cases H E pc ((referenceText code).fetch pc) with ⟨k,
    hop⟩ | hop | hop | hsyn | ⟨hpush, hord⟩
  · have hopc := fetch_eq_push_iff.mp hop
    have hpushed : p.text.pushed pc k = (referenceText code).pushed pc k :=
      Text.pushed_congr fun i hlo hhi => hdata i hlo (by rw [hopc]; exact hhi)
    have heq : p.text.casePush pc k = (referenceText code).casePush pc k := by
      rw [Text.casePush, hpushed, Text.casePush]
    simp only [hop, caseOf, heq]
    exact .of_spec (spec_casePush hl hb hopc)
  · simp only [hop, caseOf, Text.caseJump, jumpTo_congr hl]
    exact .of_spec (spec_caseJump hl)
  · simp only [hop, caseOf, Text.caseJumpi, jumpTo_congr hl]
    exact .of_spec (spec_caseJumpi hl hb hop)
  · exact absurd hsyn (not_isSynthetic_fetch code pc)
  · rw [hord, hord]
    exact .of_spec (spec_caseOrdinary hl hb hpush)

/-- One instruction of the rewritten code is that of the code as it stands. -/
theorem agree_step (hl : Layout code p) (ht : OnTrack code p pc s) :
    Agree (step H E p.text pc) (step H E (referenceText code) pc) s (KeepsTrack code p) := by
  have hfetch : Spec (fun _ => True) (fetchInstruction E ((referenceText code).fetch pc)) s _ :=
    spec_fetchInstruction E _ s
  have hhead : p.text.fetch pc = opAt p.code pc := rfl
  unfold step
  rw [hhead]
  cases hl.rewritten pc ht.boundary with
  | kept _ h hdata =>
    rw [h]
    exact (Agree.of_spec hfetch).bind fun _ s₁ _ => agree_caseOf_kept hl ht.boundary hdata
  | pooled k hlong h hpool hoffset hskip =>
    have hr := fetch_of_push hlong.op
    rw [← Nat.mod_eq_of_lt (hlong.poolIndex_lt.trans_le hl.room), ← hoffset] at hpool
    rw [h, hr, fetchInstruction_congr E
      (show Instruction.PUSHC.metric = (Instruction.PUSH k).metric from rfl)]
    refine (Agree.of_spec (hr ▸ hfetch)).bind fun _ s₁ _ => ?_
    simp only [caseOf, casePushc_eq hpool hskip]
    exact .of_spec (spec_casePush hl ht.boundary hlong.op)
  | unchecked h =>
    have hv := ht.known _ h
    generalize hr : (referenceText code).fetch pc = op at h hfetch
    generalize opAt p.code pc = op' at h
    cases h with
    | jump =>
      rw [fetchInstruction_congr E (show Instruction.JUMPC.metric = Instruction.JUMP.metric from rfl)]
      refine (Agree.of_spec hfetch).bind fun _ s₁ h₁ => ?_
      exact .of_runFrom (runFrom_caseJumpc hl (by rwa [h₁.1, h₁.2])) (spec_caseJump hl)
    | jumpi =>
      rw [fetchInstruction_congr E (show Instruction.JUMPCI.metric = Instruction.JUMPI.metric from rfl)]
      refine (Agree.of_spec hfetch).bind fun _ s₁ h₁ => ?_
      exact .of_runFrom (runFrom_caseJumpci hl (by rwa [h₁.1, h₁.2])) (spec_caseJumpi hl ht.boundary hr)

theorem agree_interpretCases (hl : Layout code p) (n : ℕ) (ht : OnTrack code p pc s) :
    Agree (interpretCases H E p.text n pc) (interpretCases H E (referenceText code) n pc) s
    fun _ _ => True := by
  induction n generalizing pc s with
  | zero => exact .of_spec (spec_true _ s)
  | succ n ih =>
    unfold interpretCases
    refine (agree_step hl ht).bind fun next s₁ h₁ => ?_
    cases next with
    | «continue» pc' => exact ih (h₁ pc' rfl)
    | halt output => exact .of_spec (spec_true _ s₁)

theorem onTrack_init (hl : Layout code p) (s : Machine) : OnTrack code p 0 s :=
  ⟨.zero, fun op hu => absurd hu (hl.start op)⟩

theorem onTrack_of_reaches (hl : Layout code p) {gas : U256} (h : Reaches H E p.text gas pc s) :
    OnTrack code p pc s := by
  induction h with
  | init => exact onTrack_init hl _
  | @step pc pc' s s' _ hs ih => exact (agree_step hl ih).2.returns hs pc' rfl

end

/-- `exec` runs the rewritten code as if it were the code itself, padded with zeros, with a
jump looking for a `JUMPDEST` outside push data: for every environment, gas and number of
instructions the two are the same program, with the same calls, output or exception, and gas.
The instructions that it runs are those of the code, or a `STOP` of the padding. -/
theorem exec_optimize (H : Hasher) (E : ExtVMFace) (hsize : E.code.length < 2 ^ 63)
    (hpool : longPushes E.code 0 ≤ 65536) :
    (∀ n gas, exec H E n gas = execText H E (referenceText E.code) n gas) ∧
      ∀ gas pc s, Reaches H E (Program.optimize E.code).text gas pc s →
        Boundary E.code pc ∧ (pc < E.code.length ∨
          pc < E.code.length + 33 ∧ (Program.optimize E.code).text.fetch pc = .STOP) := by
  have hl := layout_optimize hsize hpool
  constructor
  · intro n gas
    rw [exec, execText, execText, (agree_interpretCases hl n (onTrack_init hl _)).1]
  · intro gas pc s hr
    have hb := (onTrack_of_reaches hl hr).boundary
    refine ⟨hb, ?_⟩
    rcases lt_or_ge pc E.code.length with hlt | hge
    · exact .inl hlt
    · exact .inr ⟨hb.lt_length_add, fetch_padding hl hb hge⟩

/-- Long and short pushes, a jump over push data that looks like a destination, and a
synthetic instruction. -/
def exampleFace : ExtVMFace where
  envInfo := ⟨1, 0, 0, 0, 0, 0, []⟩
  vvmSchedule := .byzantium
  myAddress := 1
  caller := 2
  origin := 2
  value := 0
  gasPrice := 1
  data := []
  code := [0x66, 0x5b, 0, 0, 0, 0, 0, 1, 0x60, 0x0c, 0x56, 0xac, 0x5b, 0x60, 0x01, 0x57]
  depth := 0
  staticCall := false

def exampleHasher : Hasher := ⟨fun _ => .replicate 32 0, fun _ => List.length_replicate⟩

theorem exec_optimize_exampleFace :
    exampleFace.code.length < 2 ^ 63 ∧ longPushes exampleFace.code 0 ≤ 65536 ∧
      exec exampleHasher exampleFace 9 100 = execText exampleHasher exampleFace
      (referenceText exampleFace.code) 9 100 :=
  have hpool : longPushes exampleFace.code 0 ≤ 65536 := by decide +kernel
  ⟨by decide, hpool, (exec_optimize exampleHasher exampleFace (by decide) hpool).1 9 100⟩

end Vapory.Vvm
