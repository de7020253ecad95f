import Vapory.Vvm.CodeLayout

/-! What a `PUSHC` finds in the constant pool. The pool grows with the code, while the offset
that stands in the code has 16 bits. -/
namespace Vapory.Vvm

variable {code : Bytes} {p : Program} {b c : ℕ} {j k : Fin 32}

/-- The long pushes before `b` have the indices below that of `b`. -/
theorem exists_longPush (hb : Boundary code b) {i : ℕ} (hi : i < poolIndex code b) :
    ∃ c k, LongPush code c k ∧ poolIndex code c = i := by
  induction hb with
  | zero => rw [poolIndex_zero] at hi; omega
  | @next c hc hlt ih =>
    rw [poolIndex_next hc hlt] at hi
    by_cases hic : i < poolIndex code c
    · exact ih hic
    · have hsize : 6 < (opAt code c).size := by
        by_contra hshort
        rw [if_neg hshort] at hi
        omega
      rw [if_pos hsize] at hi
      obtain ⟨k, hk⟩ := (LongPush.iff_size hc).mpr hsize
      exact ⟨c, k, hk, by omega⟩

theorem rewritten_optimize (hb : Boundary code b) : Rewritten code (Program.optimize code) b := by
  obtain ⟨dests, pc, -, hpc, h⟩ := secondPass_optimize code
  exact h.rewritten hpc hb

namespace Rewritten

theorem longPush (h : Rewritten code p b) (hop : opAt p.code b = .PUSHC) :
    ∃ k, LongPush code b k := by
  cases h with
  | kept _ he _ =>
    refine absurd ?_ (not_isSynthetic_fetch code b)
    rw [← he, hop]
    rfl
  | pooled k hk _ _ _ _ => exact ⟨k, hk⟩
  | unchecked hu =>
    generalize (referenceText code).fetch b = op at hu
    rw [hop] at hu
    cases hu

theorem pushc (h : Rewritten code p b) (hk : LongPush code b k) :
    opAt p.code b = .PUSHC ∧ p.pool[poolIndex code b]? = some ((referenceText code).pushed b k) ∧
      p.poolOffset b = poolIndex code b % 2 ^ 16 ∧ (p.code.getD (b + 3) 0).toNat + 1 = k := by
  cases h with
  | kept hsize _ _ =>
    have hlong := hk.long
    rw [hk.size_eq] at hsize
    omega
  | pooled j hj hop hpool hoffset hskip =>
    cases hk.op.symm.trans hj.op
    exact ⟨hop, hpool, hoffset, hskip⟩
  | unchecked hu =>
    rw [fetch_of_push hk.op] at hu
    cases hu

end Rewritten

/-- The value that `PUSHC` at `b` pushes, and where it continues. -/
def Program.pooled (p : Program) (b : ℕ) : U256 × ℕ :=
  (p.text.pool (p.poolOffset b), b + 3 + (p.code.getD (b + 3) 0).toNat)

/-- The interpreter's case of `PUSHC` takes the pair. -/
theorem casePushc_eq_pooled (p : Program) (b : ℕ) : p.text.casePushc b = do
    updateIOGas
    setSpp (p.pooled b).1
    return .continue (p.pooled b).2 := rfl

theorem pooled_eq (hb : LongPush code b k) (hc : LongPush code c j)
    (hi : poolIndex code c = poolIndex code b % 2 ^ 16) :
    (Program.optimize code).pooled b = ((referenceText code).pushed c j, b + (opAt code b).size) := by
  obtain ⟨-, -, hoffset, hskip⟩ := (rewritten_optimize hb.boundary).pushc hb
  obtain ⟨-, hvalue, -⟩ := (rewritten_optimize hc.boundary).pushc hc
  unfold Program.pooled
  congr 1
  · rw [hoffset, ← hi]
    simp only [Program.text]
    rw [List.getD_eq_getElem?_getD, hvalue, Option.getD_some]
  · rw [hb.size_eq]
    omega

/-- A `PUSHC` is the push it replaced exactly if the 16 bits of its offset tell its constant
from those of the other pushes. -/
theorem pooled_optimize_iff (hb : Boundary code b)
    (hop : opAt (Program.optimize code).code b = .PUSHC) : ∃ k, LongPush code b k ∧
      ((Program.optimize code).pooled b = ((referenceText code).pushed b k, b + (opAt code b).size) ↔
        poolIndex code b < 2 ^ 16 ∨ ∃ c j, LongPush code c j ∧ poolIndex code c = poolIndex code b % 2 ^ 16 ∧
          (referenceText code).pushed c j = (referenceText code).pushed b k) := by
  obtain ⟨k, hk⟩ := (rewritten_optimize hb).longPush hop
  refine ⟨k, hk, ?_⟩
  by_cases hlt : poolIndex code b < 2 ^ 16
  · exact iff_of_true (pooled_eq hk hk (Nat.mod_eq_of_lt hlt).symm) (.inl hlt)
  · obtain ⟨c, j, hc, hi⟩ := exists_longPush hb (i := poolIndex code b % 2 ^ 16) (by omega)
    rw [pooled_eq hk hc hi]
    constructor
    · intro he
      exact .inr ⟨c, j, hc, hi, congrArg Prod.fst he⟩
    · rintro (hno | ⟨d, l, hd, hdi, hv⟩)
      · exact absurd hno hlt
      · rw [← hv, ← pooled_eq hk hc hi, pooled_eq hk hd hdi]

/-- `PUSH6` of one byte. -/
def pushSix (v : Byte) : Bytes := [0x65, 0, 0, 0, 0, 0, v]

theorem pooled_optimize_pushSix : opAt (Program.optimize (pushSix 1)).code 0 = .PUSHC ∧
    ∃ k, LongPush (pushSix 1) 0 k ∧
      ((Program.optimize (pushSix 1)).pooled 0 =
          ((referenceText (pushSix 1)).pushed 0 k, 0 + (opAt (pushSix 1) 0).size) ↔
        poolIndex (pushSix 1) 0 < 2 ^ 16 ∨ ∃ c j, LongPush (pushSix 1) c j ∧
          poolIndex (pushSix 1) c = poolIndex (pushSix 1) 0 % 2 ^ 16 ∧
          (referenceText (pushSix 1)).pushed c j = (referenceText (pushSix 1)).pushed 0 k) :=
  ⟨by decide +kernel, pooled_optimize_iff .zero (by decide +kernel)⟩

/-- `n` times `PUSH6 1`, and then the rest. -/
def pushOnes (n : ℕ) (rest : Bytes) : Bytes := (List.replicate n (pushSix 1)).flatten ++ rest

section
variable {n i : ℕ} {v : Byte} {rest : Bytes}

theorem pushOnes_succ : pushOnes (n + 1) rest = pushSix 1 ++ pushOnes n rest := by
  simp [pushOnes, List.replicate_succ]

theorem drop_pushOnes (hi : i ≤ n) : (pushOnes n rest).drop (7 * i) = pushOnes (n - i) rest := by
  induction i generalizing n with
  | zero => rfl
  | succ i ih =>
    obtain ⟨n, rfl⟩ : ∃ m, n = m + 1 := ⟨n - 1, by omega⟩
    rw [pushOnes_succ, show 7 * (i + 1) = (pushSix 1).length + 7 * i by simp [pushSix]; omega,
      ← List.drop_drop, List.drop_left, ih (by omega)]
    congr 1
    omega

theorem longPushes_pushSix : longPushes (pushSix v ++ rest) 0 = 1 + longPushes rest 0 := by
  have hsize : (Instruction.ofByte 0x65).size = 7 := by decide +kernel
  simp [pushSix, longPushes, hsize]

theorem longPushes_pushOnes : longPushes (pushOnes n rest) 0 = n + longPushes rest 0 := by
  induction n with
  | zero => simp [pushOnes]
  | succ n ih =>
    rw [pushOnes_succ, longPushes_pushSix, ih]
    omega

theorem readBytes_add (byte : ℕ → Byte) (b n i : ℕ) (v : U256) :
    readBytes byte n (b + i) v = readBytes (fun j => byte (b + j)) n i v := by
  induction n generalizing i v with
  | zero => rfl
  | succ n ih => exact ih (i + 1) _

theorem pushed_of_drop {code : Bytes} {b : ℕ} (h : code.drop b = pushSix v ++ rest) :
    opAt code b = .PUSH 5 ∧ (referenceText code).pushed b 5 = BitVec.ofNat 256 v.toNat ∧
    b < code.length := by
  have hget (j : ℕ) : code.getD (b + j) 0 = (pushSix v ++ rest).getD j 0 := by
    rw [← h, List.getD_eq_getElem?_getD, List.getD_eq_getElem?_getD, List.getElem?_drop]
  refine ⟨?_, ?_, ?_⟩
  · rw [opAt, show code.getD b 0 = 0x65 from hget 0]
    decide +kernel
  · have hbyte (j : ℕ) : (referenceText code).byte (b + j) = (pushSix v ++ rest).getD j 0 := hget j
    rw [Text.pushed_eq, hbyte, readBytes_add, funext hbyte]
    simp [readBytes, pushSix]
  · by_contra hle
    rw [List.drop_eq_nil_of_le (not_lt.mp hle)] at h
    cases h

theorem drop_pushOnes_pushSix (hi : i ≤ n) :
    ∃ u rest, (pushOnes n (pushSix v)).drop (7 * i) = pushSix u ++ rest ∧
    u = if i = n then v else 1 := by
  rw [drop_pushOnes hi]
  rcases hi.lt_or_eq with hlt | rfl
  · obtain ⟨m, hm⟩ : ∃ m, n - i = m + 1 := ⟨n - i - 1, by omega⟩
    rw [hm, pushOnes_succ, if_neg hlt.ne]
    exact ⟨1, _, rfl, rfl⟩
  · rw [Nat.sub_self, if_pos rfl]
    exact ⟨v, [], by simp [pushOnes], rfl⟩

theorem boundary_pushOnes (hi : i ≤ n) : Boundary (pushOnes n (pushSix v)) (7 * i) := by
  induction i with
  | zero => exact .zero
  | succ i ih =>
    obtain ⟨u, rest, hdrop, -⟩ := drop_pushOnes_pushSix (v := v) (show i ≤ n by omega)
    obtain ⟨hop, -, hlt⟩ := pushed_of_drop hdrop
    have hnext := (ih (by omega)).next hlt
    rwa [hop] at hnext

theorem longPush_pushOnes (hi : i ≤ n) : LongPush (pushOnes n (pushSix v)) (7 * i) 5 := by
  obtain ⟨u, rest, hdrop, -⟩ := drop_pushOnes_pushSix (v := v) hi
  exact ⟨boundary_pushOnes hi, (pushed_of_drop hdrop).1, le_rfl⟩

theorem poolIndex_pushOnes (hi : i ≤ n) : poolIndex (pushOnes n (pushSix v)) (7 * i) = i := by
  rw [poolIndex, drop_pushOnes hi, longPushes_pushOnes, longPushes_pushOnes]
  omega

theorem pushed_pushOnes (hi : i ≤ n) :
    (referenceText (pushOnes n (pushSix v))).pushed (7 * i) 5 = BitVec.ofNat 256
    (if i = n then v else 1).toNat := by
  obtain ⟨u, rest, hdrop, rfl⟩ := drop_pushOnes_pushSix (v := v) hi
  exact (pushed_of_drop hdrop).2.1

end

/-- The 65537th constant has the offset of the first. -/
theorem pooled_wraps :
    opAt (Program.optimize (pushOnes 65536 (pushSix 2))).code (7 * 65536) = .PUSHC ∧
      LongPush (pushOnes 65536 (pushSix 2)) (7 * 65536) 5 ∧
      (referenceText (pushOnes 65536 (pushSix 2))).pushed (7 * 65536) 5 = 2 ∧
      ((Program.optimize (pushOnes 65536 (pushSix 2))).pooled (7 * 65536)).1 = 1 := by
  have hlast := longPush_pushOnes (n := 65536) (v := 2) le_rfl
  have hfirst := longPush_pushOnes (n := 65536) (v := 2) (Nat.zero_le _)
  refine ⟨((rewritten_optimize hlast.boundary).pushc hlast).1, hlast, ?_, ?_⟩
  · rewrite [pushed_pushOnes le_rfl, if_pos rfl]
    rfl
  · have hi : poolIndex (pushOnes 65536 (pushSix 2)) (7 * 0) =
        poolIndex (pushOnes 65536 (pushSix 2)) (7 * 65536) % 2 ^ 16 := by
      rewrite [poolIndex_pushOnes le_rfl, poolIndex_pushOnes (Nat.zero_le _)]
      decide
    rewrite [pooled_eq hlast hfirst hi, pushed_pushOnes (Nat.zero_le _), if_neg (by omega)]
    rfl

end Vapory.Vvm
