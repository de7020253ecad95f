import Mathlib.Data.Nat.Bitwise
import Vapory.Vvm.VMOpt

/-! Where the instructions of a code begin, and what the optimiser leaves at each of them. -/
namespace Vapory.Vvm
open List

/-- The positions where an instruction begins, and the one after the last instruction. -/
inductive Boundary (code : Bytes) : ℕ → Prop where
  | zero : Boundary code 0
  | next {pc : ℕ} (h : Boundary code pc) (hlt : pc < code.length) :
    Boundary code (pc + (opAt code pc).size)

theorem Instruction.size_pos (op : Instruction) : 0 < op.size := by
  cases op <;> simp [size]

theorem Instruction.size_eq_one {op : Instruction} (h : ∀ k, op ≠ .PUSH k) : op.size = 1 := by
  cases op <;> first | rfl | exact absurd rfl (h _)

theorem opAt_of_length_le {code : Bytes} {pc : ℕ} (h : code.length ≤ pc) : opAt code pc = .STOP := by
  rw [opAt, getD_eq_default _ _ h]
  decide +kernel

namespace Boundary
variable {code : Bytes} {b c : ℕ}

theorem add_size_le (hb : Boundary code b) (hc : Boundary code c) (h : b < c) :
    b + (opAt code b).size ≤ c := by
  induction hc generalizing b with
  | zero => omega
  | @next c hc hlt ihc =>
    -- a boundary inside the instruction at `c` would follow one at `c` or before it
    have hin : b ≤ c ∨ c + (opAt code c).size ≤ b := by
      clear h
      induction hb with
      | zero => omega
      | @next b hb hltb ihb =>
        rcases lt_trichotomy b c with hbc | rfl | hbc
        · exact .inl (ihc hb hbc)
        · exact .inr le_rfl
        · rcases ihb with hle | hle <;> omega
    rcases hin with hle | hle
    · rcases hle.lt_or_eq with hbc | rfl
      · exact (ihc hb hbc).trans (by omega)
      · exact le_rfl
    · omega

theorem not_inside (hb : Boundary code b) {i : ℕ} (hlo : b < i) (hhi : i < b + (opAt code b).size) :
    ¬ Boundary code i :=
  fun hi => absurd (hb.add_size_le hi hlo) (by omega)

theorem lt_length_add (hb : Boundary code b) : b < code.length + 33 := by
  cases hb with
  | zero => omega
  | @next pc h hlt =>
    have hsize : (opAt code pc).size ≤ 33 := by
      cases opAt code pc <;> simp [Instruction.size]; omega
    omega

end Boundary

/-- The number of pushes of more than five bytes; the second argument is the number of
bytes of push data before the next instruction. -/
def longPushes : Bytes → ℕ → ℕ
  | [], _ => 0
  | b :: bs, 0 =>
    let op := Instruction.ofByte b
    (if 6 < op.size then 1 else 0) + longPushes bs (op.size - 1)
  | _ :: bs, k + 1 => longPushes bs k

theorem longPushes_skip (bs : Bytes) (k : ℕ) : longPushes bs k = longPushes (bs.drop k) 0 := by
  induction bs generalizing k with
  | nil => simp [longPushes]
  | cons b bs ih =>
    cases k with
    | zero => rfl
    | succ k => exact ih k

theorem longPushes_drop {code : Bytes} {pc : ℕ} (h : pc < code.length) :
    longPushes (code.drop pc) 0 = (if 6 < (opAt code pc).size then 1 else 0) +
      longPushes (code.drop (pc + (opAt code pc).size)) 0 := by
  have hop : opAt code pc = .ofByte code[pc] := by rw [opAt, getD_eq_getElem _ _ h]
  have hpos := (opAt code pc).size_pos
  rw [drop_eq_getElem_cons h, longPushes, ← hop, longPushes_skip, drop_drop]
  congr 3
  omega

/-- The number of pushes of more than five bytes before `b`. -/
def poolIndex (code : Bytes) (b : ℕ) : ℕ := longPushes code 0 - longPushes (code.drop b) 0

structure LongPush (code : Bytes) (b : ℕ) (k : Fin 32) : Prop where
  boundary : Boundary code b
  op : opAt code b = .PUSH k
  long : 5 ≤ k.val

namespace LongPush
variable {code : Bytes} {b : ℕ} {k : Fin 32}

theorem lt_length (h : LongPush code b k) : b < code.length := by
  by_contra hle
  have hop := h.op
  rw [opAt_of_length_le (not_lt.mp hle)] at hop
  cases hop

theorem size_eq (h : LongPush code b k) : (opAt code b).size = k + 2 := by
  rewrite [h.op]
  rfl

theorem iff_size (hb : Boundary code b) : (∃ k, LongPush code b k) ↔ 6 < (opAt code b).size := by
  constructor
  · rintro ⟨k, h⟩
    have hk := h.long
    rw [h.size_eq]
    omega
  · intro hsize
    by_cases hpush : ∃ k, opAt code b = .PUSH k
    · obtain ⟨k, hop⟩ := hpush
      have hk : (opAt code b).size = k + 2 := by rewrite [hop]; rfl
      exact ⟨k, hb, hop, by omega⟩
    · have hone := Instruction.size_eq_one fun k hk => hpush ⟨k, hk⟩
      omega

end LongPush

section
variable {code : Bytes} {b : ℕ}

theorem longPushes_drop_le (hb : Boundary code b) :
    longPushes (code.drop b) 0 ≤ longPushes code 0 := by
  induction hb with
  | zero => exact le_rfl
  | next _ hlt ih =>
    rw [longPushes_drop hlt] at ih
    omega

theorem poolIndex_zero (code : Bytes) : poolIndex code 0 = 0 := Nat.sub_self _

theorem poolIndex_next (hb : Boundary code b) (hlt : b < code.length) :
    poolIndex code (b + (opAt code b).size) =
      poolIndex code b + if 6 < (opAt code b).size then 1 else 0 := by
  have hle := longPushes_drop_le hb
  rw [longPushes_drop hlt] at hle
  rw [poolIndex, poolIndex, longPushes_drop hlt]
  omega

theorem LongPush.poolIndex_lt {k : Fin 32} (h : LongPush code b k) :
    poolIndex code b < longPushes code 0 := by
  have hle := longPushes_drop_le h.boundary
  have hlong := h.long
  rw [longPushes_drop h.lt_length, h.size_eq, if_pos (by omega)] at hle
  rw [poolIndex, longPushes_drop h.lt_length, h.size_eq, if_pos (by omega)]
  omega

end

open Classical in
/-- The code as it stands, padded with zeros: the synthetic instructions are invalid, and a
jump looks for a `JUMPDEST` that is not push data. -/
noncomputable def referenceText (code : Bytes) : Text where
  fetch pc := if (opAt code pc).isSynthetic then .INVALID else opAt code pc
  byte i := code.getD i 0
  pool _ := 0
  verifyJumpDest dest :=
    if Boundary code dest.toNat ∧ opAt code dest.toNat = .JUMPDEST then some dest.toNat else none

section
variable {code : Bytes}

theorem fetch_of_length_le {pc : ℕ} (h : code.length ≤ pc) :
    (referenceText code).fetch pc = .STOP := by
  simp only [referenceText, opAt_of_length_le h]
  rfl

theorem fetch_of_push {pc : ℕ} {k : Fin 32} (h : opAt code pc = .PUSH k) :
    (referenceText code).fetch pc = .PUSH k := by
  simp [referenceText, h, Instruction.isSynthetic]

theorem fetch_eq_push_iff {pc : ℕ} {k : Fin 32} :
    (referenceText code).fetch pc = .PUSH k ↔ opAt code pc = .PUSH k := by
  refine ⟨fun h => ?_, fetch_of_push⟩
  simp only [referenceText] at h
  split_ifs at h
  exact h

end

section
variable {byte byte' : ℕ → Byte}

theorem readBytes_congr {n i : ℕ} (v : U256) (h : ∀ j, i ≤ j → j < i + n → byte j = byte' j) :
    readBytes byte n i v = readBytes byte' n i v := by
  induction n generalizing i v with
  | zero => rfl
  | succ n ih =>
    rw [readBytes, readBytes, h i le_rfl (by omega)]
    exact ih _ fun j hlo hhi => h j (by omega) (by omega)

end

namespace Text

theorem pushed_eq (T : Text) (pc : ℕ) (k : Fin 32) :
    T.pushed pc k = readBytes T.byte k (pc + 2) (BitVec.ofNat 256 (T.byte (pc + 1)).toNat) := by
  unfold pushed
  split_ifs with hk
  · subst hk
    rfl
  · rw [readBytes]
    congr 1
    simp

theorem pushed_congr {T T' : Text} {pc : ℕ} {k : Fin 32}
    (h : ∀ i, pc < i → i < pc + k + 2 → T.byte i = T'.byte i) : T.pushed pc k = T'.pushed pc k := by
  rw [pushed_eq, pushed_eq, h (pc + 1) (by omega) (by omega)]
  exact readBytes_congr _ fun j hlo hhi => h j (by omega) (by omega)

end Text

/-- The byte at `i` after the first loop. -/
noncomputable def cleared (code : Bytes) (i : ℕ) : Byte :=
  open Classical in if Boundary code i ∧ (opAt code i).isSynthetic then 0xfe else code.getD i 0

theorem ofByte_cleared {code : Bytes} {b : ℕ} (hb : Boundary code b) :
    Instruction.ofByte (cleared code b) = (referenceText code).fetch b := by
  by_cases hs : (opAt code b).isSynthetic
  · simp only [cleared, referenceText, hb, hs, and_self, if_true]
    decide +kernel
  · rw [cleared, if_neg fun h => hs h.2]
    simp only [referenceText]
    rw [if_neg hs, opAt]

theorem cleared_inside {code : Bytes} {b i : ℕ} (hb : Boundary code b) (hlo : b < i)
    (hhi : i < b + (opAt code b).size) : cleared code i = code.getD i 0 := by
  simp [cleared, hb.not_inside hlo hhi]

theorem getD_set {l : Bytes} {i : ℕ} (h : i < l.length) (b : Byte) (j : ℕ) :
    (l.set i b).getD j 0 = if i = j then b else l.getD j 0 := by
  simp only [getD_eq_getElem?_getD, List.getElem?_set, h, if_true]
  split_ifs <;> rfl

theorem getD_copyCode (code : Bytes) (n i : ℕ) : (copyCode code n).getD i 0 = code.getD i 0 := by
  rw [copyCode]
  by_cases h : i < code.length
  · rw [getD_append _ _ _ _ h]
  · rw [getD_append_right _ _ _ _ (by omega), getD_eq_default _ _ (not_lt.mp h)]
    simp [getD_eq_getElem?_getD, List.getElem?_replicate]
    split_ifs <;> rfl

theorem Program.scan_invariant {turn : Program → ℕ → Program} {Inv : ℕ → Program → Prop} {nBytes : ℕ}
    (hturn : ∀ pc p, pc < nBytes → Inv pc p → Inv (pc + (opAt p.code pc).size) (turn p pc))
    (n pc : ℕ) (p : Program) (hn : nBytes ≤ pc + n) (h : Inv pc p) :
    ∃ pc', nBytes ≤ pc' ∧ Inv pc' (scan turn nBytes n pc p) := by
  induction n generalizing pc p with
  | zero => exact ⟨pc, hn, h⟩
  | succ n ih =>
    have hpos := (opAt p.code pc).size_pos
    rw [scan]
    split_ifs with hlt
    · exact ih _ _ (by omega) (hturn pc p hlt h)
    · exact ⟨pc, not_lt.mp hlt, h⟩

/-- The first loop before the turn at `pc`. -/
structure FirstPass (code : Bytes) (pc : ℕ) (p : Program) : Prop where
  boundary : Boundary code pc
  length : p.code.length = code.length + 33
  byte : ∀ i, p.code.getD i 0 = if i < pc then cleared code i else code.getD i 0
  mem_jumpDests : ∀ d, d ∈ p.jumpDests ↔ d < pc ∧ Boundary code d ∧ opAt code d = .JUMPDEST
  sorted : p.jumpDests.Pairwise (· < ·)
  pool : p.pool = []

namespace FirstPass
variable {code : Bytes} {pc : ℕ} {p p' : Program}

theorem start (code : Bytes) : FirstPass code 0 ⟨copyCode code 33, [], []⟩ where
  boundary := .zero
  length := by simp [copyCode]
  byte i := by rw [if_neg (by omega), getD_copyCode]
  mem_jumpDests := by simp
  sorted := .nil
  pool := rfl

theorem opAt_eq (h : FirstPass code pc p) : opAt p.code pc = opAt code pc := by
  rw [opAt, h.byte, if_neg (lt_irrefl pc), opAt]

theorem turn (h : FirstPass code pc p) (hlt : pc < code.length) :
    FirstPass code (pc + (opAt p.code pc).size) (p.buildJumpDest pc) where
  boundary := h.opAt_eq ▸ h.boundary.next hlt
  length := by
    unfold Program.buildJumpDest
    split_ifs <;> simp [h.length]
  byte i := by
    have hpc : pc < p.code.length := by rw [h.length]; omega
    have hset : (p.buildJumpDest pc).code.getD i 0 = if i = pc then cleared code pc else p.code.getD i 0 := by
      simp only [Program.buildJumpDest, cleared, h.opAt_eq, h.boundary, true_and]
      by_cases hi : i = pc
      · subst hi
        rw [if_pos rfl]
        split_ifs
        · rw [getD_set hpc, if_pos rfl]
        · rw [h.byte, if_neg (lt_irrefl i)]
      · rw [if_neg hi]
        split_ifs
        · rw [getD_set hpc, if_neg fun he => hi he.symm]
        · rfl
    have hpos := (opAt code pc).size_pos
    rw [hset, h.byte i, h.opAt_eq]
    rcases lt_trichotomy i pc with hi | rfl | hi
    · rw [if_neg hi.ne, if_pos hi, if_pos (by omega)]
    · rw [if_pos rfl, if_pos (by omega)]
    · rw [if_neg hi.ne', if_neg (by omega)]
      split_ifs with hin
      · exact (cleared_inside h.boundary hi hin).symm
      · rfl
  mem_jumpDests d := by
    have hmem : d ∈ (p.buildJumpDest pc).jumpDests ↔ d ∈ p.jumpDests ∨
      (d = pc ∧ opAt code d = .JUMPDEST) := by
      simp only [Program.buildJumpDest, h.opAt_eq]
      split_ifs with hop
      · rw [mem_append, mem_singleton]
        exact or_congr_right ⟨fun hd => ⟨hd, hd ▸ hop⟩, And.left⟩
      · exact ⟨.inl, fun hd => hd.elim id fun hd => absurd (hd.1 ▸ hd.2) hop⟩
    have hpos := (opAt code pc).size_pos
    rw [hmem, h.mem_jumpDests d, h.opAt_eq]
    constructor
    · rintro (⟨hd, hb, hop⟩ | ⟨rfl, hop⟩)
      · exact ⟨by omega, hb, hop⟩
      · exact ⟨by omega, h.boundary, hop⟩
    · rintro ⟨hd, hb, hop⟩
      rcases lt_trichotomy d pc with hdp | hdp | hdp
      · exact .inl ⟨hdp, hb, hop⟩
      · exact .inr ⟨hdp, hop⟩
      · exact absurd (h.boundary.add_size_le hb hdp) (by omega)
  sorted := by
    simp only [Program.buildJumpDest]
    split_ifs
    · refine pairwise_append.mpr ⟨h.sorted, pairwise_singleton _ _, ?_⟩
      intro d hd e he
      rw [mem_singleton.mp he]
      exact ((h.mem_jumpDests d).mp hd).1
    · exact h.sorted
  pool := h.pool

theorem byte_of_length_le (h : FirstPass code pc p) (hpc : code.length ≤ pc) (i : ℕ) :
    p.code.getD i 0 = cleared code i := by
  rw [h.byte]
  split_ifs with hi
  · rfl
  · rw [cleared, opAt_of_length_le (by omega), if_neg]
    rintro ⟨-, ⟨⟩⟩

/-- At the end the table holds the destinations that a jump may have. A code has less than
`2 ^ 63` bytes, as every vector. -/
theorem verifyJumpDest_eq (h : FirstPass code pc p) (hpc : code.length ≤ pc)
    (hlen : code.length < 2 ^ 63) :
    verifyJumpDest p.jumpDests = (referenceText code).verifyJumpDest := by
  funext dest
  have hmem (d : ℕ) : binarySearch p.jumpDests d = true ↔ Boundary code d ∧
    opAt code d = .JUMPDEST := by
    rw [binarySearch_iff h.sorted.sortedLT.sortedLE, h.mem_jumpDests]
    refine and_iff_right_of_imp fun hd => ?_
    by_contra hlt
    rw [opAt_of_length_le (by omega)] at hd
    cases hd.2
  have hu (hle : dest.toNat ≤ 0x7FFFFFFFFFFFFFFF) : (u64 dest).toNat = dest.toNat := by
    simp only [u64, UInt64.toNat_ofNat']
    omega
  simp only [verifyJumpDest, referenceText]
  by_cases hd : Boundary code dest.toNat ∧ opAt code dest.toNat = .JUMPDEST
  · have hlt : dest.toNat < code.length := by
      by_contra hlt
      rw [opAt_of_length_le (not_lt.mp hlt)] at hd
      cases hd.2
    have hle : dest.toNat ≤ 0x7FFFFFFFFFFFFFFF := by omega
    rw [if_pos hd, hu hle, if_pos ⟨hle, (hmem _).mpr hd⟩]
  · rw [if_neg hd, if_neg]
    rintro ⟨hle, hj⟩
    exact hd ((hmem _).mp (hu hle ▸ hj))

end FirstPass

/-- A jump and the one that does not check its destination. -/
inductive Unchecked : Instruction → Instruction → Prop where
  | jump : Unchecked .JUMP .JUMPC
  | jumpi : Unchecked .JUMPI .JUMPCI

theorem not_unchecked_push {op : Instruction} {k : Fin 32} : ¬ Unchecked op (.PUSH k) := by
  rintro ⟨⟩

/-- The offset in the pool that `PUSHC` at `b` has. -/
def Program.poolOffset (p : Program) (b : ℕ) : ℕ :=
  (p.code.getD (b + 1) 0).toNat <<< 8 ||| (p.code.getD (b + 2) 0).toNat

/-- What has become of the instruction at `b`. The offset that stands in the code has 16 bits. -/
inductive Rewritten (code : Bytes) (p : Program) (b : ℕ) : Prop where
  | kept (hsize : (opAt code b).size ≤ 6) (h : opAt p.code b = (referenceText code).fetch b)
      (hdata : ∀ i, b < i → i < b + (opAt code b).size → p.code.getD i 0 = code.getD i 0)
  | pooled (k : Fin 32) (hlong : LongPush code b k) (h : opAt p.code b = .PUSHC)
      (hpool : p.pool[poolIndex code b]? = some ((referenceText code).pushed b k))
      (hoffset : p.poolOffset b = poolIndex code b % 2 ^ 16)
      (hskip : (p.code.getD (b + 3) 0).toNat + 1 = k)
  | unchecked (h : Unchecked ((referenceText code).fetch b) (opAt p.code b))

theorem Rewritten.mono {code : Bytes} {p p' : Program} {b : ℕ} (h : Rewritten code p b)
    (hcode : ∀ i, i < b + (opAt code b).size → p'.code.getD i 0 = p.code.getD i 0)
    (hpool : p.pool <+: p'.pool) : Rewritten code p' b := by
  have hpos := (opAt code b).size_pos
  have hop : opAt p'.code b = opAt p.code b := by rw [opAt, hcode b (by omega), opAt]
  cases h with
  | kept hsize h hdata =>
    exact .kept hsize (hop.trans h) fun i hlo hhi => (hcode i hhi).trans (hdata i hlo hhi)
  | pooled k hk hp hv hoff hskip =>
    have hsize := hk.size_eq
    have hlong := hk.long
    refine .pooled k hk (hop.trans hp) ?_ ?_ ?_
    · obtain ⟨t, ht⟩ := hpool
      rw [← ht, List.getElem?_append_left (List.getElem?_eq_some_iff.mp hv).1, hv]
    · rw [Program.poolOffset, hcode (b + 1) (by omega), hcode (b + 2) (by omega), ← hoff,
        Program.poolOffset]
    · rw [hcode (b + 3) (by omega), hskip]
  | unchecked h => exact .unchecked (hop ▸ h)

/-- The code differs only from `lo` up to `hi`, and the pool only grows. -/
structure Differ (p p' : Program) (lo hi : ℕ) : Prop where
  length : p'.code.length = p.code.length
  byte : ∀ i, i < lo ∨ hi ≤ i → p'.code.getD i 0 = p.code.getD i 0
  pool : p.pool <+: p'.pool
  jumpDests : p'.jumpDests = p.jumpDests

namespace Differ
variable {p q r : Program} {lo hi : ℕ}

theorem refl (p : Program) (lo hi : ℕ) : Differ p p lo hi := ⟨rfl, fun _ _ => rfl, prefix_rfl, rfl⟩

theorem trans (h : Differ p q lo hi) (h' : Differ q r lo hi) : Differ p r lo hi :=
  ⟨h'.length.trans h.length, fun i hi => (h'.byte i hi).trans (h.byte i hi), h.pool.trans h'.pool,
    h'.jumpDests.trans h.jumpDests⟩

theorem widen {lo' hi' : ℕ} (h : Differ p q lo hi) (hlo : lo' ≤ lo) (hhi : hi ≤ hi') :
    Differ p q lo' hi' :=
  ⟨h.length, fun i hi => h.byte i (by omega), h.pool, h.jumpDests⟩

theorem opAt_eq {i : ℕ} (h : Differ p q lo hi) (hi : i < lo ∨ hi ≤ i) :
    opAt q.code i = opAt p.code i := by
  rw [opAt, h.byte i hi, opAt]

end Differ

namespace Program
variable {p : Program} {pc : ℕ}

theorem getD_stash (hpc : pc + 3 < p.code.length) (nPush : ℕ) (val : U256) (i : ℕ) :
    (p.stash pc nPush val).code.getD i 0 =
      if pc + 1 = i then UInt8.ofNat (p.pool.length % 2 ^ 16 / 256)
      else if pc + 2 = i then UInt8.ofNat (p.pool.length % 2 ^ 16 % 256)
      else if pc + 3 = i then UInt8.ofNat (nPush - 2)
      else if pc = i then 0xac else p.code.getD i 0 := by
  simp only [stash]
  rw [getD_set, getD_set, getD_set, getD_set]
  all_goals
    repeat rw [length_set]
    omega

theorem differ_stash (hpc : pc + 3 < p.code.length) (nPush : ℕ) (val : U256) :
    Differ p (p.stash pc nPush val) pc (pc + 4) where
  length := by simp [stash]
  byte i hi := by rw [getD_stash hpc, if_neg, if_neg, if_neg, if_neg] <;> omega
  pool := prefix_append _ _
  jumpDests := rfl

theorem opAt_stash (hpc : pc + 3 < p.code.length) (nPush : ℕ) (val : U256) :
    opAt (p.stash pc nPush val).code pc = .PUSHC := by
  rw [opAt, getD_stash hpc, if_neg (by omega), if_neg (by omega), if_neg (by omega), if_pos rfl]
  decide +kernel

theorem poolOffset_stash (hpc : pc + 3 < p.code.length) (nPush : ℕ) (val : U256) :
    (p.stash pc nPush val).poolOffset pc = p.pool.length % 2 ^ 16 := by
  rw [poolOffset, getD_stash hpc, getD_stash hpc, if_pos rfl, if_neg (by omega), if_pos rfl,
    UInt8.toNat_ofNat', UInt8.toNat_ofNat', ← Nat.shiftLeft_add_eq_or_of_lt (by omega),
    Nat.shiftLeft_eq]
  omega

theorem differ_replaceJump {i : ℕ} (hi : i < p.code.length) (val : U256) :
    Differ p (p.replaceJump i val) i (i + 1) := by
  have hset (b : Byte) : Differ p { p with code := p.code.set i b } i (i + 1) :=
    ⟨by simp, fun j hj => by rw [getD_set hi, if_neg (by omega)], prefix_rfl, rfl⟩
  unfold replaceJump
  split
  · split_ifs
    · exact hset 0xad
    · exact .refl p _ _
  · split_ifs
    · exact hset 0xae
    · exact .refl p _ _
  · exact .refl p _ _

theorem pool_replaceJump (p : Program) (i : ℕ) (val : U256) : (p.replaceJump i val).pool = p.pool := by
  unfold replaceJump
  split
  · split_ifs <;> rfl
  · split_ifs <;> rfl
  · rfl

theorem rewrite_of_push {code : Bytes} {k : Fin 32} (hop : opAt p.code pc = .PUSH k)
    (hdata : ∀ i, pc < i → i < pc + k + 2 → p.code.getD i 0 = code.getD i 0) :
    p.rewrite pc = replaceJump
      (if 5 < (k : ℕ) + 1 then p.stash pc (k + 1) ((referenceText code).pushed pc k) else p)
      (pc + k + 2) ((referenceText code).pushed pc k) := by
  have hval : readBytes (fun i => p.code.getD i 0) k (pc + 2)
      (BitVec.ofNat 256 (p.code.getD (pc + 1) 0).toNat) = (referenceText code).pushed pc k :=
    (p.text.pushed_eq pc k).symm.trans (Text.pushed_congr hdata)
  simp only [rewrite, hop, rewritePush, hval]
  rfl

theorem rewrite_of_ne (h : ∀ k, opAt p.code pc ≠ .PUSH k) : p.rewrite pc = p := by
  unfold rewrite
  split
  · rename_i k hk
    exact absurd hk (h k)
  · rfl

theorem opAt_replaceJump {i : ℕ} (hi : i < p.code.length) (val : U256) :
    opAt (p.replaceJump i val).code i = opAt p.code i ∨
      Unchecked (opAt p.code i) (opAt (p.replaceJump i val).code i) ∧
      (verifyJumpDest p.jumpDests val).isSome := by
  have hset (b : Byte) : opAt (p.code.set i b) i = .ofByte b := by rw [opAt, getD_set hi, if_pos rfl]
  unfold replaceJump
  split
  · rename_i hop
    split_ifs with hv
    · refine .inr ⟨?_, hv⟩
      rw [hop, hset]
      exact .jump
    · exact .inl rfl
  · rename_i hop
    split_ifs with hv
    · refine .inr ⟨?_, hv⟩
      rw [hop, hset]
      exact .jumpi
    · exact .inl rfl
  · exact .inl rfl

end Program

/-- A destination that is pushed at `b` is known to be one. -/
def Known (code : Bytes) (verify : U256 → Option ℕ) (b : ℕ) : Prop :=
  ∃ k, opAt code b = .PUSH k ∧ (verify ((referenceText code).pushed b k)).isSome

/-- The second loop before the turn at `pc`, with the jump destinations of the first. -/
structure SecondPass (code : Bytes) (dests : List ℕ) (pc : ℕ) (p : Program) : Prop where
  boundary : Boundary code pc
  length : p.code.length = code.length + 33
  ahead : ∀ i, pc < i → p.code.getD i 0 = cleared code i
  here : opAt p.code pc = (referenceText code).fetch pc ∨
    Unchecked ((referenceText code).fetch pc) (opAt p.code pc)
  before : ∀ b < pc, Boundary code b → Rewritten code p b
  known : ∀ b < pc, Boundary code b → ∀ op, Unchecked op (opAt p.code (b + (opAt code b).size)) →
    Known code (verifyJumpDest dests) b
  start : ∀ op, ¬ Unchecked op (opAt p.code 0)
  jumpDests : p.jumpDests = dests
  size : p.pool.length = poolIndex code pc

theorem not_isSynthetic_fetch (code : Bytes) (b : ℕ) :
    ¬ ((referenceText code).fetch b).isSynthetic := by
  simp only [referenceText]
  split_ifs with hs
  · exact Bool.false_ne_true
  · exact hs

theorem not_unchecked_fetch (code : Bytes) (b : ℕ) (op : Instruction) :
    ¬ Unchecked op ((referenceText code).fetch b) := by
  have hs := not_isSynthetic_fetch code b
  generalize (referenceText code).fetch b = op' at hs
  rintro ⟨⟩ <;> exact hs rfl

namespace SecondPass
variable {code : Bytes} {dests : List ℕ} {pc : ℕ} {p p' : Program}

theorem of_firstPass {q : ℕ} (h : FirstPass code q p) (hq : code.length ≤ q) :
    SecondPass code p.jumpDests 0 p := by
  have hbyte := h.byte_of_length_le hq
  have hop : opAt p.code 0 = (referenceText code).fetch 0 := by rw [opAt, hbyte, ofByte_cleared .zero]
  exact
    { boundary := .zero
      length := h.length
      ahead := fun i _ => hbyte i
      here := .inl hop
      before := fun b hb => absurd hb (by omega)
      known := fun b hb => absurd hb (by omega)
      start := fun op => hop ▸ not_unchecked_fetch code 0 op
      jumpDests := rfl
      size := by rw [h.pool, poolIndex_zero, length_nil] }

theorem opAt_ahead (h : SecondPass code dests pc p) {b : ℕ} (hb : Boundary code b) (hlt : pc < b) :
    opAt p.code b = (referenceText code).fetch b := by
  rw [opAt, h.ahead b hlt, ofByte_cleared hb]

theorem advance (h : SecondPass code dests pc p) (hlt : pc < code.length)
    (hd : Differ p p' pc (pc + (opAt code pc).size + 1))
    (hpc : opAt p'.code pc = opAt p.code pc ∨ ∀ op, ¬ Unchecked op (opAt p'.code pc))
    (hrew : Rewritten code p' pc)
    (hnext : opAt p'.code (pc + (opAt code pc).size) = (referenceText code).fetch (pc + (opAt code pc).size) ∨
      Unchecked ((referenceText code).fetch (pc + (opAt code pc).size))
      (opAt p'.code (pc + (opAt code pc).size)) ∧
        Known code (verifyJumpDest dests) pc)
    (hsize : p'.pool.length = p.pool.length + if 6 < (opAt code pc).size then 1 else 0) :
    SecondPass code dests (pc + (opAt code pc).size) p' := by
  have hnb := h.boundary.next hlt
  have hpos := (opAt code pc).size_pos
  have hcases {b : ℕ} (hb : Boundary code b) (hbn : b < pc + (opAt code pc).size) :
    b < pc ∨ b = pc := by
    rcases lt_trichotomy b pc with hbp | hbp | hbp
    · exact .inl hbp
    · exact .inr hbp
    · exact absurd (h.boundary.add_size_le hb hbp) (by omega)
  -- at `pc` itself no instruction turned into an unchecked jump
  have hat (op : Instruction) (hu : Unchecked op (opAt p'.code pc)) :
    Unchecked op (opAt p.code pc) := by
    rcases hpc with he | hno
    · exact he ▸ hu
    · exact absurd hu (hno op)
  refine ⟨hnb, hd.length.trans h.length, ?_, ?_, ?_, ?_, ?_, ?_, ?_⟩
  · intro i hi
    rw [hd.byte i (by omega), h.ahead i (by omega)]
  · exact hnext.imp_right And.left
  · intro b hbn hb
    rcases hcases hb hbn with hbp | rfl
    · have hle := hb.add_size_le h.boundary hbp
      exact (h.before b hbp hb).mono (fun i hi => hd.byte i (by omega)) hd.pool
    · exact hrew
  · intro b hbn hb op hu
    rcases hcases hb hbn with hbp | rfl
    · have hle := hb.add_size_le h.boundary hbp
      refine h.known b hbp hb op ?_
      rcases hle.lt_or_eq with hlt' | he
      · rwa [hd.opAt_eq (.inl hlt')] at hu
      · rw [he] at hu ⊢
        exact hat op hu
    · rcases hnext with he | hk
      · exact absurd (he ▸ hu) (not_unchecked_fetch code _ op)
      · exact hk.2
  · intro op hu
    refine h.start op ?_
    rcases Nat.eq_zero_or_pos pc with rfl | hp
    · exact hat op hu
    · rwa [hd.opAt_eq (.inl hp)] at hu
  · exact hd.jumpDests.trans h.jumpDests
  · rw [hsize, h.size, poolIndex_next h.boundary hlt]

theorem skip (h : SecondPass code dests pc p) (hlt : pc < code.length) (hsize : (opAt code pc).size = 1) :
    SecondPass code dests (pc + (opAt code pc).size) p := by
  refine h.advance hlt (.refl p _ _) (.inl rfl) ?_ (.inl ?_) (by rw [if_neg (by omega), Nat.add_zero])
  · rcases h.here with he | hu
    · exact .kept (by omega) he fun i hlo hhi => absurd hhi (by omega)
    · exact .unchecked hu
  · exact h.opAt_ahead (h.boundary.next hlt) (by omega)

theorem push {k : Fin 32} {q : Program} (h : SecondPass code dests pc p) (hlt : pc < code.length)
    (hop : opAt code pc = .PUSH k) (hd : Differ p q pc (pc + k + 2))
    (hpc : ∀ op, ¬ Unchecked op (opAt q.code pc)) (hrew : Rewritten code q pc)
    (hpool : q.pool.length = p.pool.length + if 6 < (opAt code pc).size then 1 else 0) :
    SecondPass code dests (pc + (opAt code pc).size)
    (q.replaceJump (pc + k + 2) ((referenceText code).pushed pc k)) := by
  have hsize : (opAt code pc).size = k + 2 := by rw [hop]; rfl
  have hnext : pc + (opAt code pc).size = pc + k + 2 := by omega
  have hlen : pc + k + 2 < q.code.length := by
    have := (h.boundary.next hlt).lt_length_add
    rw [hd.length, h.length]
    omega
  have hj := Program.differ_replaceJump hlen ((referenceText code).pushed pc k)
  have hjump := Program.opAt_replaceJump hlen ((referenceText code).pushed pc k)
  have hq : opAt q.code (pc + k + 2) = (referenceText code).fetch (pc + k + 2) := by
    rw [hd.opAt_eq (.inr le_rfl)]
    exact h.opAt_ahead (hnext ▸ h.boundary.next hlt) (by omega)
  refine h.advance hlt ?_ (.inr ?_) ?_ ?_ ?_
  · exact (hd.widen le_rfl (by omega)).trans (hj.widen (by omega) (by omega))
  · rwa [hj.opAt_eq (.inl (by omega))]
  · exact hrew.mono (fun i hi => hj.byte i (.inl (by omega))) hj.pool
  · rw [hnext, ← hq]
    refine hjump.imp_right fun hu => ⟨hu.1, k, hop, ?_⟩
    rw [← h.jumpDests, ← hd.jumpDests]
    exact hu.2
  · rwa [Program.pool_replaceJump]

theorem turn (h : SecondPass code dests pc p) (hlt : pc < code.length) :
    SecondPass code dests (pc + (opAt p.code pc).size) (p.rewrite pc) := by
  by_cases hpush : ∃ k, opAt code pc = .PUSH k
  · obtain ⟨k, hop⟩ := hpush
    have hsize : (opAt code pc).size = k + 2 := by rw [hop]; rfl
    have hp : opAt p.code pc = .PUSH k := by
      rcases h.here with he | hu
      · exact he.trans (fetch_of_push hop)
      · rw [fetch_of_push hop] at hu
        cases hu
    have hdata (i : ℕ) (hlo : pc < i) (hhi : i < pc + (opAt code pc).size) :
      p.code.getD i 0 = code.getD i 0 := by
      rw [h.ahead i hlo, cleared_inside h.boundary hlo hhi]
    have hlen : pc + 3 < p.code.length := by
      rw [h.length]
      omega
    rw [Program.rewrite_of_push hp fun i hlo hhi => hdata i hlo (by omega), hp, ← hop]
    refine h.push hlt hop ?_ ?_ ?_ ?_
    · split_ifs
      · exact (Program.differ_stash hlen _ _).widen le_rfl (by omega)
      · exact .refl p _ _
    · intro op hu
      split_ifs at hu
      · rw [Program.opAt_stash hlen] at hu
        cases hu
      · rw [hp] at hu
        cases hu
    · split_ifs with hlong
      · refine .pooled k ⟨h.boundary, hop, by omega⟩ (Program.opAt_stash hlen _ _) ?_ ?_ ?_
        · rw [← h.size]
          simp [Program.stash]
        · rw [Program.poolOffset_stash hlen, h.size]
        · rw [Program.getD_stash hlen, if_neg (by omega), if_neg (by omega), if_pos rfl, UInt8.toNat_ofNat']
          omega
      · exact .kept (by omega) (hp.trans (fetch_of_push hop).symm) hdata
    · by_cases hlong : 5 < (k : ℕ) + 1
      · rw [if_pos hlong, if_pos (by omega)]
        simp [Program.stash]
      · rw [if_neg hlong, if_neg (by omega), Nat.add_zero]
  · have hno (k : Fin 32) : opAt p.code pc ≠ .PUSH k := by
      intro hk
      rcases h.here with he | hu
      · exact hpush ⟨k, fetch_eq_push_iff.mp (he ▸ hk)⟩
      · exact absurd (hk ▸ hu) not_unchecked_push
    have hsize := Instruction.size_eq_one fun k hk => hpush ⟨k, hk⟩
    rw [Program.rewrite_of_ne hno, Instruction.size_eq_one hno, ← hsize]
    exact h.skip hlt hsize

theorem rewritten (h : SecondPass code dests pc p) (hpc : code.length ≤ pc) {b : ℕ}
    (hb : Boundary code b) : Rewritten code p b := by
  rcases lt_trichotomy b pc with hlt | rfl | hlt
  · exact h.before b hlt hb
  · -- the end of the code, where a `STOP` of the padding stands
    have hsize : (opAt code b).size = 1 := by rw [opAt_of_length_le hpc]; rfl
    rcases h.here with he | hu
    · exact .kept (by omega) he fun i hlo hhi => absurd hhi (by omega)
    · rw [fetch_of_length_le hpc] at hu
      cases hu
  · -- nothing follows it
    cases hb with
    | zero => omega
    | @next c hc hclt => exact absurd (hc.add_size_le h.boundary (by omega)) (by omega)

end SecondPass

/-- The program is the code as far as the interpreter can see. -/
structure Layout (code : Bytes) (p : Program) : Prop where
  rewritten : ∀ b, Boundary code b → Rewritten code p b
  known : ∀ b, Boundary code b → b < code.length → ∀ op,
    Unchecked op (opAt p.code (b + (opAt code b).size)) → Known code (referenceText code).verifyJumpDest b
  start : ∀ op, ¬ Unchecked op (opAt p.code 0)
  verify : verifyJumpDest p.jumpDests = (referenceText code).verifyJumpDest
  room : longPushes code 0 ≤ 2 ^ 16

theorem secondPass_optimize (code : Bytes) : ∃ dests pc,
    (code.length < 2 ^ 63 → verifyJumpDest dests = (referenceText code).verifyJumpDest) ∧
      code.length ≤ pc ∧ SecondPass code dests pc (Program.optimize code) := by
  obtain ⟨q, hq, h⟩ := Program.scan_invariant (fun _ _ hlt h => FirstPass.turn h hlt) code.length 0
    ⟨copyCode code 33, [], []⟩ (by omega) (.start code)
  obtain ⟨pc, hpc, h'⟩ :=
    Program.scan_invariant (fun _ _ hlt h => SecondPass.turn h hlt) code.length 0 _ (by omega)
    (.of_firstPass h hq)
  exact ⟨_, pc, h.verifyJumpDest_eq hq, hpc, h'⟩

theorem layout_optimize {code : Bytes} (hlen : code.length < 2 ^ 63)
    (hroom : longPushes code 0 ≤ 2 ^ 16) : Layout code (Program.optimize code) := by
  obtain ⟨dests, pc, hverify, hpc, h⟩ := secondPass_optimize code
  rw [← h.jumpDests] at hverify
  refine ⟨fun b => h.rewritten hpc, fun b hb hlt op hu => ?_, h.start, hverify hlen, hroom⟩
  rw [← hverify hlen, h.jumpDests]
  exact h.known b (by omega) hb op hu

end Vapory.Vvm
