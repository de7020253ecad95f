import Vapory.Base.Padding
import Vapory.Devcore.VectorRef

/-! The modular exponentiation precompile: its executor, with the assertions on the declared
lengths, and its pricer, against EIP-198. -/
namespace Vapory
open BigEndian Nat
namespace Precompiled
open Padding

/-- `numeric_limits<size_t>::max() / 8`, up to which lengths are asserted to be. -/
def lengthLimit : ℕ := (2 ^ 64 - 1) / 8

/-- So many bytes from `start` on as a big-endian number, with zeroes behind the input. `none` is a
failed assertion. -/
def parseBigEndianRightPadded (input : Bytes) (start count : ℕ) : Option ℕ :=
  if input.length < start then some 0
  else if lengthLimit < count then none
  else
    let cropped := (input.drop start).take (min count (input.length - start))
    if lengthLimit < count - cropped.length then none
    else some (value cropped <<< (8 * (count - cropped.length)))

/-- `boost::multiprecision::powm`. -/
def powm (base exp mod : ℕ) : ℕ := base ^ exp % mod

def modexp (input : Bytes) : Option Bytes := do
  let baseLength ← parseBigEndianRightPadded input 0 32
  let expLength ← parseBigEndianRightPadded input 32 32
  let modLength ← parseBigEndianRightPadded input 64 32
  if lengthLimit < modLength then none
  else if lengthLimit < baseLength then none
  else if modLength = 0 ∧ baseLength = 0 then some []
  else if lengthLimit < expLength then none
  else do
    let base ← parseBigEndianRightPadded input 96 baseLength
    let exp ← parseBigEndianRightPadded input (96 + baseLength) expLength
    let mod ← parseBigEndianRightPadded input (96 + baseLength + expLength) modLength
    let result := if mod ≠ 0 then powm base exp mod else 0
    return fixed modLength result

/-- The index of the highest bit, `msb`, and 0 for 0. -/
def highestBit (n : ℕ) : ℕ := if n ≠ 0 then n.log2 else 0

def expLengthAdjust (expOffset expLength : ℕ) (input : Bytes) : Option ℕ :=
  if expLength ≤ 32 then do
    let exp ← parseBigEndianRightPadded input expOffset expLength
    return highestBit exp
  else do
    let expFirstWord ← parseBigEndianRightPadded input expOffset 32
    return 8 * (expLength - 32) + highestBit expFirstWord

/-- The differences are never below zero. -/
def multComplexity (x : ℕ) : ℕ :=
  if x ≤ 64 then x * x
  else if x ≤ 1024 then x * x / 4 + 96 * x - 3072
  else x * x / 16 + 480 * x - 199680

def modexpPrice (input : Bytes) : Option ℕ := do
  let baseLength ← parseBigEndianRightPadded input 0 32
  let expLength ← parseBigEndianRightPadded input 32 32
  let modLength ← parseBigEndianRightPadded input 64 32
  let maxLength := max modLength baseLength
  let adjustedExpLength ← expLengthAdjust (baseLength + 96) expLength input
  return multComplexity maxLength * max adjustedExpLength 1 / 20

/-! ### EIP-198 -/
namespace Eip198

/-- The number in so many bytes of the input, which goes on with zeroes for ever. -/
def field (input : Bytes) (offset length : ℕ) : ℕ := value (padded input 0 offset length)

def baseLength (input : Bytes) : ℕ := field input 0 32
def expLength (input : Bytes) : ℕ := field input 32 32
def modLength (input : Bytes) : ℕ := field input 64 32

def base (input : Bytes) : ℕ := field input 96 (baseLength input)
def exponent (input : Bytes) : ℕ := field input (96 + baseLength input) (expLength input)
def modulus (input : Bytes) : ℕ :=
  field input (96 + baseLength input + expLength input) (modLength input)

def power (input : Bytes) : ℕ :=
  if modulus input = 0 then 0 else base input ^ exponent input % modulus input

structure IsOutput (input out : Bytes) : Prop where
  length : out.length = modLength input
  value : value out = power input

def complexity (x : ℤ) : ℤ :=
  if x ≤ 64 then x ^ 2
  else if x ≤ 1024 then x ^ 2 / 4 + 96 * x - 3072
  else x ^ 2 / 16 + 480 * x - 199680

/-- The index of the highest bit of the exponent, of which a longer one than 32 bytes counts its
first 32 and its further length. -/
def adjustedExpLength (input : Bytes) : ℕ :=
  if expLength input ≤ 32 then Nat.log 2 (exponent input)
  else 8 * (expLength input - 32) + Nat.log 2 (field input (96 + baseLength input) 32)

def gas (input : Bytes) : ℤ :=
  complexity (max (modLength input) (baseLength input)) * max (adjustedExpLength input) 1 / 20

end Eip198

section Parse
variable {input : Bytes} {start count : ℕ}

/-- Only a field that starts in the input has its length checked. -/
theorem parse_eq (input : Bytes) (start count : ℕ) : parseBigEndianRightPadded input start count =
    if start ≤ input.length ∧ lengthLimit < count then none else some
    (Eip198.field input start count) := by
  rw [parseBigEndianRightPadded, Eip198.field, value_padded]
  by_cases hstart : input.length < start
  · have hnone : input.drop start = [] := List.drop_eq_nil_of_le hstart.le
    rw [if_pos hstart, if_neg (fun h => absurd h.1 (by omega)), hnone]
    simp
  · have htake : (input.drop start).take (min count (input.length - start)) =
      (input.drop start).take count := by
      rw [List.take_eq_take_iff, List.length_drop]
      omega
    rw [if_neg hstart, htake]
    by_cases hcount : lengthLimit < count
    · rw [if_pos hcount, if_pos ⟨not_lt.mp hstart, hcount⟩]
    · have hrest : ¬ lengthLimit < count - ((input.drop start).take count).length := by omega
      have hfits : ¬ (start ≤ input.length ∧ lengthLimit < count) := fun h => hcount h.2
      rw [if_neg hcount, if_neg hrest, if_neg hfits]

theorem parse_eq_field (h : count ≤ lengthLimit) :
    parseBigEndianRightPadded input start count = some (Eip198.field input start count) := by
  rw [parse_eq, if_neg fun hbad => absurd hbad.2 (not_lt.mpr h)]

theorem parse_head (start : ℕ) :
    parseBigEndianRightPadded input start 32 = some (Eip198.field input start 32) :=
  parse_eq_field (by decide)

end Parse

section Output
variable {input : Bytes}
open Eip198

structure WithinLimits (input : Bytes) : Prop where
  mod_le : modLength input ≤ lengthLimit
  base_le : baseLength input ≤ lengthLimit
  exp_le : modLength input = 0 ∧ baseLength input = 0 ∨ expLength input ≤ lengthLimit

theorem modexp_eq (input : Bytes) : modexp input =
    if lengthLimit < modLength input then none
    else if lengthLimit < baseLength input then none
    else if modLength input = 0 ∧ baseLength input = 0 then some []
    else if lengthLimit < expLength input then none
    else some (fixed (modLength input) (power input)) := by
  rw [modexp, parse_head, parse_head, parse_head]
  show (if lengthLimit < modLength input then none else _) = _
  refine ite_congr rfl (fun _ => rfl) fun hmod => ?_
  refine ite_congr rfl (fun _ => rfl) fun hbase => ?_
  refine ite_congr rfl (fun _ => rfl) fun _ => ?_
  refine ite_congr rfl (fun _ => rfl) fun hexp => ?_
  have hbase' : parseBigEndianRightPadded input 96 (baseLength input) = some (base input) :=
    parse_eq_field (not_lt.mp hbase)
  have hexp' : parseBigEndianRightPadded input (96 + baseLength input) (expLength input) =
    some (exponent input) :=
    parse_eq_field (not_lt.mp hexp)
  have hmod' : parseBigEndianRightPadded input (96 + baseLength input + expLength input)
    (modLength input) = some (modulus input) :=
    parse_eq_field (not_lt.mp hmod)
  show (parseBigEndianRightPadded input 96 (baseLength input) >>= _) = _
  rw [hbase']
  show (parseBigEndianRightPadded input (96 + baseLength input) (expLength input) >>= _) = _
  rw [hexp']
  show (parseBigEndianRightPadded input (96 + baseLength input + expLength input) (modLength input)
    >>= _) = _
  rw [hmod']
  show some (fixed (modLength input)
    (if modulus input ≠ 0 then base input ^ exponent input % modulus input else 0)) = _
  rw [ite_not]
  rfl

theorem power_lt (input : Bytes) : power input < 256 ^ modLength input := by
  rw [power]
  split_ifs with hmod
  · exact Nat.pow_pos (by decide)
  · exact (mod_lt _ (pos_of_ne_zero hmod)).trans (value_padded_lt _ _ _)

theorem modexp_isSome_iff : (modexp input).isSome = true ↔ WithinLimits input := by
  rw [modexp_eq]
  split_ifs with hmod hbase hzero hexp
  · exact iff_of_false Bool.false_ne_true fun h => absurd h.mod_le (not_le.mpr hmod)
  · exact iff_of_false Bool.false_ne_true fun h => absurd h.base_le (not_le.mpr hbase)
  · exact iff_of_true rfl ⟨not_lt.mp hmod, not_lt.mp hbase, .inl hzero⟩
  · refine iff_of_false Bool.false_ne_true fun h => ?_
    exact h.exp_le.elim hzero (not_le.mpr hexp)
  · exact iff_of_true rfl ⟨not_lt.mp hmod, not_lt.mp hbase, .inr (not_lt.mp hexp)⟩

theorem isOutput_of_modexp {out : Bytes} (h : modexp input = some out) : IsOutput input out := by
  rw [modexp_eq] at h
  split_ifs at h with hmod hbase hzero hexp
  · obtain rfl := Option.some.inj h
    refine ⟨hzero.1.symm, ?_⟩
    have hlt := power_lt input
    rw [hzero.1, pow_zero] at hlt
    rw [value_nil]
    omega
  · obtain rfl := Option.some.inj h
    exact ⟨length_fixed _ _, value_fixed (power_lt input)⟩

end Output

section Price
variable {input : Bytes}
open Eip198

theorem cast_multComplexity (x : ℕ) : (multComplexity x : ℤ) = complexity x := by
  have h64 : (x : ℤ) ≤ 64 ↔ x ≤ 64 := by omega
  have h1024 : (x : ℤ) ≤ 1024 ↔ x ≤ 1024 := by omega
  simp only [multComplexity, complexity, sq, h64, h1024]
  split_ifs
  · exact cast_mul x x
  · rw [cast_sub (by omega)]
    push_cast
    rfl
  · rw [cast_sub (by omega)]
    push_cast
    rfl

theorem highestBit_eq (n : ℕ) : highestBit n = Nat.log 2 n := by
  rw [highestBit]
  split_ifs with h
  · exact log2_eq_log_two
  · rw [not_not.mp h, log_zero_right]

theorem expLengthAdjust_eq (input : Bytes) :
    expLengthAdjust (baseLength input + 96) (expLength input) input =
    some (adjustedExpLength input) := by
  rw [expLengthAdjust, adjustedExpLength, add_comm (baseLength input)]
  split_ifs with hlen
  · have hexp : parseBigEndianRightPadded input (96 + baseLength input) (expLength input) =
      some (exponent input) :=
      parse_eq_field (hlen.trans (by decide))
    rw [hexp, ← highestBit_eq]
    rfl
  · rw [parse_head, ← highestBit_eq]
    rfl

theorem modexpPrice_eq (input : Bytes) : modexpPrice input =
    some (multComplexity (max (modLength input) (baseLength input)) *
      max (adjustedExpLength input) 1 / 20) := by
  rw [modexpPrice, parse_head, parse_head, parse_head]
  show (expLengthAdjust (baseLength input + 96) (expLength input) input >>= _) = _
  rw [expLengthAdjust_eq]
  rfl

theorem cast_price (input : Bytes) :
    ((multComplexity (max (modLength input) (baseLength input)) * max (adjustedExpLength input)
      1 / 20 : ℕ) : ℤ) = gas input := by
  rw [gas, Int.natCast_ediv, cast_mul, cast_multComplexity, cast_max]
  rfl

end Price

section Main
open Eip198

/-- The executor returns what EIP-198 says exactly if the lengths are within the asserted limits,
and the pricer always does. -/
theorem modexp_correct_iff (input : Bytes) :
    ((∃ out, modexp input = some out ∧ IsOutput input out) ↔ WithinLimits input) ∧
      ∃ price, modexpPrice input = some price ∧ (price : ℤ) = gas input := by
  refine ⟨?_, _, modexpPrice_eq input, cast_price input⟩
  rw [← modexp_isSome_iff, Option.isSome_iff_exists]
  constructor
  · rintro ⟨out, h, -⟩
    exact ⟨out, h⟩
  · rintro ⟨out, h⟩
    exact ⟨out, h, isOutput_of_modexp h⟩

/-- A base and a modulus of one byte, and an exponent that is too long by one. -/
theorem modexp_aborts : modexp
    (fixed 32 1 ++ fixed 32 (2 ^ 61) ++ fixed 32 1) = none := by
  decide +kernel

theorem le_multComplexity {x : ℕ} (h : 4 ≤ x) : 16 ≤ multComplexity x := by
  have hsq : 4 * 4 ≤ x * x := Nat.mul_le_mul h h
  rw [multComplexity]
  split_ifs
  · exact hsq
  · omega
  · omega

theorem multComplexity_long {x : ℕ} (h : lengthLimit < x) : 2 ^ 118 ≤ multComplexity x := by
  have hx : 2 ^ 61 ≤ x := h
  have hsq : 2 ^ 61 * 2 ^ 61 ≤ x * x := Nat.mul_le_mul hx hx
  rw [multComplexity, if_neg (by omega), if_neg (by omega)]
  omega

/-- Of what can be paid for only a long exponent with a short base and a short modulus aborts. -/
theorem modexp_affordable_iff {input : Bytes} {price : ℕ} (hprice : modexpPrice input = some price)
    (hle : price ≤ 2 ^ 63 - 1) : (modexp input).isSome = true ↔
      ¬ ((1 ≤ max (modLength input) (baseLength input) ∧ max (modLength input) (baseLength input) ≤
        3) ∧ lengthLimit < expLength input) := by
  rw [modexpPrice_eq] at hprice
  obtain rfl := Option.some.inj hprice
  -- the complexity is paid at least once, and a long exponent for each of its bits
  have hone : multComplexity (max (modLength input) (baseLength input)) ≤
      multComplexity (max (modLength input) (baseLength input)) * max (adjustedExpLength input) 1 :=
    Nat.le_mul_of_pos_right _ (by omega)
  have hmax : max (modLength input) (baseLength input) ≤ lengthLimit := by
    by_contra hlong
    have := multComplexity_long (not_le.mp hlong)
    omega
  have hexp (hlong : lengthLimit < expLength input)
    (hfour : 4 ≤ max (modLength input) (baseLength input)) : False := by
    have hadjusted : 8 * (expLength input - 32) ≤ adjustedExpLength input := by
      rw [adjustedExpLength, if_neg (by simp only [lengthLimit] at hlong; omega)]
      exact le_add_right _ _
    have hcost : 16 * (8 * (expLength input - 32)) ≤
        multComplexity (max (modLength input) (baseLength input)) * max (adjustedExpLength input) 1 :=
      Nat.mul_le_mul (le_multComplexity hfour) (hadjusted.trans (le_max_left _ _))
    have hlong : 2 ^ 61 ≤ expLength input := hlong
    omega
  rw [modexp_isSome_iff]
  constructor
  · rintro h ⟨⟨hpos, -⟩, hlong⟩
    rcases h.exp_le with ⟨hmod, hbase⟩ | hshort
    · omega
    · omega
  · intro h
    refine ⟨(le_max_left _ _).trans hmax, (le_max_right _ _).trans hmax, ?_⟩
    by_contra hbad
    obtain ⟨hnot, hlong⟩ := not_or.mp hbad
    rcases lt_or_ge 3 (max (modLength input) (baseLength input)) with hfour | hthree
    · exact hexp (not_le.mp hlong) hfour
    · exact h ⟨⟨by omega, hthree⟩, not_le.mp hlong⟩

/-- A base of three bytes and no modulus. -/
theorem modexp_affordable_aborts :
    let input := fixed 32 3 ++ fixed 32 (2 ^ 61) ++ fixed 32 0
    modexpPrice input = some 8301034833169298112 ∧ 8301034833169298112 ≤ 2 ^ 63 - 1 ∧
      modexp input = none := by
  decide +kernel

/-- Three squared modulo five. -/
theorem modexp_affordable_three :
    (modexp (fixed 32 1 ++ fixed 32 1 ++ fixed 32 1 ++
      [3, 2, 5])).isSome = true := by
  have hprice : modexpPrice (fixed 32 1 ++ fixed 32 1 ++ fixed 32 1 ++
    [3, 2, 5]) = some 0 := by
    decide +kernel
  exact (modexp_affordable_iff hprice (by decide)).mpr (by decide +kernel)

end Main

end Precompiled
end Vapory
