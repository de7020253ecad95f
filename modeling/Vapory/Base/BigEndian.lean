import Mathlib.Data.Nat.Digits.Lemmas

/-! Big-endian byte strings: the digits of a natural number in base 256, most
significant first, and the number a byte string denotes. -/
namespace Vapory.BigEndian
open List Nat

/-- The minimal big-endian byte string of `n`; empty for zero. -/
def digits (n : ℕ) : List UInt8 := ((Nat.digits 256 n).map UInt8.ofNat).reverse

/-- The number denoted by a big-endian byte string, read one byte at a time. -/
def value (bs : List UInt8) : ℕ := bs.foldl (fun r b => r * 256 + b.toNat) 0

@[simp] theorem digits_zero : digits 0 = [] := rfl

@[simp] theorem value_nil : value [] = 0 := rfl

theorem value_append_singleton (bs : List UInt8) (b : UInt8) :
    value (bs ++ [b]) = value bs * 256 + b.toNat := by
  simp [value, foldl_append]

theorem value_eq_ofDigits (bs : List UInt8) :
    value bs = Nat.ofDigits 256 (bs.reverse.map UInt8.toNat) := by
  induction bs using List.reverseRecOn with
  | nil => rfl
  | append_singleton bs b ih =>
    rw [value_append_singleton, ih]
    simp [ofDigits_cons]
    omega

theorem toNat_map_ofNat (ds : List ℕ) (h : ∀ d ∈ ds, d < 256) :
    (ds.map UInt8.ofNat).map UInt8.toNat = ds := by
  rw [map_map]
  conv_rhs => rw [← map_id ds]
  apply map_congr_left
  intro d hd
  have := h d hd
  simp [mod_eq_of_lt this]

@[simp] theorem value_digits (n : ℕ) : value (digits n) = n := by
  have hd : ∀ d ∈ Nat.digits 256 n, d < 256 := fun d hd =>
    digits_lt_base (by norm_num) hd
  rw [value_eq_ofDigits, digits, reverse_reverse, toNat_map_ofNat _ hd, ofDigits_digits]

variable {n : ℕ}

theorem digits_succ (h : n ≠ 0) :
    digits n = digits (n / 256) ++ [UInt8.ofNat (n % 256)] := by
  rw [digits, digits_def' (by norm_num) (pos_of_ne_zero h)]
  simp [digits]

theorem digits_length_le_iff (n k : ℕ) : (digits n).length ≤ k ↔ n < 256 ^ k := by
  simpa [digits] using Nat.digits_length_le_iff (b := 256) (by norm_num) n

theorem digits_ne_nil (h : n ≠ 0) : digits n ≠ [] := by
  simpa [digits] using digits_ne_nil_iff_ne_zero.mpr h

theorem head_digits_ne_zero (h : n ≠ 0) :
    (digits n).head (digits_ne_nil h) ≠ 0 := by
  have hl := getLast_digit_ne_zero 256 h
  have hlt : (Nat.digits 256 n).getLast (digits_ne_nil_iff_ne_zero.mpr h) < 256 :=
    digits_lt_base (by norm_num) (getLast_mem _)
  simp only [digits, head_reverse, getLast_map]
  intro hz
  apply hl
  have := congrArg UInt8.toNat hz
  simpa [mod_eq_of_lt hlt] using this

theorem forall_toNat_lt (bs : List UInt8) : ∀ d ∈ bs.reverse.map UInt8.toNat, d < 256 := by
  intro d hd
  obtain ⟨b, -, rfl⟩ := mem_map.mp hd
  exact b.toNat_lt

theorem digits_value (bs : List UInt8) (h : ∀ b ∈ bs.head?, b ≠ 0) : digits (value bs) = bs := by
  have hlt := forall_toNat_lt bs
  have hlast : ∀ hne : bs.reverse.map UInt8.toNat ≠ [],
      (bs.reverse.map UInt8.toNat).getLast hne ≠ 0 := by
    intro hne hz
    cases bs with
    | nil => simp at hne
    | cons b bs =>
      have hb := h b (by simp)
      simp only [reverse_cons, map_append, map_cons, map_nil,
        getLast_append_singleton] at hz
      exact hb (UInt8.toNat_inj.mp hz)
  rw [digits, value_eq_ofDigits, digits_ofDigits 256 (by norm_num) _ hlt hlast,
    map_map]
  have : UInt8.ofNat ∘ UInt8.toNat = id := by funext b; simp
  rw [this, map_id, reverse_reverse]

theorem value_lt (bs : List UInt8) : value bs < 256 ^ bs.length := by
  rw [value_eq_ofDigits]
  have h := ofDigits_lt_base_pow_length (b := 256) (l := bs.reverse.map UInt8.toNat)
    (by norm_num) (forall_toNat_lt bs)
  simpa using h

/-- `n` bytes of a number, the most significant first. -/
def fixed (n v : ℕ) : List UInt8 := (List.range n).map fun i => UInt8.ofNat (v / 256 ^ (n - 1 - i))

@[simp] theorem length_fixed (n v : ℕ) : (fixed n v).length = n := by simp [fixed]

theorem fixed_succ (n v : ℕ) : fixed (n + 1) v = UInt8.ofNat (v / 256 ^ n) :: fixed n v := by
  unfold fixed
  rw [range_succ_eq_map, map_cons, map_map]
  congr 1
  apply map_congr_left
  intro i hi
  show UInt8.ofNat (v / 256 ^ (n + 1 - 1 - (i + 1))) = _
  congr 3
  omega

theorem value_cons (b : UInt8) (bs : List UInt8) :
    value (b :: bs) = b.toNat * 256 ^ bs.length + value bs := by
  induction bs using List.reverseRecOn with
  | nil => simp [value]
  | append_singleton bs c ih =>
    rw [← cons_append, value_append_singleton, ih, value_append_singleton, length_append,
      length_singleton, pow_succ]
    ring

theorem value_fixed {n v : ℕ} (h : v < 256 ^ n) : value (fixed n v) = v := by
  suffices hmod : value (fixed n v) = v % 256 ^ n by rw [hmod, mod_eq_of_lt h]
  clear h
  induction n with
  | zero => simp [fixed, mod_one]
  | succ n ih =>
    have hb : (UInt8.ofNat (v / 256 ^ n)).toNat = v / 256 ^ n % 256 := UInt8.toNat_ofNat'
    rw [fixed_succ, value_cons, ih, length_fixed, hb, pow_succ, mod_mul]
    ring

theorem value_injective {bs cs : List UInt8} (hlen : bs.length = cs.length)
    (h : value bs = value cs) : bs = cs := by
  rw [value_eq_ofDigits, value_eq_ofDigits] at h
  have hmap := ofDigits_inj_of_len_eq (by norm_num) (by simpa using hlen) (forall_toNat_lt bs)
    (forall_toNat_lt cs) h
  exact reverse_injective (map_injective_iff.mpr (fun _ _ => UInt8.toNat_inj.mp) hmap)

theorem fixed_value {bs : List UInt8} (h : bs.length = n) : fixed n (value bs) = bs := by
  subst h
  exact value_injective (length_fixed _ _) (value_fixed (value_lt bs))

theorem fixed_toNat_ofNat {w n : ℕ} {bs : List UInt8} (hw : w = 8 * n) (h : bs.length = n) :
    fixed n (BitVec.ofNat w (value bs)).toNat = bs := by
  have hlt : value bs < 2 ^ w := by
    rw [hw, pow_mul]
    exact h ▸ value_lt bs
  rw [BitVec.toNat_ofNat, mod_eq_of_lt hlt]
  exact fixed_value h

end Vapory.BigEndian
