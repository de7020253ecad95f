import Vapory.State.Rollback
import Vapory.Transaction.TransactionBase

/-! What a transaction is sent as, and what is accepted as a transaction. -/
namespace Vapory
open RLP RLPTree List Vapory.Except BigEndian RLPStream

namespace TransactionBase
variable {H : Hasher} {C : Crypto} {t : TransactionBase} {vrs : SignatureStruct}
  {check : CheckTransaction}

def items (t : TransactionBase) (vrs : SignatureStruct) : List Bytes :=
  [digits t.nonce.toNat, digits t.gasPrice.toNat, digits t.gas.toNat,
    if t.type = .MessageCall then addressBytes t.receiveAddress else [],
    digits t.value.toNat, t.data,
    digits (t.wireV vrs), digits vrs.r.toNat, digits vrs.s.toNat]

def encoding (t : TransactionBase) (vrs : SignatureStruct) : Bytes :=
  encode (.list ((t.items vrs).map .leaf))

@[simp] theorem liftM_ok {α : Type} (a : α) :
    (liftM (Except.ok a : Except RLPError α) : Except Error α) = .ok a := rfl

theorem length_digits_toNat {w k : ℕ} (x : BitVec w) (h : w ≤ 8 * k) :
    (digits x.toNat).length ≤ k := by
  rw [digits_length_le_iff]
  calc x.toNat < 2 ^ w := x.isLt
    _ ≤ 2 ^ (8 * k) := Nat.pow_le_pow_right (by norm_num) h
    _ = 256 ^ k := by rw [pow_mul]; norm_num

theorem toUInt32_lt (x : ℤ) : toUInt32 x < 2 ^ 32 := by
  unfold toUInt32
  omega

theorem wireV_lt (t : TransactionBase) (vrs : SignatureStruct) : t.wireV vrs < 256 ^ 4 := by
  have h : (256 : ℕ) ^ 4 = 2 ^ 32 := by norm_num
  rw [wireV, h]
  split_ifs
  · exact toUInt32_lt _
  · exact toUInt32_lt _

theorem length_addressBytes (a : Address) : (addressBytes a).length = 20 := by
  simp [addressBytes]

theorem length_item_lt {x : Bytes} (h : x ∈ t.items vrs)
    (hlen : (t.encoding vrs).length < 256 ^ 8) : x.length < 256 ^ 8 := by
  have hmem : RLPTree.leaf x ∈ (t.items vrs).map .leaf := mem_map_of_mem h
  have hle := length_encode_le_of_mem hmem
  have hx : x.length ≤ (encodeLeaf x).length := by
    rw [encodeLeaf]
    split_ifs
    · exact le_rfl
    · rw [length_append]
      omega
  rw [encoding, encode_list, length_append] at hlen
  rw [encode_leaf] at hle
  omega

theorem streamRLP_eq (htype : t.type ≠ .NullTransaction) (hvrs : t.vrs = some vrs)
    (hlen : (t.encoding vrs).length < 256 ^ 8) :
    t.streamRLP .WithSignature false {} = .ok ⟨t.encoding vrs, []⟩ := by
  have hint {i k p : ℕ} {o : Bytes} {st : List (ℕ × ℕ)} (h : digits i ∈ t.items vrs) :
      appendInt ⟨o, (k + 2, p) :: st⟩ i =
      .ok ⟨o ++ encodeLeaf (digits i), (k + 1, p) :: st⟩ :=
    (appends_appendInt (length_item_lt h hlen)).step
  have hstr {b : Bytes} {k p : ℕ} {o : Bytes} {st : List (ℕ × ℕ)} (h : b ∈ t.items vrs) :
      append ⟨o, (k + 2, p) :: st⟩ b false = .ok ⟨o ++ encodeLeaf b, (k + 1, p) :: st⟩ :=
    (appends_append (length_item_lt h hlen)).step
  have hopen : appendList {} 9 = .ok ⟨[], [(9, 0)]⟩ := rfl
  simp only [streamRLP, if_neg htype, hvrs, if_true, true_or, hopen, liftM_ok, ok_bind]
  rw [hint (by simp [items]), liftM_ok, ok_bind, hint (by simp [items]), liftM_ok, ok_bind,
    hint (by simp [items]), liftM_ok, ok_bind, hstr (by simp [items]), liftM_ok, ok_bind,
    hint (by simp [items]), liftM_ok, ok_bind, hstr (by simp [items]), liftM_ok, ok_bind,
    hint (by simp [items]), liftM_ok, ok_bind, hint (by simp [items]), liftM_ok, ok_bind]
  have hlast := appends_appendInt
    (length_item_lt (x := digits vrs.s.toNat) (by simp [items]) hlen)
  rw [encoding, encode_list, encodeItems_leaves] at hlen ⊢
  rw [length_append] at hlen
  exact congrArg liftM (hlast.last ((Nat.le_add_left _ _).trans_lt hlen))

section Signature

theorem toInt32_of_range {x : ℤ} (h : -2 ^ 31 ≤ x) (h' : x < 2 ^ 31) : toInt32 x = x := by
  rw [toInt32, Int.bmod_def]
  split_ifs <;> omega

theorem toUInt32_toInt32 (x : ℤ) : toUInt32 (toInt32 x) = toUInt32 x := by
  rw [toUInt32, toUInt32, toInt32, Int.bmod_def]
  split_ifs <;> omega

theorem toUInt32_natCast {n : ℕ} (h : n < 2 ^ 32) : toUInt32 n = n := by
  unfold toUInt32
  omega

def OnChain (chainId : ℤ) : Prop := chainId = -4 ∨ 1 ≤ chainId ∧ chainId ≤ 2 ^ 30 - 19

theorem isZeroSignature_eq_false (h : vrs.isValid = true) : isZeroSignature vrs.r vrs.s = false := by
  simp only [SignatureStruct.isValid, decide_eq_true_eq] at h
  simp only [isZeroSignature, decide_eq_false_iff_not, not_and]
  intro h0
  simp [h0] at h

theorem wireV_of_valid (hvrs : t.vrs = some vrs) (hvalid : vrs.isValid = true)
    (hchain : OnChain t.chainId) : (t.wireV vrs : ℤ) = vrs.v.toNat + (t.chainId * 2 + 35) := by
  have hv : vrs.v.toNat ≤ 1 := by
    simp only [SignatureStruct.isValid, decide_eq_true_eq] at hvalid
    exact hvalid.1
  have hz : t.hasZeroSignature = false := by
    rw [hasZeroSignature, hvrs]
    exact isZeroSignature_eq_false hvalid
  simp only [wireV, hz, Bool.false_eq_true, if_false]
  rw [toInt32_of_range (by rcases hchain with h | h <;> omega)
    (by rcases hchain with h | h <;> omega), toUInt32]
  rcases hchain with h | h <;> omega

theorem acceptSignature_wireV (hvrs : t.vrs = some vrs) (hvalid : vrs.isValid = true)
    (hchain : OnChain t.chainId) (t₀ : TransactionBase) :
    t₀.acceptSignature check (toInt32 (t.wireV vrs)) vrs.r vrs.s =
    .ok { t₀ with chainId := t.chainId, vrs := some vrs } := by
  have hv : vrs.v.toNat ≤ 1 := by
    simp only [SignatureStruct.isValid, decide_eq_true_eq] at hvalid
    exact hvalid.1
  have hw := wireV_of_valid hvrs hvalid hchain
  have hrange : toInt32 (t.wireV vrs) = vrs.v.toNat + (t.chainId * 2 + 35) := by
    rw [hw, toInt32_of_range (by rcases hchain with h | h <;> omega) (by rcases hchain with h | h <;> omega)]
  -- the chain is found again from either form of `v`
  have hchainId : chainIdOf (toInt32 (t.wireV vrs)) = .ok t.chainId := by
    rw [chainIdOf, hrange]
    rcases hchain with h | h
    · rw [if_neg (by omega), if_pos (by omega), h]
    · have hdiv : Int.tdiv (vrs.v.toNat + (t.chainId * 2 + 35) - 35) 2 = t.chainId := by
        rw [Int.tdiv_eq_ediv_of_nonneg (by omega)]
        omega
      rw [if_pos (by omega), hdiv]
  have hbyte : UInt8.ofInt (toInt32 (t.wireV vrs) - (t.chainId * 2 + 35)) = vrs.v := by
    have hmod : ((vrs.v.toNat : ℤ) % 2 ^ 8).toNat = vrs.v.toNat := by omega
    rw [hrange, Int.add_sub_cancel, UInt8.ofInt, hmod]
    exact UInt8.ofNat_toNat
  simp only [acceptSignature, isZeroSignature_eq_false hvalid, hchainId, hbyte, ok_bind]
  simp [hvalid]
  rfl

theorem acceptSignature_exact {n : ℕ} {r s : U256} {t' : TransactionBase} (hn : n < 2 ^ 32)
    (h : t.acceptSignature check (toInt32 n) r s = .ok t') :
    ∃ v chainId, t' = { t with chainId, vrs := some ⟨r, s, v⟩ } ∧ t'.wireV ⟨r, s, v⟩ = n := by
  have hread : toUInt32 (toInt32 n) = n := by rw [toUInt32_toInt32, toUInt32_natCast hn]
  rw [acceptSignature] at h
  by_cases hz : isZeroSignature r s = true
  · rw [if_pos hz] at h
    cases h
    refine ⟨0, toInt32 n, rfl, ?_⟩
    simp only [wireV, hasZeroSignature, Option.any_some, hz, if_true]
    exact hread
  rw [if_neg hz] at h
  obtain ⟨chainId, hc, h⟩ := bind_eq_ok.mp h
  dsimp only at h
  split_ifs at h with hbad
  · cases h
  cases h
  refine ⟨_, chainId, rfl, ?_⟩
  have hlt : toInt32 n < 2 ^ 31 := by
    rw [toInt32, Int.bmod_def]
    split_ifs <;> omega
  -- either form of `v` leaves a recovery id of 0 or 1 beside the chain
  have hid : 0 ≤ toInt32 n - (chainId * 2 + 35) ∧ toInt32 n - (chainId * 2 + 35) ≤ 1 ∧
    -2 ^ 31 ≤ chainId * 2 + 35 := by
    rw [chainIdOf] at hc
    split_ifs at hc with h36 h27
    · have hc := Except.ok.inj hc
      rw [Int.tdiv_eq_ediv_of_nonneg (by omega)] at hc
      omega
    · have hc := Except.ok.inj hc
      omega
  have hbyte : ((UInt8.ofInt (toInt32 n - (chainId * 2 + 35))).toNat : ℤ) =
    toInt32 n - (chainId * 2 + 35) := by
    rw [UInt8.ofInt, RLP.toNat_ofNat_of_lt (by omega)]
    omega
  have hz' : isZeroSignature r s = false := Bool.eq_false_iff.mpr hz
  simp only [wireV, hasZeroSignature, Option.any_some, hz', Bool.false_eq_true, if_false]
  have hoff : toInt32 (chainId * 2 + 35) = chainId * 2 + 35 := toInt32_of_range (by omega) (by omega)
  rw [hoff, hbyte, Int.sub_add_cancel, hread]

end Signature

section Read
variable {xs : List Bytes} {r : RLP} {P : TransactionBase → Prop}

/-- A fourth item of bytes `x` is read as this type and recipient. -/
def Recipient (x : Bytes) (type : Kind) (a : Address) : Prop :=
  type = .ContractCreation ∧ a = 0 ∧ (x = [0x80] ∨ x = [0xc0]) ∨ type = .MessageCall ∧
    x = encodeLeaf (addressBytes a)

theorem addressBytes_ofNat {b : Bytes} (h : b.length = 20) :
    addressBytes (BitVec.ofNat 160 (BigEndian.value b)) = b :=
  fixed_toNat_ofNat rfl h

theorem ofNat_addressBytes (a : Address) :
    BitVec.ofNat 160 (BigEndian.value (addressBytes a)) = a := by
  have hlt : a.toNat < 256 ^ 20 := a.isLt.trans_eq (by norm_num)
  show BitVec.ofNat 160 (BigEndian.value (BigEndian.fixed 20 a.toNat)) = a
  rw [value_fixed hlt]
  rw [BitVec.ofNat_toNat, BitVec.setWidth_eq]

theorem encodeLeaf_addressBytes_ne (a : Address) :
    encodeLeaf (addressBytes a) ≠ [0x80] ∧ encodeLeaf (addressBytes a) ≠ [0xc0] := by
  have hlen : 20 ≤ (encodeLeaf (addressBytes a)).length := by
    have := length_addressBytes a
    rw [encodeLeaf]
    split_ifs
    · omega
    · rw [length_append]
      omega
  constructor
  · intro h
    rw [h] at hlen
    simp at hlen
  · intro h
    rw [h] at hlen
    simp at hlen

theorem yields_readRecipient (h : Lists r xs) : ∃ r', Lists r' xs ∧ ∀ P, Yields readRecipient r P ↔
    ∃ k, Recipient (xs.getD 3 []) k.1 k.2 ∧ P k r' := by
  have hmax : 3 < sizeMax := by decide
  obtain ⟨y₁, r₁, f₁, h₁, e₁⟩ := yields_readItem Error.rlp 3 (fun x => pure x.isEmpty) h hmax
  obtain ⟨y₂, r₂, f₂, h₂, e₂⟩ := yields_readItem Error.rlp 3 (fun x => pure x.isEmpty) h₁ hmax
  obtain ⟨r₃, h₃, e₃⟩ := yields_readHash Error.rlp 3 20 h₂ hmax (by norm_num)
  by_cases hempty : xs.getD 3 [] = [0x80] ∨ xs.getD 3 [] = [0xc0]
  · have hy₁ : y₁.isEmpty = true := f₁.isEmpty_iff.mpr hempty
    have hy₂ : y₂.isEmpty = true := f₂.isEmpty_iff.mpr hempty
    refine ⟨r₂, h₂, fun P => ?_⟩
    simp only [readRecipient, yields_bind, e₁, e₂, hy₁, hy₂, yields_ite, yields_pure]
    constructor
    · rintro ⟨_, ⟨⟩, _, ⟨⟩, hP⟩
      exact ⟨_, .inl ⟨rfl, rfl, hempty⟩, hP⟩
    · rintro ⟨⟨type, a⟩, ⟨rfl, rfl, -⟩ | ⟨rfl, hx⟩, hP⟩
      · exact ⟨true, rfl, true, rfl, hP⟩
      · rw [hx] at hempty
        have hne := encodeLeaf_addressBytes_ne a
        exact absurd hempty (not_or.mpr hne)
  · have hy₁ : y₁.isEmpty = false := Bool.eq_false_iff.mpr fun hy => hempty (f₁.isEmpty_iff.mp hy)
    have hy₂ : y₂.isEmpty = false := Bool.eq_false_iff.mpr fun hy => hempty (f₂.isEmpty_iff.mp hy)
    refine ⟨r₃, h₃, fun P => ?_⟩
    simp only [readRecipient, yields_bind, e₁, e₂, e₃, hy₁, hy₂, yields_ite, yields_pure]
    constructor
    · rintro ⟨_, ⟨⟩, _, ⟨⟩, b, ⟨hb, hx⟩, hP⟩
      exact ⟨_, .inr ⟨rfl, by rw [addressBytes_ofNat hb, hx]⟩, hP⟩
    · rintro ⟨⟨type, a⟩, ⟨rfl, rfl, hx⟩ | ⟨rfl, hx⟩, hP⟩
      · exact absurd hx hempty
      · refine ⟨false, rfl, false, rfl, addressBytes a, ⟨length_addressBytes a, hx⟩, ?_⟩
        rw [ofNat_addressBytes]
        exact hP

theorem yields_readData (h : Lists r xs) : ∃ r', Lists r' xs ∧ ∀ P, Yields readData r P ↔
    ∃ b, (b.length < 256 ^ 8 ∧ xs.getD 5 [] = encodeLeaf b) ∧ P b r' := by
  have hmax : 5 < sizeMax := by decide
  obtain ⟨y₁, r₁, f₁, h₁, e₁⟩ := yields_readItem Error.rlp 5 (fun x => pure x.isData) h hmax
  obtain ⟨y₂, r₂, f₂, h₂, e₂⟩ := yields_readItem Error.rlp 5 (fun x => x.toBytes .laissezFaire) h₁ hmax
  refine ⟨r₂, h₂, fun P => ?_⟩
  simp only [readData, yields_bind, e₁, e₂, yields_ite, yields_throw]
  constructor
  · rintro ⟨_, ⟨⟩, hP⟩
    by_cases hd : y₁.isData = true
    · rw [hd] at hP
      obtain ⟨b, hb, hP⟩ := hP
      obtain ⟨c, hx, hlt, hc⟩ := f₁.exists_holds hd
      have hold : Holds y₂ c := (f₂.holds_iff hlt).mpr hx
      obtain rfl : b = c := Except.ok.inj (hb.symm.trans ((f₂.toBytes_eq_ok .laissezFaire).mpr hold).2)
      exact ⟨b, ⟨hlt, hx⟩, hP⟩
    · rw [Bool.eq_false_iff.mpr hd] at hP
      exact False.elim hP
  · rintro ⟨b, ⟨hlt, hx⟩, hP⟩
    have hold₁ : Holds y₁ b := (f₁.holds_iff hlt).mpr hx
    have hold₂ : Holds y₂ b := (f₂.holds_iff hlt).mpr hx
    refine ⟨true, congrArg Except.ok hold₁.isData, ?_⟩
    exact ⟨b, ((f₂.toBytes_eq_ok .laissezFaire).mpr hold₂).2, hP⟩

/-- The items `xs` give the fields of `t` and the numbers of a signature. -/
structure Parsed (xs : List Bytes) (t : TransactionBase) (v : ℕ) (sigR sigS : U256) : Prop where
  nonce : xs.getD 0 [] = encodeLeaf (digits t.nonce.toNat)
  gasPrice : xs.getD 1 [] = encodeLeaf (digits t.gasPrice.toNat)
  gas : xs.getD 2 [] = encodeLeaf (digits t.gas.toNat)
  recipient : Recipient (xs.getD 3 []) t.type t.receiveAddress
  value : xs.getD 4 [] = encodeLeaf (digits t.value.toNat)
  data : t.data.length < 256 ^ 8 ∧ xs.getD 5 [] = encodeLeaf t.data
  v : v < 256 ^ 4 ∧ xs.getD 6 [] = encodeLeaf (digits v)
  r : xs.getD 7 [] = encodeLeaf (digits sigR.toNat)
  s : xs.getD 8 [] = encodeLeaf (digits sigS.toNat)
  unsigned : t.vrs = none ∧ t.chainId = -4 ∧ t.hashWith = 0 ∧ t.cachedSender = 0

theorem yields_read (hl : r.isList = true) (h : Lists r xs) :
    Yields (read H C check r) r (fun t _ => P t) ↔ xs.length ≤ 9 ∧
    ∃ t v sigR sigS, Parsed xs t v sigR sigS ∧
      ∃ t₁, t.acceptSignature check (toInt32 v) sigR sigS = .ok t₁ ∧
      ∃ t₂, t₁.acceptSender H C check = .ok t₂ ∧ P t₂ := by
  have hmax : 9 < sizeMax := by decide
  obtain ⟨r₁, h₁, e₀⟩ := yields_readInt Error.rlp 0 32 h (by omega) (by norm_num)
  obtain ⟨r₂, h₂, e₁⟩ := yields_readInt Error.rlp 1 32 h₁ (by omega) (by norm_num)
  obtain ⟨r₃, h₃, e₂⟩ := yields_readInt Error.rlp 2 32 h₂ (by omega) (by norm_num)
  obtain ⟨r₄, h₄, e₃⟩ := yields_readRecipient h₃
  obtain ⟨r₅, h₅, e₄⟩ := yields_readInt Error.rlp 4 32 h₄ (by omega) (by norm_num)
  obtain ⟨r₆, h₆, e₅⟩ := yields_readData h₅
  obtain ⟨r₇, h₇, e₆⟩ := yields_readInt Error.rlp 6 4 h₆ (by omega) (by norm_num)
  obtain ⟨r₈, h₈, e₇⟩ := yields_readInt Error.rlp 7 32 h₇ (by omega) (by norm_num)
  obtain ⟨r₉, h₉, e₈⟩ := yields_readInt Error.rlp 8 32 h₈ (by omega) (by norm_num)
  have hcount : r.itemCount.mapError Error.rlp = .ok xs.length := mapError_eq_ok.mpr (h.itemCount hl)
  simp only [read, hl, hcount, Bool.not_true, Bool.false_eq_true, if_false, yields_bind, e₀, e₁, e₂,
    e₃, e₄, e₅, e₆, e₇, e₈, yields_ite, yields_pure, yields_lift, yields_throw]
  have hnat {n : ℕ} (hn : n < 256 ^ 32) : (BitVec.ofNat 256 n).toNat = n := by
    rw [BitVec.toNat_ofNat, Nat.mod_eq_of_lt (hn.trans_eq (by norm_num))]
  have hword (x : U256) : x.toNat < 256 ^ 32 := x.isLt.trans_eq (by norm_num)
  have hself (x : U256) : BitVec.ofNat 256 x.toNat = x := by
    rw [BitVec.ofNat_toNat, BitVec.setWidth_eq]
  constructor
  · rintro ⟨nonce, ⟨hn, x₀⟩, gasPrice, ⟨hp, x₁⟩, gas, ⟨hg, x₂⟩, k, x₃, value, ⟨hv, x₄⟩, data, x₅, v,
      x₆, sigR, ⟨hr, x₇⟩, sigS, ⟨hs, x₈⟩, t₁, ht₁, t₂, ht₂, _, ⟨⟩, hP⟩
    split_ifs at hP with hle
    refine ⟨Nat.not_lt.mp hle, _, v, _, _, ?_, t₁, ht₁, t₂, ht₂, hP⟩
    constructor
    · rw [hnat hn, x₀]
    · rw [hnat hp, x₁]
    · rw [hnat hg, x₂]
    · exact x₃
    · rw [hnat hv, x₄]
    · exact x₅
    · exact x₆
    · rw [hnat hr, x₇]
    · rw [hnat hs, x₈]
    · exact ⟨rfl, rfl, rfl, rfl⟩
  · rintro ⟨hle, t, v, sigR, sigS, hparsed, t₁, ht₁, t₂, ht₂, hP⟩
    obtain ⟨hvrs, hchain, hhash, hsender⟩ := hparsed.unsigned
    refine ⟨_, ⟨hword _, hparsed.nonce⟩, _, ⟨hword _, hparsed.gasPrice⟩, _, ⟨hword _, hparsed.gas⟩,
      (t.type, t.receiveAddress), hparsed.recipient, _, ⟨hword _, hparsed.value⟩, _, hparsed.data,
      v, hparsed.v,
      _, ⟨hword _, hparsed.r⟩, _, ⟨hword _, hparsed.s⟩, t₁, ?_, t₂, ht₂, xs.length, rfl, ?_⟩
    · rw [← ht₁]
      simp only [hself]
      congr 1
      cases t
      simp only at hvrs hchain hhash hsender
      subst hvrs hchain hhash hsender
      rfl
    · rw [if_neg (Nat.not_lt.mpr hle)]
      exact hP

theorem itemCount_of_read {Q : TransactionBase → RLP → Prop} (h : Yields (read H C check r) r Q) :
    r.isList = true ∧ ∃ n, r.itemCount = .ok n := by
  constructor
  · by_contra hl
    rw [Bool.not_eq_true] at hl
    simp only [read, hl, Bool.not_false, if_true, yields_bind, yields_throw] at h
  · cases hc : r.itemCount with
    | ok n => exact ⟨n, rfl⟩
    | error e =>
      have hcount : r.itemCount.mapError Error.rlp = .error (.rlp e) := by rw [hc]; rfl
      simp only [read, hcount, yields_bind, yields_lift, reduceCtorEq, false_and, exists_false,
        yields_false, yields_ite, ite_self] at h

theorem ofRLP_eq_ok {bs : Bytes} {t' : TransactionBase} (h : ofRLP H C bs check = .ok t') :
    ∃ r xs, RLP.parse (.ofBytes bs) .veryStrict = .ok r ∧ Lists r xs ∧
    bs = header 0xc0 xs.flatten.length ++ xs.flatten ∧
      bs.length < 256 ^ 8 ∧ xs.length ≤ 9 ∧ ∃ t v sigR sigS, Parsed xs t v sigR sigS ∧
        ∃ t₁, t.acceptSignature check (toInt32 v) sigR sigS = .ok t₁ ∧
        t₁.acceptSender H C check = .ok t' := by
  rw [ofRLP] at h
  obtain ⟨r, hr, h⟩ := bind_eq_ok.mp h
  have hr : RLP.parse (.ofBytes bs) .veryStrict = .ok r := mapError_eq_ok.mp hr
  obtain ⟨⟨t, r'⟩, hrun, h⟩ := bind_eq_ok.mp h
  cases h
  have hy : Yields (read H C check r) r (fun u _ => u = t) := ⟨t, r', hrun, rfl⟩
  obtain ⟨hl, n, hn⟩ := itemCount_of_read hy
  obtain ⟨xs, -, hlists, hbs, hlen⟩ := lists_of_itemCount hr hl hn
  obtain ⟨hle, t₀, v, sigR, sigS, hparsed, t₁, ht₁, t₂, ht₂, rfl⟩ := (yields_read hl hlists).mp hy
  exact ⟨r, xs, hr, hlists, hbs, hlen, hle, t₀, v, sigR, sigS, hparsed, t₁, ht₁, ht₂⟩

end Read

section Reencode
variable {xs : List Bytes} {t' : TransactionBase}

theorem acceptSender_eq {t₁ : TransactionBase} (h : t₁.acceptSender H C check = .ok t') :
    ∃ a, t' = { t₁ with cachedSender := a } := by
  rw [acceptSender] at h
  split_ifs at h
  · obtain ⟨⟨a, u⟩, hs, h⟩ := bind_eq_ok.mp h
    cases h
    refine ⟨a, ?_⟩
    suffices hu : ∃ b, u = { t₁ with cachedSender := b } by
      obtain ⟨b, rfl⟩ := hu
      rfl
    rw [sender] at hs
    split_ifs at hs with hcached hzero
    · cases hs
      exact ⟨_, rfl⟩
    · cases hs
      exact ⟨_, rfl⟩
    · cases hvrs : t₁.vrs with
      | none =>
        rw [hvrs] at hs
        cases hs
      | some vrs =>
        rw [hvrs] at hs
        obtain ⟨r, -, hs⟩ := bind_eq_ok.mp hs
        dsimp only at hs
        split_ifs at hs
        · cases hs
        · cases hs
          exact ⟨_, rfl⟩
  · cases h
    exact ⟨_, rfl⟩

theorem eq_map_getD {α : Type} (l : List α) (d : α) :
    l = (List.range l.length).map fun i => l.getD i d := by
  apply ext_getElem
  · simp
  · intro i h _
    simp [getD_eq_getElem?_getD, List.getElem?_eq_getElem h]

theorem Recipient.written_iff {x : Bytes} {type : Kind} {a : Address} (h : Recipient x type a) :
    encodeLeaf (if type = .MessageCall then addressBytes a else []) = x ↔ x ≠ [0xc0] := by
  obtain ⟨rfl, -, rfl | rfl⟩ | ⟨rfl, rfl⟩ := h
  · exact iff_of_true rfl (by decide)
  · rw [if_neg (by decide)]
    exact iff_of_false (by decide) fun h => h rfl
  · exact iff_of_true rfl (encodeLeaf_addressBytes_ne a).2

theorem Recipient.length_written {x : Bytes} {type : Kind} {a : Address} (h : Recipient x type a) :
    (encodeLeaf (if type = .MessageCall then addressBytes a else [])).length = x.length := by
  obtain ⟨rfl, -, rfl | rfl⟩ | ⟨rfl, rfl⟩ := h
  · rfl
  · rfl
  · rfl

theorem Recipient.isList_iff {x : Bytes} {type : Kind} {a : Address} {item : RLP}
    (h : Recipient x type a) (hf : Fills item x) : item.isList = true ↔ x = [0xc0] := by
  obtain ⟨rfl, -, rfl | rfl⟩ | ⟨rfl, rfl⟩ := h
  · have hold : Holds item [] := (hf.holds_iff (by norm_num)).mpr rfl
    rw [isList_of_isData hold.isData]
    decide
  · have h0 : item.isNull = false := Bool.eq_false_iff.mpr fun hn => absurd (hf.isNull_iff.mp hn) (by decide)
    rw [isList_eq h0, hf.first_eq (by decide)]
    decide
  · have hold : Holds item (addressBytes a) := (hf.holds_iff (by rw [length_addressBytes]; norm_num)).mpr rfl
    rw [isList_of_isData hold.isData]
    exact iff_of_false (by decide) (encodeLeaf_addressBytes_ne a).2

/-- What was read is written as the bytes that were read, but for an empty list as the recipient. -/
theorem encoding_iff {v : ℕ} {sigR sigS : U256} {b : UInt8} {c : ℤ} {a : Address}
    (hparsed : Parsed xs t v sigR sigS)
    (hle : xs.length ≤ 9) (ht' : t' = { t with chainId := c, vrs := some ⟨sigR, sigS, b⟩, cachedSender := a })
    (hv : t'.wireV ⟨sigR, sigS, b⟩ = v) :
    (t'.encoding ⟨sigR, sigS, b⟩).length = (header 0xc0 xs.flatten.length ++ xs.flatten).length ∧
      (t'.encoding ⟨sigR, sigS, b⟩ = header 0xc0 xs.flatten.length ++ xs.flatten ↔
      xs.getD 3 [] ≠ [0xc0]) := by
  have hnine : xs.length = 9 := by
    by_contra hne
    have hnil : xs.getD 8 [] = [] := by
      rw [getD_eq_getElem?_getD, List.getElem?_eq_none (by omega)]
      rfl
    exact encodeLeaf_ne_nil _ (hparsed.s.symm.trans hnil)
  have hxs : xs = [xs.getD 0 [], xs.getD 1 [], xs.getD 2 [], xs.getD 3 [], xs.getD 4 [],
      xs.getD 5 [], xs.getD 6 [], xs.getD 7 [], xs.getD 8 []] := by
    conv_lhs => rw [eq_map_getD xs [], hnine]
    rfl
  have hitems : ((t'.items ⟨sigR, sigS, b⟩).map encodeLeaf) = [xs.getD 0 [], xs.getD 1 [], xs.getD 2 [],
      encodeLeaf (if t.type = .MessageCall then addressBytes t.receiveAddress else []),
      xs.getD 4 [], xs.getD 5 [],
      xs.getD 6 [], xs.getD 7 [], xs.getD 8 []] := by
    rw [hparsed.nonce, hparsed.gasPrice, hparsed.gas, hparsed.value, hparsed.data.2, hparsed.v.2,
      hparsed.r, hparsed.s, items, hv, ht']
    rfl
  have hflat : encodeItems ((t'.items ⟨sigR, sigS, b⟩).map .leaf) =
    ((t'.items ⟨sigR, sigS, b⟩).map encodeLeaf).flatten := by
    rewrite [encodeItems_eq_flatten, map_map]
    exact congrArg List.flatten (map_congr_left fun x _ => encode_leaf x)
  rw [← hparsed.recipient.written_iff, encoding, encode_list, hflat, hitems]
  constructor
  · have hlen := hparsed.recipient.length_written
    have hsum : xs.flatten.length = [xs.getD 0 [], xs.getD 1 [], xs.getD 2 [],
        encodeLeaf (if t.type = .MessageCall then addressBytes t.receiveAddress else []),
        xs.getD 4 [], xs.getD 5 [],
        xs.getD 6 [], xs.getD 7 [], xs.getD 8 []].flatten.length := by
      rw [congrArg List.flatten hxs]
      simp [hlen]
    rw [length_append, length_append, hsum]
  · constructor
    · intro h
      have hpayload := header_append_inj h
      rw [congrArg List.flatten hxs] at hpayload
      simpa using hpayload
    · intro h
      rw [h, ← hxs]

theorem rlp_eq (htype : t.type ≠ .NullTransaction) (hvrs : t.vrs = some vrs)
    (hlen : (t.encoding vrs).length < 256 ^ 8) : t.rlp .WithSignature = .ok (t.encoding vrs) := by
  rw [rlp, streamRLP_eq htype hvrs hlen]
  rfl

theorem map_sha3 {sig : IncludeSignature} (h : sig = .WithoutSignature ∨ t.hashWith = 0) :
    (t.sha3 H sig).map Prod.fst =
      (t.streamRLP sig (t.chainId > 0 ∧ sig = .WithoutSignature) {} >>= fun s => liftM s.out).map H.hash := by
  have hmemo : ¬ (sig = .WithSignature ∧ t.hashWith ≠ 0) := by
    rintro ⟨rfl, hne⟩
    rcases h with h | h
    · cases h
    · exact hne h
  simp only [sha3, if_neg hmemo]
  cases t.streamRLP sig (t.chainId > 0 ∧ sig = .WithoutSignature) {} with
  | error e => rfl
  | ok s =>
    simp only [ok_bind]
    generalize s.out = out
    cases out <;> rfl

theorem sha3_withSignature (h : t.hashWith = 0) :
    (t.sha3 H .WithSignature).map Prod.fst = (t.rlp .WithSignature).map H.hash := by
  have hflag : decide (t.chainId > 0 ∧ IncludeSignature.WithSignature = .WithoutSignature) =
    false := by simp
  rw [map_sha3 (.inr h), hflag]
  rfl

def recipientIsList (bs : Bytes) : Bool :=
  ((RLP.parse (.ofBytes bs) .veryStrict).bind fun r => (r.index 3).1).toOption.any fun x => x.isList

/-- A transaction accepted with every check is written as the bytes that it was read from, and so
its hash is theirs, exactly if the recipient is not given as an empty list. -/
theorem rlp_ofRLP {bs : Bytes} (h : ofRLP H C bs .Everything = .ok t) :
    (t.rlp .WithSignature = .ok bs ∧ (t.sha3 H .WithSignature).map Prod.fst = .ok (H.hash bs)) ↔
      recipientIsList bs = false := by
  obtain ⟨r, xs, hr, hlists, hbs, hlen, hle, t₀, v, sigR, sigS, hparsed, t₁, ht₁, ht⟩ := ofRLP_eq_ok h
  obtain ⟨b, c, ht₁', hv⟩ := acceptSignature_exact (hparsed.v.1.trans_eq (by norm_num)) ht₁
  obtain ⟨a, ha⟩ := acceptSender_eq ht
  have ht' : t = { t₀ with chainId := c, vrs := some ⟨sigR, sigS, b⟩, cachedSender := a } := by
    rw [ha, ht₁']
  have hv' : t.wireV ⟨sigR, sigS, b⟩ = v := by
    rw [ha, ← hv]
    rfl
  obtain ⟨hsize, hiff⟩ := encoding_iff hparsed hle ht' hv'
  rw [← hbs] at hsize hiff
  obtain ⟨x, hx, hfills, -⟩ := hlists.index (by decide : 3 < sizeMax)
  have hlist : recipientIsList bs = x.isList := by
    rw [recipientIsList, hr]
    show ((r.index 3).1).toOption.any _ = _
    rw [hx]
    rfl
  have htype : t.type ≠ .NullTransaction := by
    rw [ht']
    obtain ⟨hk, -⟩ | ⟨hk, -⟩ := hparsed.recipient <;> simp [hk]
  have hvrs : t.vrs = some ⟨sigR, sigS, b⟩ := by rw [ht']
  have hhash : t.hashWith = 0 := by
    rw [ht']
    exact hparsed.unsigned.2.2.1
  rw [sha3_withSignature hhash, rlp_eq htype hvrs (hsize.trans_lt hlen), hlist, Bool.eq_false_iff,
    Ne, hparsed.recipient.isList_iff hfills, ← Ne, ← hiff]
  constructor
  · rintro ⟨h, -⟩
    exact Except.ok.inj h
  · intro h
    rw [h]
    exact ⟨rfl, rfl⟩

def exampleCrypto : Crypto := ⟨fun _ _ => ⟨1, 1, 0⟩, fun _ _ => 1⟩

/-- The creation without gas, value and signature that both encodings below are read as. -/
def exampleCreation : TransactionBase :=
  { type := .ContractCreation, vrs := some ⟨0, 0, 0⟩, chainId := 0, cachedSender := maxAddress }

theorem rlp_ofRLP_creation :
    exampleCreation.rlp .WithSignature =
    .ok [0xc9, 0x80, 0x80, 0x80, 0x80, 0x80, 0x80, 0x80, 0x80, 0x80] ∧
      (exampleCreation.sha3 State.lengthHasher .WithSignature).map Prod.fst =
        .ok (State.lengthHasher.hash [0xc9, 0x80, 0x80, 0x80, 0x80, 0x80, 0x80, 0x80, 0x80, 0x80]) :=
  (rlp_ofRLP (C := exampleCrypto) (by decide +kernel)).mpr (by decide +kernel)

theorem rlp_ofRLP_list :
    ofRLP State.lengthHasher exampleCrypto
    [0xc9, 0x80, 0x80, 0x80, 0xc0, 0x80, 0x80, 0x80, 0x80, 0x80] .Everything =
        .ok exampleCreation ∧
      exampleCreation.rlp .WithSignature =
      .ok [0xc9, 0x80, 0x80, 0x80, 0x80, 0x80, 0x80, 0x80, 0x80, 0x80] := by
  decide +kernel

end Reencode

end TransactionBase
end Vapory
