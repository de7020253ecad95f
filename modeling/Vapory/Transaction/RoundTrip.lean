import Vapory.Transaction.Codec

/-! A signed transaction that is written and read again. -/
namespace Vapory
open RLP RLPTree List Vapory.Except BigEndian

namespace TransactionBase
variable {H : Hasher} {C : Crypto} {t : TransactionBase} {vrs : SignatureStruct}
  {check : CheckTransaction}

/-- What the constructor makes of the bytes of `t`: the address of a creation is left out, and
nothing is kept that was computed for `t`. -/
def bare (t : TransactionBase) : TransactionBase :=
  { t with
    receiveAddress := if t.type = .MessageCall then t.receiveAddress else 0
    hashWith := 0
    cachedSender := 0 }

/-- `u` and `t` are written alike, with one signature. -/
structure Agrees (u t : TransactionBase) : Prop where
  stream : ∀ sig forEip155hash s, u.streamRLP sig forEip155hash s = t.streamRLP sig forEip155hash s
  chainId : u.chainId = t.chainId
  vrs : u.vrs = t.vrs

theorem Agrees.trans {u w : TransactionBase} (h : Agrees u w) (h' : Agrees w t) : Agrees u t :=
  ⟨fun sig f s => (h.stream sig f s).trans (h'.stream sig f s), h.chainId.trans h'.chainId,
    h.vrs.trans h'.vrs⟩

theorem agrees_cachedSender (t : TransactionBase) (a : Address) :
    Agrees { t with cachedSender := a } t :=
  ⟨fun _ _ _ => rfl, rfl, rfl⟩

theorem agrees_bare (t : TransactionBase) : Agrees t.bare t := by
  refine ⟨fun sig forEip155hash s => ?_, rfl, rfl⟩
  by_cases hk : t.type = .MessageCall
  · have hbare : t.bare = { t with hashWith := 0, cachedSender := 0 } := by simp only [bare, if_pos hk]
    rw [hbare]
    rfl
  · simp only [streamRLP, bare, if_neg hk]
    rfl

theorem Agrees.sha3 {u : TransactionBase} (h : Agrees u t) :
    (u.sha3 H .WithoutSignature).map Prod.fst = (t.sha3 H .WithoutSignature).map Prod.fst := by
  rw [map_sha3 (.inl rfl), map_sha3 (.inl rfl), h.stream, h.chainId]

theorem length_encodeLeaf_le {b : Bytes} (h : b.length < 256 ^ 8) :
    (encodeLeaf b).length ≤ b.length + 9 := by
  have hk : (digits b.length).length ≤ 8 := (digits_length_le_iff _ _).mpr h
  rw [encodeLeaf]
  split_ifs
  · omega
  · rw [length_append, length_header]
    split_ifs <;> omega

theorem length_encoding_lt (vrs : SignatureStruct) (h : t.data.length < 2 ^ 63) :
    (t.encoding vrs).length < encodedSizeLimit := by
  have hu (y : U256) : (encodeLeaf (digits y.toNat)).length ≤ 41 := by
    have hle := length_digits_toNat y (by norm_num : 256 ≤ 8 * 32)
    have := length_encodeLeaf_le (b := digits y.toNat) (by omega)
    omega
  have hv : (encodeLeaf (digits (t.wireV vrs))).length ≤ 41 := by
    have hle := (digits_length_le_iff _ _).mpr (t.wireV_lt vrs)
    have := length_encodeLeaf_le (b := digits (t.wireV vrs)) (by omega)
    omega
  have hto : (encodeLeaf (if t.type = .MessageCall then addressBytes t.receiveAddress
    else [])).length ≤ 41 := by
    have hle : (if t.type = .MessageCall then addressBytes t.receiveAddress else []).length ≤ 20 := by
      split_ifs
      · exact (length_addressBytes _).le
      · exact Nat.zero_le _
    have := length_encodeLeaf_le
      (b := if t.type = .MessageCall then addressBytes t.receiveAddress else []) (by omega)
    omega
  have hdata := length_encodeLeaf_le (b := t.data) (by omega)
  have hpayload : (encodeItems ((t.items vrs).map .leaf)).length ≤ 9 * 41 + t.data.length := by
    have hnonce := hu t.nonce
    have hgasPrice := hu t.gasPrice
    have hgas := hu t.gas
    have hvalue := hu t.value
    have hr := hu vrs.r
    have hs := hu vrs.s
    simp only [items, map_cons, map_nil, encodeItems_cons, encodeItems_nil, encode_leaf,
      length_append, length_nil]
    omega
  have hk : (digits (encodeItems ((t.items vrs).map .leaf)).length).length ≤ 8 :=
    (digits_length_le_iff _ _).mpr (by omega)
  have hlim : encodedSizeLimit = 2 ^ 64 - 256 := rfl
  rw [encoding, encode_list, length_append, length_header, hlim]
  split_ifs <;> omega

def recovered (H : Hasher) (C : Crypto) (t : TransactionBase) : Except Error Address :=
  (({ t with cachedSender := 0 } : TransactionBase).sender H C).map Prod.fst

theorem map_sender (hcached : t.cachedSender = 0) (hvrs : t.vrs = some vrs)
    (hz : isZeroSignature vrs.r vrs.s = false) :
    (t.sender H C).map Prod.fst = (t.sha3 H .WithoutSignature).map Prod.fst >>= fun h =>
      if C.recover vrs h = 0 then .error .InvalidSignature
      else .ok (right160 (H.hash (fixed 64 (C.recover vrs h).toNat))) := by
  have hzero : t.hasZeroSignature = false := by
    rw [hasZeroSignature, hvrs]
    exact hz
  simp only [sender, hcached, hzero, hvrs]
  cases t.sha3 H .WithoutSignature with
  | error e => rfl
  | ok r =>
    show _ = if C.recover vrs r.1 = 0 then _ else _
    by_cases hp : C.recover vrs r.1 = 0
    · rw [if_pos hp]
      simp only [ok_bind, if_pos hp]
      rfl
    · rw [if_neg hp]
      simp only [ok_bind, if_neg hp]
      rfl

theorem Agrees.sender {u : TransactionBase} (h : Agrees u t) (hu : u.cachedSender = 0)
    (hvrs : t.vrs = some vrs) (hz : isZeroSignature vrs.r vrs.s = false) :
    (u.sender H C).map Prod.fst = recovered H C t := by
  have ht := agrees_cachedSender t 0
  rw [recovered, map_sender hu (h.vrs.trans hvrs) hz, map_sender rfl (ht.vrs.trans hvrs) hz, h.sha3,
    ht.sha3]

theorem parsed_items (htype : t.type ≠ .NullTransaction) (hdata : t.data.length < 2 ^ 63) :
    Parsed ((t.items vrs).map encodeLeaf) { t.bare with vrs := none, chainId := -4 }
    (t.wireV vrs) vrs.r vrs.s := by
  refine ⟨rfl, rfl, rfl, ?_, rfl, ⟨by show t.data.length < _; omega, rfl⟩, ⟨t.wireV_lt vrs, rfl⟩,
    rfl, rfl, rfl, rfl, rfl, rfl⟩
  show Recipient (encodeLeaf (if t.type = .MessageCall then addressBytes t.receiveAddress else []))
    t.type (if t.type = .MessageCall then t.receiveAddress else 0)
  cases hk : t.type with
  | NullTransaction => exact absurd hk htype
  | ContractCreation => exact .inl ⟨rfl, rfl, .inl rfl⟩
  | MessageCall => exact .inr ⟨rfl, rfl⟩

/-- What is written is accepted, if the sender is, and nothing is lost. -/
theorem ofRLP_encoding {t' : TransactionBase} (htype : t.type ≠ .NullTransaction)
    (hdata : t.data.length < 2 ^ 63) (hvrs : t.vrs = some vrs) (hvalid : vrs.isValid = true)
    (hchain : OnChain t.chainId) (hsender : t.bare.acceptSender H C check = .ok t') :
    ofRLP H C (t.encoding vrs) check = .ok t' := by
  obtain ⟨r, hr, hl, hlists⟩ := lists_encode (length_encoding_lt vrs hdata)
  have hmap : ((t.items vrs).map RLPTree.leaf).map encode = (t.items vrs).map encodeLeaf := by
    rewrite [map_map]
    exact map_congr_left fun x _ => encode_leaf x
  rw [hmap] at hlists
  have hbare : ({ t.bare with chainId := t.chainId, vrs := some vrs } : TransactionBase) = t.bare := by
    rw [← hvrs]
    rfl
  have hsig : acceptSignature check { t.bare with vrs := none, chainId := -4 }
      (toInt32 (t.wireV vrs)) vrs.r vrs.s = .ok t.bare :=
        (acceptSignature_wireV hvrs hvalid hchain _).trans (congrArg Except.ok hbare)
  have hy : Yields (read H C check r) r fun u _ => u = t' := by
    rw [yields_read hl hlists]
    exact ⟨le_rfl, _, _, _, _, parsed_items htype hdata, t.bare, hsig, t', hsender, rfl⟩
  obtain ⟨u, r', hrun, rfl⟩ := hy
  rw [ofRLP]
  apply bind_eq_ok.mpr
  refine ⟨r, mapError_eq_ok.mpr hr, ?_⟩
  exact bind_eq_ok.mpr ⟨_, hrun, rfl⟩

theorem sender_of_ofRLP {bs : Bytes} (h : ofRLP H C bs .Everything = .ok t) :
    ∃ r, t.sender H C = .ok r := by
  obtain ⟨-, -, -, -, -, -, -, -, -, -, -, -, t₁, -, ht⟩ := ofRLP_eq_ok h
  obtain ⟨a, rfl⟩ := acceptSender_eq ht
  by_cases ha : a = 0
  · rw [acceptSender, if_pos rfl] at ht
    obtain ⟨⟨b, u⟩, hs, ht⟩ := bind_eq_ok.mp ht
    obtain rfl : b = a := congrArg cachedSender (Except.ok.inj ht)
    have hmap : (t₁.sender H C).map Prod.fst = .ok b := by rw [hs]; rfl
    have hcached : t₁.cachedSender = 0 := by
      by_contra hne
      rw [sender, if_pos hne] at hs
      exact hne ((congrArg Prod.fst (Except.ok.inj hs)).trans ha)
    have hzero : t₁.hasZeroSignature = false := by
      rw [Bool.eq_false_iff]
      intro hz
      rw [sender, if_neg (not_not.mpr hcached), if_pos hz] at hs
      have hmax : maxAddress = b := congrArg Prod.fst (Except.ok.inj hs)
      rw [ha] at hmax
      exact absurd hmax (by decide)
    obtain hvrs | ⟨vrs, hvrs⟩ := Option.eq_none_or_eq_some t₁.vrs
    · simp only [sender, hcached, hzero, hvrs] at hs
      cases hs
    · have hz : isZeroSignature vrs.r vrs.s = false := by
        rw [hasZeroSignature, hvrs] at hzero
        exact hzero
      have hsame := (agrees_cachedSender t₁ b).sender (H := H) (C := C) ha hvrs hz
      have hown := (agrees_cachedSender t₁ t₁.cachedSender).sender (H := H) (C := C) hcached hvrs hz
      have heq : (({ t₁ with cachedSender := b } : TransactionBase).sender H C).map Prod.fst = .ok b :=
        hsame.trans (hown.symm.trans hmap)
      cases hr : ({ t₁ with cachedSender := b } : TransactionBase).sender H C with
      | ok r => exact ⟨r, rfl⟩
      | error e =>
        rw [hr] at heq
        cases heq
  · exact ⟨_, by rw [sender, if_pos ha]; rfl⟩

theorem acceptSender_bare (hcheck : check = .Everything → ∃ a, recovered H C t = .ok a)
    (hvrs : t.vrs = some vrs) (hz : isZeroSignature vrs.r vrs.s = false) :
    ∃ a, t.bare.acceptSender H C check = .ok { t.bare with cachedSender := a } ∧
      (({ t.bare with cachedSender := a } : TransactionBase).sender H C).map Prod.fst = recovered H C t := by
  have hagrees (a : Address) : Agrees { t.bare with cachedSender := a } t :=
    (agrees_cachedSender t.bare a).trans (agrees_bare t)
  by_cases he : check = .Everything
  · obtain ⟨a, ha⟩ := hcheck he
    have hmap : (t.bare.sender H C).map Prod.fst = .ok a := ((agrees_bare t).sender rfl hvrs hz).trans ha
    cases hs : t.bare.sender H C with
    | error e =>
      rw [hs] at hmap
      cases hmap
    | ok p =>
      obtain ⟨b, u⟩ := p
      rw [hs] at hmap
      obtain rfl : b = a := Except.ok.inj hmap
      have haccept : t.bare.acceptSender H C check = .ok { u with cachedSender := b } := by
        rw [acceptSender, if_pos he, hs]
        rfl
      obtain ⟨c, hc⟩ := acceptSender_eq haccept
      have hbc : b = c := congrArg cachedSender hc
      refine ⟨b, haccept.trans (by rw [hc, ← hbc]), ?_⟩
      by_cases hb : b = 0
      · exact (hagrees b).sender hb hvrs hz
      · rw [ha]
        simp only [sender, if_pos hb]
        rfl
  · refine ⟨0, ?_, (hagrees 0).sender rfl hvrs hz⟩
    rw [acceptSender, if_neg he]
    rfl

/-- For a transaction with a valid signature, what is written is read as an equal transaction of the
same chain, hashes and sender, exactly if the hash that it keeps, if any, is still that of its
bytes. -/
theorem ofRLP_rlp (htype : t.type ≠ .NullTransaction) (hdata : t.data.length < 2 ^ 63)
    (hvrs : t.vrs = some vrs) (hvalid : vrs.isValid = true) (hchain : OnChain t.chainId)
    (hcheck : check = .Everything → ∃ a, recovered H C t = .ok a) :
    (∃ bs t', t.rlp .WithSignature = .ok bs ∧ ofRLP H C bs check = .ok t' ∧ t'.equal t = true ∧
        t'.nonce = t.nonce ∧ t'.gasPrice = t.gasPrice ∧ t'.gas = t.gas ∧ t'.vrs = t.vrs ∧
        t'.chainId = t.chainId ∧
        (t'.sha3 H .WithSignature).map Prod.fst = (t.sha3 H .WithSignature).map Prod.fst ∧
        (t'.sha3 H .WithoutSignature).map Prod.fst = (t.sha3 H .WithoutSignature).map Prod.fst ∧
        (t'.sender H C).map Prod.fst = recovered H C t) ↔
      t.hashWith = 0 ∨ t.hashWith = H.hash (t.encoding vrs) := by
  have hrlp : t.rlp .WithSignature = .ok (t.encoding vrs) :=
    rlp_eq htype hvrs ((length_encoding_lt vrs hdata).trans (by decide))
  obtain ⟨a, ha, hsender⟩ :=
    acceptSender_bare (H := H) (C := C) hcheck hvrs (isZeroSignature_eq_false hvalid)
  have hread := ofRLP_encoding htype hdata hvrs hvalid hchain ha
  have hagrees : Agrees { t.bare with cachedSender := a } t :=
    (agrees_cachedSender t.bare a).trans (agrees_bare t)
  have hwritten : ({ t.bare with cachedSender := a } : TransactionBase).rlp .WithSignature =
    .ok (t.encoding vrs) := by
    rw [rlp, hagrees.stream]
    exact hrlp
  have hhash : (({ t.bare with cachedSender := a } : TransactionBase).sha3 H .WithSignature).map
      Prod.fst = .ok (H.hash (t.encoding vrs)) := by
    rw [sha3_withSignature rfl, hwritten]
    rfl
  -- the hash of `t` is the one it keeps, or else that of its bytes
  have hown : (t.sha3 H .WithSignature).map Prod.fst = .ok (H.hash (t.encoding vrs)) ↔
      t.hashWith = 0 ∨ t.hashWith = H.hash (t.encoding vrs) := by
    by_cases h0 : t.hashWith = 0
    · rw [sha3_withSignature h0, hrlp]
      exact iff_of_true rfl (.inl h0)
    · simp only [sha3, h0, ne_eq, not_false_eq_true, and_self, if_true, false_or]
      show (Except.ok t.hashWith : Except Error H256) = .ok (H.hash (t.encoding vrs)) ↔ _
      rw [Except.ok.injEq]
  rw [← hown]
  constructor
  · rintro ⟨bs, t', hbs, ht', -, -, -, -, -, -, hsame, -⟩
    obtain rfl : t.encoding vrs = bs := Except.ok.inj (hrlp.symm.trans hbs)
    obtain rfl := Except.ok.inj (hread.symm.trans ht')
    rw [← hsame, hhash]
  · intro h
    refine ⟨_, _, hrlp, hread, ?_, rfl, rfl, rfl, rfl, rfl, hhash.trans h.symm, hagrees.sha3, hsender⟩
    cases hk : t.type with
    | NullTransaction => exact absurd hk htype
    | ContractCreation => simp [equal, bare, hk]
    | MessageCall => simp [equal, bare, hk]

def exampleCall : TransactionBase :=
  { type := .MessageCall, nonce := 256, receiveAddress := 1, vrs := some ⟨1, 1, 0⟩ }

theorem ofRLP_rlp_call :
    ∃ bs t', exampleCall.rlp .WithSignature = .ok bs ∧
    ofRLP State.lengthHasher exampleCrypto bs .Everything = .ok t' ∧
      t'.equal exampleCall = true ∧ t'.nonce = exampleCall.nonce ∧
      t'.gasPrice = exampleCall.gasPrice ∧ t'.gas = exampleCall.gas ∧ t'.vrs = exampleCall.vrs ∧
      t'.chainId = exampleCall.chainId ∧ (t'.sha3 State.lengthHasher .WithSignature).map Prod.fst =
        (exampleCall.sha3 State.lengthHasher .WithSignature).map Prod.fst ∧
      (t'.sha3 State.lengthHasher .WithoutSignature).map Prod.fst =
        (exampleCall.sha3 State.lengthHasher .WithoutSignature).map Prod.fst ∧
      (t'.sender State.lengthHasher exampleCrypto).map Prod.fst =
        recovered State.lengthHasher exampleCrypto exampleCall :=
  (ofRLP_rlp (by decide) (by decide) rfl (by decide) (.inl rfl) fun _ =>
    exists_ok (by decide +kernel)).mpr (.inl rfl)

def resigned : Except Error TransactionBase := do
  let t ← messageCall State.lengthHasher exampleCrypto 0 0 0 1 [] 0 1
  let r ← t.sha3 State.lengthHasher .WithSignature
  (r.2.setNonce 256).sign State.lengthHasher exampleCrypto 1

theorem resigned_keeps_hash :
    ∃ t bs t', resigned = .ok t ∧ t.vrs = some ⟨1, 1, 0⟩ ∧
    SignatureStruct.isValid ⟨1, 1, 0⟩ = true ∧ t.chainId = -4 ∧
      t.rlp .WithSignature = .ok bs ∧ ofRLP State.lengthHasher exampleCrypto bs .Everything = .ok t' ∧
      (t'.sha3 State.lengthHasher .WithSignature).map Prod.fst ≠
        (t.sha3 State.lengthHasher .WithSignature).map Prod.fst := by
  refine ⟨{ exampleCall with hashWith := State.lengthHasher.hash (List.replicate 30 0) },
    exampleCall.encoding ⟨1, 1, 0⟩,
    { exampleCall with cachedSender := right160 (State.lengthHasher.hash (List.replicate 64 0)) }, ?_⟩
  decide +kernel

end TransactionBase
end Vapory
