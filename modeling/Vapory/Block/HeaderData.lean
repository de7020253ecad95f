import Vapory.Block.BlockHeader
import Vapory.State.Rollback
import Vapory.Devcore.RLPReading

/-! The constructor of `BlockHeader` from bytes, and the bytes that it accepts. -/
namespace Vapory
open RLP RLPTree BytesRef List Vapory.Except BigEndian RLPStream

namespace BlockHeader

inductive BlockDataType where
  | HeaderData
  | BlockData
deriving DecidableEq, Repr

inductive DataError where
  | rlp (e : RLPError)
  | InvalidBlockFormat (comment : String) (field : ℕ)
  | invalidHeaderFormat (field : ℕ) (e : RLPError)
  | diverges
deriving DecidableEq, Repr

/-- `populate`; the questions that do not move the cache are asked of `header` as it is. -/
def populate (memo : H256) (header : RLP) : StateT RLP (Except DataError) BlockHeader := do
  let parentHash ← readItem (.invalidHeaderFormat 0) 0 (toHash 32 .veryStrict)
  let sha3Uncles ← readItem (.invalidHeaderFormat 1) 1 (toHash 32 .veryStrict)
  let author ← readItem (.invalidHeaderFormat 2) 2 (toHash 20 .veryStrict)
  let stateRoot ← readItem (.invalidHeaderFormat 3) 3 (toHash 32 .veryStrict)
  let transactionsRoot ← readItem (.invalidHeaderFormat 4) 4 (toHash 32 .veryStrict)
  let receiptsRoot ← readItem (.invalidHeaderFormat 5) 5 (toHash 32 .veryStrict)
  let logBloom ← readItem (.invalidHeaderFormat 6) 6 (toHash 256 .veryStrict)
  let difficulty ← readItem (.invalidHeaderFormat 7) 7 (toInt 32 .strict)
  let number ← readItem (.invalidHeaderFormat 8) 8 (toInt 32 .strict)
  let gasLimit ← readItem (.invalidHeaderFormat 9) 9 (toInt 32 .strict)
  let gasUsed ← readItem (.invalidHeaderFormat 10) 10 (toInt 32 .strict)
  let timestamp ← readItem (.invalidHeaderFormat 11) 11 (toInt 32 .strict)
  let extraData ← readItem (.invalidHeaderFormat 12) 12 fun x => x.toBytes .laissezFaire
  let itemCount ← header.itemCount.mapError (DataError.invalidHeaderFormat 12)
  -- the counter is an `unsigned`
  if 2 ^ 32 ≤ itemCount then throw .diverges
  let sealFields ← (List.range' 13 (itemCount - 13)).mapM fun i =>
    readItem (.invalidHeaderFormat 12) i fun x => pure x.data.toBytes
  return {
    parentHash := BitVec.ofNat 256 (value parentHash)
    sha3Uncles := BitVec.ofNat 256 (value sha3Uncles)
    author := BitVec.ofNat 160 (value author)
    stateRoot := BitVec.ofNat 256 (value stateRoot)
    transactionsRoot := BitVec.ofNat 256 (value transactionsRoot)
    receiptsRoot := BitVec.ofNat 256 (value receiptsRoot)
    logBloom := BitVec.ofNat 2048 (value logBloom)
    difficulty := BitVec.ofNat 256 difficulty
    number := BitVec.ofNat 256 number
    gasLimit := BitVec.ofNat 256 gasLimit
    gasUsed := BitVec.ofNat 256 gasUsed
    timestamp := BitVec.ofNat 256 timestamp
    extraData, sealFields, memo }

/-- `extractHeader`, once the object for the block is made. -/
def extractItems (root : RLP) : StateT RLP (Except DataError) RLP := do
  if !root.isList then throw (.InvalidBlockFormat "Block must be a list" 0)
  let header ← readItem .rlp 0 pure
  if !header.isList then throw (.InvalidBlockFormat "Block header must be a list" 0)
  let transactions ← readItem .rlp 1 pure
  if !transactions.isList then throw (.InvalidBlockFormat "Block transactions must be a list" 1)
  let uncles ← readItem .rlp 2 pure
  if !uncles.isList then throw (.InvalidBlockFormat "Block uncles must be a list" 2)
  return header

def extractHeader (block : Bytes) : Except DataError RLP := do
  let root ← (RLP.parse (.ofBytes block) .veryStrict).mapError .rlp
  let r ← (extractItems root).run root
  return r.1

/-- `BlockHeader(_data, _bdt, _hashWith)`. -/
def ofData (H : Hasher) (data : Bytes) (bdt : BlockDataType) (hashWith : H256) :
    Except DataError BlockHeader := do
  let header ←
    match bdt with
    | .BlockData => extractHeader data
    | .HeaderData => (RLP.parse (.ofBytes data) .veryStrict).mapError .rlp
  let memo := if hashWith ≠ 0 then hashWith else H.hash header.data.toBytes
  let r ← (populate memo header).run header
  return r.1

variable {H : Hasher} {h : BlockHeader} {xs : List Bytes} {r : RLP}

/-- A setter that is given what the header has. -/
inductive Restores (h : BlockHeader) : BlockHeader → Prop where
  | parentHash : Restores h (h.setParentHash h.parentHash)
  | sha3Uncles : Restores h (h.setSha3Uncles h.sha3Uncles)
  | timestamp : Restores h (h.setTimestamp h.timestamp)
  | author : Restores h (h.setAuthor h.author)
  | roots : Restores h (h.setRoots h.transactionsRoot h.receiptsRoot h.sha3Uncles h.stateRoot)
  | gasUsed : Restores h (h.setGasUsed h.gasUsed)
  | number : Restores h (h.setNumber h.number)
  | gasLimit : Restores h (h.setGasLimit h.gasLimit)
  | extraData : Restores h (h.setExtraData h.extraData)
  | logBloom : Restores h (h.setLogBloom h.logBloom)
  | difficulty : Restores h (h.setDifficulty h.difficulty)
  | sealField {offset : ℕ} {field : Bytes} (hf : h.sealFields[offset]? = some field) :
    Restores h (h.setSeal offset field)

theorem setSeal_same {offset : ℕ} {field : Bytes} (hf : h.sealFields[offset]? = some field) :
    h.setSeal offset field = h.noteDirty := by
  obtain ⟨hlt, hget⟩ := List.getElem?_eq_some_iff.mp hf
  have hfields : (h.sealFields ++ List.replicate (offset + 1 - h.sealFields.length) []).set offset
    field = h.sealFields := by
    rw [Nat.sub_eq_zero_of_le hlt, replicate_zero, append_nil, ← hget, set_getElem_self]
  rw [setSeal, hfields]

theorem Restores.eq {h' : BlockHeader} (hr : Restores h h') : h' = h.noteDirty := by
  cases hr with
  | sealField hf => exact setSeal_same hf
  | _ => rfl

theorem Restores.hash_eq {h' : BlockHeader} {bs : Bytes} (hr : Restores h h')
    (hs : h.streamRLP true {} >>= out = .ok bs) : h'.hash H = H.hash bs := by
  have hrlp : h.noteDirty.rlp true = bs := by
    show ((h.streamRLP true {} >>= out).toOption).getD [] = bs
    rw [hs]
    rfl
  rw [hr.eq, hash, hrlp]
  exact if_neg (not_not.mpr rfl)

section Write

def fields (h : BlockHeader) : List Bytes :=
  [Vvm.wordBytes h.parentHash, Vvm.wordBytes h.sha3Uncles, addressBytes h.author,
    Vvm.wordBytes h.stateRoot, Vvm.wordBytes h.transactionsRoot, Vvm.wordBytes h.receiptsRoot,
    bloomBytes h.logBloom,
    digits h.difficulty.toNat, digits h.number.toNat, digits h.gasLimit.toNat,
    digits h.gasUsed.toNat, digits h.timestamp.toNat, h.extraData]

/-- A call of the stream and the item that it appends. -/
abbrev Part := (RLPStream → Except RLPError RLPStream) × Bytes

def stringPart (b : Bytes) : Part := (fun s => s.append b false, encodeLeaf b)
def intPart (x : U256) : Part :=
  (fun s => s.appendInt x.toNat, encodeLeaf (digits x.toNat))
def rawPart (b : Bytes) : Part := (fun s => s.appendRaw b 1, b)

def parts (h : BlockHeader) : List Part :=
  [stringPart (Vvm.wordBytes h.parentHash), stringPart (Vvm.wordBytes h.sha3Uncles),
    stringPart (addressBytes h.author), stringPart (Vvm.wordBytes h.stateRoot),
    stringPart (Vvm.wordBytes h.transactionsRoot),
    stringPart (Vvm.wordBytes h.receiptsRoot), stringPart (bloomBytes h.logBloom),
      intPart h.difficulty, intPart h.number,
    intPart h.gasLimit, intPart h.gasUsed, intPart h.timestamp, stringPart h.extraData] ++
      h.sealFields.map rawPart

theorem flatMap_parts (h : BlockHeader) :
    h.parts.flatMap Prod.snd = (h.fields.map encodeLeaf ++ h.sealFields).flatten := by
  have hseal : (h.sealFields.map rawPart).map Prod.snd = h.sealFields := by
    rw [map_map]
    exact map_id _
  rw [flatMap_def, parts, map_append, hseal]
  rfl

theorem streamRLP_eq_foldlM (h : BlockHeader) :
    h.streamRLP true {} = h.parts.foldlM (fun s a => a.1 s) ⟨[], [(h.parts.length, 0)]⟩ := by
  have hlen : h.parts.length = 13 + h.sealFields.length := by simp [parts]; omega
  have hopen : appendList {} (13 + h.sealFields.length) =
    .ok ⟨[], [(13 + h.sealFields.length, 0)]⟩ := by
    rw [appendList, if_pos (by omega)]
    rfl
  rw [hlen, parts, foldlM_append, streamRLP]
  simp only [if_true, hopen, ok_bind, foldlM_cons, foldlM_nil, foldlM_map, bind_pure, bind_assoc,
    streamRLPFields, stringPart, intPart, rawPart]

theorem length_digits_le (x : U256) : (digits x.toNat).length ≤ 32 := by
  rw [digits_length_le_iff]
  exact x.isLt.trans_eq (by norm_num)

theorem appends_stringPart {b : Bytes} (hb : b.length < 256 ^ 8) :
    RLPStream.Appends (stringPart b).1 (stringPart b).2 := appends_append hb

theorem appends_fixed {n v : ℕ} (hn : n < 256 ^ 8) :
    RLPStream.Appends (stringPart (fixed n v)).1 (stringPart (fixed n v)).2 :=
  appends_stringPart (by rwa [length_fixed])

theorem appends_intPart (x : U256) : RLPStream.Appends (intPart x).1 (intPart x).2 :=
  appends_appendInt ((length_digits_le x).trans_lt (by norm_num))

/-- A property of calls that strings of a fixed size and integers have is had by all of a header, if
the extra data has it. -/
theorem forall_parts {P : Part → Prop}
    (hfixed : ∀ n v, n < 256 ^ 8 → P (stringPart (fixed n v)))
    (hint : ∀ x, P (intPart x)) (hraw : ∀ b, P (rawPart b)) (hextra : P (stringPart h.extraData)) :
    ∀ a ∈ h.parts, P a := by
  intro a ha
  rcases mem_append.mp ha with ha | ha
  · simp only [mem_cons, not_mem_nil, or_false] at ha
    rcases ha with rfl | rfl | rfl | rfl | rfl | rfl | rfl | rfl | rfl | rfl | rfl | rfl | rfl
    · exact hfixed 32 _ (by norm_num)
    · exact hfixed 32 _ (by norm_num)
    · exact hfixed 20 _ (by norm_num)
    · exact hfixed 32 _ (by norm_num)
    · exact hfixed 32 _ (by norm_num)
    · exact hfixed 32 _ (by norm_num)
    · exact hfixed 256 _ (by norm_num)
    · exact hint _
    · exact hint _
    · exact hint _
    · exact hint _
    · exact hint _
    · exact hextra
  · obtain ⟨b, -, rfl⟩ := mem_map.mp ha
    exact hraw b

theorem streamRLP_out (hextra : h.extraData.length < 256 ^ 8)
    (hlen : (h.fields.map encodeLeaf ++ h.sealFields).flatten.length < 256 ^ 8) :
    h.streamRLP true {} >>= out =
      .ok (header 0xc0 (h.fields.map encodeLeaf ++ h.sealFields).flatten.length ++
        (h.fields.map encodeLeaf ++ h.sealFields).flatten) := by
  have hall : ∀ a ∈ h.parts, RLPStream.Appends a.1 a.2 :=
    forall_parts (fun n v hn => appends_fixed hn) appends_intPart (fun b => appends_raw b)
      (appends_stringPart hextra)
  have hne : h.parts ≠ [] := cons_ne_nil _ _
  have hfold := foldlM_appends hall hne [] (by rwa [nil_append, flatMap_parts])
  rw [nil_append, flatMap_parts] at hfold
  rw [streamRLP_eq_foldlM, hfold]
  rfl

theorem headD_streamRLP {bs : Bytes} (hs : h.streamRLP true {} >>= out = .ok bs) :
    0xc0 ≤ (bs.headD 0).toNat := by
  obtain ⟨s, hs, hout⟩ := bind_eq_ok.mp hs
  have hall : ∀ a ∈ h.parts, RLPStream.AppendsItem a.1 :=
    forall_parts (fun n v hn => (appends_fixed hn).appendsItem) (fun x => (appends_intPart x).appendsItem)
      (fun b => (appends_raw b).appendsItem) (appendsItem_append _)
  rw [streamRLP_eq_foldlM] at hs
  have hhead := headD_foldlM hall (cons_ne_nil _ _) hs
  rw [out] at hout
  split_ifs at hout
  rwa [← Except.ok.inj hout]

end Write

section Read

/-- The items `xs` give the fields of `h`. -/
structure Parsed (xs : List Bytes) (h : BlockHeader) : Prop where
  fields : xs.take 12 = (h.fields.take 12).map encodeLeaf
  /-- The extra data is the thirteenth item, or nothing if that is not a string. -/
  extraData : h.extraData.length < 256 ^ 8 ∧ xs.getD 12 [] = encodeLeaf h.extraData ∨
    h.extraData = [] ∧ ∀ b, b.length < 256 ^ 8 → xs.getD 12 [] ≠ encodeLeaf b
  sealFields : h.sealFields = xs.drop 13

theorem take_eq_map {ys : List Bytes}
    (hget : ∀ i < ys.length, xs.getD i [] = encodeLeaf (ys.getD i [])) :
    xs.take ys.length = ys.map encodeLeaf := by
  induction ys generalizing xs with
  | nil => simp
  | cons y ys ih =>
    have h0 := hget 0 (by simp)
    cases xs with
    | nil => exact absurd h0.symm (encodeLeaf_ne_nil y)
    | cons x xs =>
      have hx : x = encodeLeaf y := h0
      rw [length_cons, take_succ_cons, map_cons, hx, ih]
      intro i hi
      exact hget (i + 1) (by simpa using hi)

theorem map_getD_range' (xs : List Bytes) (k : ℕ) :
    (List.range' k (xs.length - k)).map (fun i => xs.getD i []) = xs.drop k := by
  apply ext_getElem
  · simp
  · intro i h₁ h₂
    simp at h₂
    simp [getD_eq_getElem?_getD, List.getElem?_eq_getElem (by omega : k + i < xs.length)]

theorem toBytes_laissezFaire {x : RLP} {y b : Bytes} (hf : Fills x y)
    (hb : x.toBytes .laissezFaire = .ok b) :
    b.length < 256 ^ 8 ∧ y = encodeLeaf b ∨ b = [] ∧ ∀ c, c.length < 256 ^ 8 → y ≠ encodeLeaf c := by
  by_cases hd : x.isData = true
  · left
    obtain ⟨c, hy, hlt, hold⟩ := hf.exists_holds hd
    obtain rfl : c = b := hold.injective ((hf.toBytes_eq_ok .laissezFaire).mp ⟨hd, hb⟩)
    exact ⟨hlt, hy⟩
  · right
    rw [Bool.not_eq_true] at hd
    rw [RLP.toBytes, hd] at hb
    have hb : b = [] := (Except.ok.inj hb).symm
    refine ⟨hb, fun c hc hy => ?_⟩
    rw [hf.isData_iff.mpr ⟨c, hc, hy⟩] at hd
    cases hd

theorem parsed_of_populate {memo : H256} (hl : r.isList = true) (hlists : Lists r xs)
    (hy : Yields (populate memo r) r fun h' _ => h' = h) : Parsed xs h := by
  have hmax : 2 ^ 32 < sizeMax := by decide
  obtain ⟨r₁, h₁, e₀⟩ :=
    yields_readHash (DataError.invalidHeaderFormat 0) 0 32 hlists (by omega) (by norm_num)
  obtain ⟨r₂, h₂, e₁⟩ :=
    yields_readHash (DataError.invalidHeaderFormat 1) 1 32 h₁ (by omega) (by norm_num)
  obtain ⟨r₃, h₃, e₂⟩ :=
    yields_readHash (DataError.invalidHeaderFormat 2) 2 20 h₂ (by omega) (by norm_num)
  obtain ⟨r₄, h₄, e₃⟩ :=
    yields_readHash (DataError.invalidHeaderFormat 3) 3 32 h₃ (by omega) (by norm_num)
  obtain ⟨r₅, h₅, e₄⟩ :=
    yields_readHash (DataError.invalidHeaderFormat 4) 4 32 h₄ (by omega) (by norm_num)
  obtain ⟨r₆, h₆, e₅⟩ :=
    yields_readHash (DataError.invalidHeaderFormat 5) 5 32 h₅ (by omega) (by norm_num)
  obtain ⟨r₇, h₇, e₆⟩ :=
    yields_readHash (DataError.invalidHeaderFormat 6) 6 256 h₆ (by omega) (by norm_num)
  obtain ⟨r₈, h₈, e₇⟩ :=
    yields_readInt (DataError.invalidHeaderFormat 7) 7 32 h₇ (by omega) (by norm_num)
  obtain ⟨r₉, h₉, e₈⟩ :=
    yields_readInt (DataError.invalidHeaderFormat 8) 8 32 h₈ (by omega) (by norm_num)
  obtain ⟨r₁₀, h₁₀, e₉⟩ :=
    yields_readInt (DataError.invalidHeaderFormat 9) 9 32 h₉ (by omega) (by norm_num)
  obtain ⟨r₁₁, h₁₁, e₁₀⟩ :=
    yields_readInt (DataError.invalidHeaderFormat 10) 10 32 h₁₀ (by omega) (by norm_num)
  obtain ⟨r₁₂, h₁₂, e₁₁⟩ :=
    yields_readInt (DataError.invalidHeaderFormat 11) 11 32 h₁₁ (by omega) (by norm_num)
  obtain ⟨x, r₁₃, hf, h₁₃, e₁₂⟩ := yields_readItem (DataError.invalidHeaderFormat 12) 12
    (fun x => x.toBytes .laissezFaire) h₁₂ (by omega)
  have hcount : r.itemCount.mapError (DataError.invalidHeaderFormat 12) = .ok xs.length :=
    mapError_eq_ok.mpr (hlists.itemCount hl)
  simp only [populate, hcount, yields_bind, e₀, e₁, e₂, e₃, e₄, e₅, e₆, e₇, e₈, e₉, e₁₀, e₁₁, e₁₂,
    yields_lift, yields_ite, yields_throw] at hy
  obtain ⟨b₀, ⟨l₀, x₀⟩, b₁, ⟨l₁, x₁⟩, b₂, ⟨l₂, x₂⟩, b₃, ⟨l₃, x₃⟩, b₄, ⟨l₄, x₄⟩, b₅, ⟨l₅, x₅⟩, b₆,
    ⟨l₆, x₆⟩, n₇, ⟨l₇, x₇⟩, n₈, ⟨l₈, x₈⟩, n₉, ⟨l₉, x₉⟩, n₁₀, ⟨l₁₀, x₁₀⟩, n₁₁, ⟨l₁₁, x₁₁⟩, extra,
    hextra, _, ⟨⟩, hy⟩ := hy
  split_ifs at hy with hsmall
  obtain ⟨r₁₄, -, e₁₃⟩ :=
    yields_readRaw (DataError.invalidHeaderFormat 12) h₁₃ (List.range' 13 (xs.length - 13))
    fun i hi => by
      rw [mem_range'_1] at hi
      omega
  rw [e₁₃, map_getD_range', yields_pure] at hy
  have hfixed {w n : ℕ} {b : Bytes} (hw : w = 8 * n) (hb : b.length = n) :
      fixed n (BitVec.ofNat w (value b)).toNat = b := fixed_toNat_ofNat hw hb
  have hnat {n : ℕ} (hn : n < 256 ^ 32) : (BitVec.ofNat 256 n).toNat = n := by
    rw [BitVec.toNat_ofNat, Nat.mod_eq_of_lt (hn.trans_eq (by norm_num))]
  have hword (x : H256) : Vvm.wordBytes x = fixed 32 x.toNat := rfl
  have haddress (x : Address) : addressBytes x = fixed 20 x.toNat := rfl
  have hbloom (x : LogBloom) : bloomBytes x = fixed 256 x.toNat := rfl
  have hfields : h.fields = [b₀, b₁, b₂, b₃, b₄, b₅, b₆, digits n₇, digits n₈,
      digits n₉, digits n₁₀, digits n₁₁, extra] := by
    rw [← hy]
    simp only [fields, hword, haddress, hbloom, hnat l₇, hnat l₈, hnat l₉, hnat l₁₀, hnat l₁₁]
    rw [hfixed rfl l₀, hfixed rfl l₁, hfixed rfl l₂, hfixed rfl l₃, hfixed rfl l₄, hfixed rfl l₅,
      hfixed rfl l₆]
  constructor
  · have hget : ∀ i < 12, xs.getD i [] = encodeLeaf ((h.fields.take 12).getD i []) := by
      rw [hfields]
      intro i hi
      interval_cases i <;> assumption
    have hlen : (h.fields.take 12).length = 12 := rfl
    rw [← hlen] at hget
    exact take_eq_map hget
  · have hdata : h.extraData = extra := by rw [← hy]
    rw [hdata]
    exact toBytes_laissezFaire hf hextra
  · rw [← hy]

theorem itemCount_of_populate {memo : H256} {Q : BlockHeader → RLP → Prop}
    (hy : Yields (populate memo r) r Q) : ∃ n, r.itemCount = .ok n := by
  cases hc : r.itemCount with
  | ok n => exact ⟨n, rfl⟩
  | error e =>
    have hcount : r.itemCount.mapError (DataError.invalidHeaderFormat 12) =
      .error (.invalidHeaderFormat 12 e) := by
      rw [hc]
      rfl
    simp only [populate, hcount, yields_bind, yields_lift, reduceCtorEq, false_and, exists_false,
      yields_false] at hy

theorem Parsed.streamRLP_iff (hp : Parsed xs h) {bs : Bytes}
    (hbs : bs = header 0xc0 xs.flatten.length ++ xs.flatten) (hlen : bs.length < 256 ^ 8) :
    h.streamRLP true {} >>= out = .ok bs ↔ ∃ b, b.length < 256 ^ 8 ∧
    xs.getD 12 [] = encodeLeaf b := by
  have hpos : 0 < (header 0xc0 xs.flatten.length).length := by
    rw [length_header]
    split_ifs <;> omega
  have hsize : xs.flatten.length + 1 < 256 ^ 8 := by
    rw [hbs, length_append] at hlen
    omega
  have hsplit : xs.flatten = (xs.take 12).flatten ++ (xs.drop 12).flatten := by
    rw [← flatten_append, take_append_drop]
  have hpayload : (h.fields.map encodeLeaf ++ h.sealFields).flatten =
      (xs.take 12).flatten ++ (encodeLeaf h.extraData ++ (xs.drop 12).tail.flatten) := by
    rw [hp.sealFields, hp.fields, tail_drop]
    show ((h.fields.take 12 ++ [h.extraData]).map encodeLeaf ++ _).flatten = _
    rw [map_append, append_assoc, flatten_append]
    rfl
  have hget : xs.getD 12 [] = (xs.drop 12).headD [] := by
    rw [getD_eq_getElem?_getD, headD_eq_head?_getD, List.head?_drop]
  have hextra := hp.extraData
  rw [hget] at hextra ⊢
  rw [hsplit] at hsize
  generalize xs.drop 12 = ys at *
  rcases hextra with ⟨hlt, hx⟩ | ⟨hnil, hx⟩
  · have hsame : (h.fields.map encodeLeaf ++ h.sealFields).flatten = xs.flatten := by
      rw [hpayload, hsplit, ← hx]
      cases ys with
      | nil => exact absurd hx.symm (encodeLeaf_ne_nil _)
      | cons y ys => rfl
    rw [streamRLP_out hlt (by rw [hsame, hsplit]; omega), hsame, hbs]
    exact iff_of_true rfl ⟨_, hlt, hx⟩
  · have hempty : encodeLeaf ([] : Bytes) = [0x80] := rfl
    have htail : ys.tail.flatten.length ≤ ys.flatten.length := by
      cases ys with
      | nil => exact le_rfl
      | cons y ys =>
        rw [tail_cons, flatten_cons, length_append]
        omega
    rw [hnil, hempty] at hpayload
    rw [streamRLP_out (by rw [hnil]; norm_num) (by
      rw [hpayload]
      simp only [length_append, length_singleton] at hsize ⊢
      omega), hpayload, hbs, hsplit]
    apply iff_of_false
    · intro heq
      have heq := append_cancel_left (header_append_inj (Except.ok.inj heq))
      cases ys with
      | nil => cases heq
      | cons y ys =>
        have hy : [0x80] = y := append_cancel_right heq
        exact hx [] (by norm_num) hy.symm
    · rintro ⟨b, hb, hy⟩
      exact hx b hb hy

/-- The bytes are a list whose thirteenth item is a string. -/
def extraIsData (bs : Bytes) : Bool :=
  ((RLP.parse (.ofBytes bs) .veryStrict).bind fun r => (r.index 12).1.map fun x =>
    r.isList && x.isData).toOption.getD false

theorem ofData_eq_ok {bs : Bytes} {hashWith : H256} (ho : ofData H bs .HeaderData hashWith = .ok h) :
    ∃ r, RLP.parse (.ofBytes bs) .veryStrict = .ok r ∧ Fills r bs ∧ (r.isList = true →
      ∃ xs, Lists r xs ∧ bs = header 0xc0 xs.flatten.length ++ xs.flatten ∧ bs.length < 256 ^ 8 ∧
      Parsed xs h) := by
  rw [ofData] at ho
  obtain ⟨r, hr, ho⟩ := bind_eq_ok.mp ho
  have hr : RLP.parse (.ofBytes bs) .veryStrict = .ok r := mapError_eq_ok.mp hr
  obtain ⟨⟨h', r'⟩, hrun, ho⟩ := bind_eq_ok.mp ho
  cases ho
  refine ⟨r, hr, fills_of_parse hr, fun hl => ?_⟩
  have hy : Yields (populate (if hashWith ≠ 0 then hashWith else H.hash r.data.toBytes) r) r
    fun u _ => u = h' :=
    ⟨h', r', hrun, rfl⟩
  obtain ⟨n, hn⟩ := itemCount_of_populate hy
  obtain ⟨xs, -, hlists, hbs, hlen⟩ := lists_of_itemCount hr hl hn
  exact ⟨xs, hlists, hbs, hlen, parsed_of_populate hl hlists hy⟩

/-- A header that is accepted is written as the bytes that it was read from, and its hash after a
setter that changes nothing is theirs, exactly if these are a list with a string as the thirteenth
item. -/
theorem ofData_streamRLP {bs : Bytes} {hashWith : H256}
    (ho : ofData H bs .HeaderData hashWith = .ok h) :
    (h.streamRLP true {} >>= out = .ok bs ∧ ∀ h', Restores h h' → h'.hash H = H.hash bs) ↔
      extraIsData bs = true := by
  obtain ⟨r, hr, hfills, hlist⟩ := ofData_eq_ok ho
  have hand : (h.streamRLP true {} >>= out = .ok bs ∧ ∀ h', Restores h h' →
      h'.hash H = H.hash bs) ↔ h.streamRLP true {} >>= out = .ok bs :=
    and_iff_left_of_imp fun hs h' hr => hr.hash_eq hs
  rw [hand, extraIsData, hr]
  show _ ↔ ((r.index 12).1.map fun x => r.isList && x.isData).toOption.getD false = true
  by_cases hl : r.isList = true
  · obtain ⟨xs, hlists, hbs, hlen, hp⟩ := hlist hl
    obtain ⟨x, hx, hf, -⟩ := hlists.index (by decide : 12 < sizeMax)
    rw [hp.streamRLP_iff hbs hlen, ← hf.isData_iff, hx, hl]
    rfl
  · apply iff_of_false
    · -- a string does not start as a list does
      intro hs
      have hge := headD_streamRLP hs
      have hne : bs ≠ [] := by
        rintro rfl
        simp at hge
      have h0 : r.isNull = false := Bool.eq_false_iff.mpr fun hn => hne (hfills.isNull_iff.mp hn)
      rw [isList_eq h0, hfills.first_eq hne] at hl
      simp only [decide_eq_true_eq] at hl
      omega
    · rw [Bool.not_eq_true] at hl
      rw [hl]
      cases (r.index 12).1 <;> simp [Except.map, Except.toOption]

def exampleHeader : BlockHeader where
  parentHash := 0
  sha3Uncles := 0
  author := 0
  stateRoot := 0
  transactionsRoot := 0
  receiptsRoot := 0
  logBloom := 0
  difficulty := 0
  number := 0
  gasLimit := 0
  gasUsed := 0
  timestamp := 0
  extraData := []
  sealFields := []
  memo := 0

def exampleData (start : ℕ) (more : Bytes) : Bytes :=
  let payload := ((exampleHeader.fields.take 12).map encodeLeaf).flatten ++ more
  header start payload.length ++ payload

def exampleRead (data : Bytes) : BlockHeader :=
  { exampleHeader with memo := State.lengthHasher.hash data }

theorem ofData_streamRLP_example :
    (exampleRead (exampleData 0xc0 [0x80])).streamRLP true {} >>= out =
    .ok (exampleData 0xc0 [0x80]) ∧
      ∀ h', Restores (exampleRead (exampleData 0xc0 [0x80])) h' →
        h'.hash State.lengthHasher = State.lengthHasher.hash (exampleData 0xc0 [0x80]) := by
  have ho : ofData State.lengthHasher (exampleData 0xc0 [0x80]) .HeaderData 0 =
    .ok (exampleRead (exampleData 0xc0 [0x80])) := by
    decide +kernel
  exact (ofData_streamRLP ho).mpr (by decide +kernel)

/-- An empty list as the extra data, no extra data, and a string in place of the list are accepted,
and all are written as the header above. -/
theorem ofData_malleable :
    ofData State.lengthHasher (exampleData 0xc0 [0xc0]) .HeaderData 0 =
    .ok (exampleRead (exampleData 0xc0 [0xc0])) ∧
      ofData State.lengthHasher (exampleData 0xc0 []) .HeaderData 0 =
      .ok (exampleRead (exampleData 0xc0 [])) ∧
      ofData State.lengthHasher (exampleData 0x80 [0x80]) .HeaderData 0 =
      .ok (exampleRead (exampleData 0x80 [0x80])) ∧
      (∀ data ∈ [exampleData 0xc0 [0xc0], exampleData 0xc0 [], exampleData 0x80 [0x80]],
        (exampleRead data).streamRLP true {} >>= out = .ok (exampleData 0xc0 [0x80]) ∧
          data ≠ exampleData 0xc0 [0x80]) := by
  decide +kernel

end Read

end BlockHeader
end Vapory
