import Vapory.Block.HeaderData
import Vapory.Chain.BloomIndex
import Vapory.Chain.Canonical
import Vapory.Transaction.RoundTrip

/-! The search for the canonical blocks whose blooms contain a given one. -/
namespace Vapory
open Function List LevelIndex BigEndian

namespace BlockChain
variable {H : Hasher} {c c' c₁ c₂ : BlockChain} {b : LogBloom} {earliest latest : ℕ}

structure Reread (c c' : BlockChain) : Prop where
  eq : c' = { c with blocksBlooms := c'.blocksBlooms }
  bloomsOf : c'.bloomsOf = c.bloomsOf

theorem Reread.trans (h : Reread c c₁) (h' : Reread c₁ c₂) : Reread c c₂ where
  eq := by
    have heq := h'.eq
    rw [h.eq] at heq
    exact heq
  bloomsOf := h'.bloomsOf.trans h.bloomsOf

theorem Reread.bloomAt (h : Reread c c') : c'.bloomAt = c.bloomAt := by
  funext level item
  unfold BlockChain.bloomAt
  rw [h.bloomsOf]

/-- At most the chunk that is asked for comes into the cache. -/
theorem queryBlocksBlooms_spec (c : BlockChain) (level index : ℕ) :
    Post (queryBlocksBlooms level index) c fun blooms c' => blooms = c.bloomsOf level index ∧
    Reread c c' ∧
      ∀ chunk ≠ (level, index), c'.blocksBlooms chunk = c.blocksBlooms chunk := by
  unfold queryBlocksBlooms queryExtras bloomsOf
  simp only [post_bind, post_get]
  cases hcache : c.blocksBlooms (level, index) with
  | some blooms => exact ⟨rfl, ⟨rfl, rfl⟩, fun _ _ => rfl⟩
  | none =>
    cases hdb : c.blocksBloomsDB (level, index) with
    | none => exact ⟨rfl, ⟨rfl, rfl⟩, fun _ _ => rfl⟩
    | some blooms =>
      simp only [post_bind, post_set, post_pure]
      refine ⟨rfl, ⟨rfl, ?_⟩, fun chunk hchunk => update_of_ne hchunk ..⟩
      funext l i
      unfold BlockChain.bloomsOf
      by_cases hchunk : (l, i) = (level, index)
      · rw [hchunk]
        simp [hcache, hdb]
      · simp [update_of_ne hchunk]

theorem upow_eq {level : ℕ} (hlevel : level ≤ 2) : upow 16 level = 16 ^ level := by
  interval_cases level <;> rfl

def foundOn (c : BlockChain) (b : LogBloom) (earliest latest level index : ℕ) : List ℕ :=
  let obegin := firstOffset 16 earliest level index
  (List.range' obegin (endOffset 16 latest level index - obegin)).filter fun o =>
    bloomContains (c.bloomsOf level index o) b

theorem map_foundOn (level index : ℕ) :
    (c.foundOn b earliest latest level index).map (fun o => o + index * 16) =
    hits 16 c.bloomAt (bloomContains · b) earliest latest level index := by
  unfold foundOn hits
  dsimp only
  rw [filter_map]
  congr 1
  apply filter_congr
  intro o ho
  have hend : endOffset 16 latest level index ≤ 16 := by
    unfold endOffset
    split_ifs <;> omega
  have hlt : o < 16 := by
    have hmem := mem_range'_1.mp ho
    omega
  have hindex : (o + index * 16) / 16 = index := by omega
  have hoffset : (o + index * 16) % 16 = o := by omega
  rw [Function.comp_apply, bloomAt, hindex, hoffset]

theorem withBlockBloomOn_spec {level : ℕ} (hlevel : level < 2) (index : ℕ) (c : BlockChain) :
    Post (withBlockBloomOn b earliest latest level index) c fun r c' =>
      r = search 16 c.bloomAt (bloomContains · b) earliest latest level index ∧ Reread c c' := by
  induction level generalizing index c with
  | zero =>
    unfold withBlockBloomOn
    rw [upow_eq (by omega), upow_eq (by omega), post_bind]
    apply (queryBlocksBlooms_spec c 0 index).mono
    intro blooms c' hquery
    obtain ⟨rfl, hread, -⟩ := hquery
    exact ⟨map_foundOn 0 index, hread⟩
  | succ level ih =>
    unfold withBlockBloomOn
    rw [upow_eq (by omega), upow_eq (by omega), post_bind]
    apply (queryBlocksBlooms_spec c (level + 1) index).mono
    intro blooms c₁ hquery
    obtain ⟨rfl, hread, -⟩ := hquery
    change Post (do return (← (c.foundOn b earliest latest (level + 1) index).mapM _).flatten) c₁ _
    rw [post_bind]
    have hstep : ∀ o ∈ c.foundOn b earliest latest (level + 1) index, ∀ c₁, Reread c c₁ →
        Post (withBlockBloomOn b earliest latest level (o + index * 16)) c₁ fun r c₂ =>
          r = search 16 c.bloomAt (bloomContains · b) earliest latest level
            (o + index * 16) ∧ Reread c c₂ := by
      intro o _ c₁ h₁
      apply (ih (by omega) (o + index * 16) c₁).mono
      intro r c₂ hr
      rw [h₁.bloomAt] at hr
      exact ⟨hr.1, h₁.trans hr.2⟩
    apply (post_mapM hstep hread).mono
    intro r c₂ hr
    obtain ⟨rfl, hread₂⟩ := hr
    refine (post_pure _).mpr ⟨?_, hread₂⟩
    rw [search, ← map_foundOn, flatMap_def, map_map]
    rfl

def searched (c : BlockChain) (b : LogBloom) (earliest latest : ℕ) : List ℕ :=
  (List.range' (earliest / 256) (ceilDiv latest 256 + 1 - earliest / 256)).flatMap
    (search 16 c.bloomAt (bloomContains · b) earliest latest 1)

theorem withBlockBloom_spec (c : BlockChain) (b : LogBloom) (earliest latest : ℕ) :
    Post (withBlockBloom b earliest latest) c fun r c' => r = c.searched b earliest latest ∧
    Reread c c' := by
  have hstep : ∀ index ∈ List.range' (earliest / 256) (ceilDiv latest 256 + 1 - earliest / 256),
      ∀ c₁, Reread c c₁ → Post (withBlockBloomOn b earliest latest 1 index) c₁ fun r c₂ =>
        r = search 16 c.bloomAt (bloomContains · b) earliest latest 1 index ∧ Reread c c₂ := by
    intro index _ c₁ h₁
    apply (withBlockBloomOn_spec (by omega) index c₁).mono
    intro r c₂ hr
    rw [h₁.bloomAt] at hr
    exact ⟨hr.1, h₁.trans hr.2⟩
  unfold withBlockBloom searched
  rw [post_bind]
  apply (post_mapM hstep ⟨rfl, rfl⟩).mono
  intro r c₂ hr
  rw [post_pure, hr.1, flatMap_def]
  exact ⟨rfl, hr.2⟩

/-- The search goes through the entries of the top level, as far as the last one is computed
right. -/
theorem mem_withBlockBloom {n : ℕ} (c : BlockChain) :
    n ∈ ((withBlockBloom b earliest latest).run c).1 ↔ earliest / 256 ≤ n / 256 ∧
    n / 256 ≤ ceilDiv latest 256 ∧
      n ∈ search 16 c.bloomAt (bloomContains · b) earliest latest 1 (n / 256) := by
  have hresult : ((withBlockBloom b earliest latest).run c).1 = _ :=
    (withBlockBloom_spec c b earliest latest).1
  unfold searched at hresult
  rw [hresult, mem_flatMap]
  constructor
  · intro hmem
    obtain ⟨index, hindex, hn⟩ := hmem
    have hdiv : n / 256 = index := div_of_mem_search (by omega) hn
    have hrange := mem_range'_1.mp hindex
    rw [hdiv]
    exact ⟨hrange.1, by omega, hn⟩
  · intro hmem
    obtain ⟨hbegin, hend, hn⟩ := hmem
    exact ⟨n / 256, mem_range'_1.mpr ⟨hbegin, by omega⟩, hn⟩

namespace Bloomed

theorem logBloom_le (h : Bloomed H c) {n : ℕ} (hn : n ≤ c.lastBlockNumber) {level : ℕ}
    (hlevel : level < 2) : bloomContains (c.bloomAt level (n / 16 ^ level))
    (c.canonicalBlock n).info.logBloom = true := by
  rcases Nat.eq_zero_or_pos n with rfl | hpos
  · have hblock : c.canonicalBlock 0 = c.genesisBlock := by
      unfold canonicalBlock blockOf block
      rw [h.headed.ancestorOf_zero, if_pos rfl]
      rfl
    rw [hblock, h.genesis]
    exact bloomContains_iff.mpr fun i hi => by simp at hi
  · apply bloomContains_trans (h.covered n hpos hn level hlevel)
    exact bloomContains_or_left (bloomContains_refl _) _

/-- The search misses no canonical block of the range, as long as the end of the range is not within
the last 256 numbers, where only the first 256 blocks are looked at. -/
theorem mem_withBlockBloom_iff (h : Bloomed H c) (hlatest : latest < 2 ^ 32) {n : ℕ}
    (hbegin : earliest ≤ n) (hend : n ≤ latest) (hn : n ≤ c.lastBlockNumber)
    (hcontains : bloomContains (c.canonicalBlock n).info.logBloom b = true ∨
      0 < n ∧ bloomContains (blockBloom H (c.canonicalBlock n).info) b = true) :
    n ∈ ((withBlockBloom b earliest latest).run c).1 ↔ latest ≤ 2 ^ 32 - 256 ∨ n < 256 := by
  have hsearch : n ∈ search 16 c.bloomAt (bloomContains · b) earliest latest 1
    (n / 256) := by
    apply mem_search (by omega) hbegin hend rfl
    intro level hlevel
    rcases hcontains with hlog | ⟨hpos, hblock⟩
    · exact bloomContains_trans (h.logBloom_le hn (by omega)) hlog
    · exact bloomContains_trans (h.covered n hpos hn level (by omega)) hblock
  have hceil : n / 256 ≤ ceilDiv latest 256 ↔ latest ≤ 2 ^ 32 - 256 ∨ n < 256 := by
    unfold ceilDiv
    omega
  rw [mem_withBlockBloom]
  constructor
  · intro hmem
    exact hceil.mp hmem.2.1
  · intro hsmall
    exact ⟨Nat.div_le_div_right hbegin, hceil.mpr hsmall, hsearch⟩

theorem import_spec (h : Bloomed H c) {block : VerifiedBlock} (hsane : Sane H c block)
    (hsame : Same H c block) (enact : VerifiedBlock → Except EnactError (List TransactionReceipt))
    (utcTime : U256) (mustBeNew : Bool) (meanwhile : List ℕ) :
    Returns (import_ H enact utcTime mustBeNew meanwhile block) c fun _ c' => Bloomed H c' := by
  apply (import_cases h.headed hsane enact utcTime mustBeNew meanwhile).mono
  intro r c' hcases
  rcases hcases with ⟨-, hk⟩ | ⟨route, receipts, -, hfits, -, hinsert⟩
  · exact h.near hk.toNear hk.bloomAt
  · exact h.insert hfits hsame hinsert

theorem reread (h : Bloomed H c) (hr : Reread c c') : Bloomed H c' := by
  have hbacked : c'.Backed := by
    rw [hr.eq]
    exact h.headed.treelike.backed
  exact h.near ⟨by rw [hr.eq], fun _ => by rw [hr.eq]; rfl, hbacked⟩ hr.bloomAt

theorem forget (h : Bloomed H c) (chunk : ℕ × ℕ) :
    Bloomed H { c with blocksBlooms := update c.blocksBlooms chunk none } := by
  have hn : Near c { c with blocksBlooms := update c.blocksBlooms chunk none } :=
    ⟨rfl, fun _ => rfl, h.headed.treelike.backed⟩
  constructor
  · exact h.headed.near hn
  · exact h.genesis
  · intro n hpos hle level hlevel
    rw [hn.canonicalBlock]
    unfold bloomAt bloomsOf
    dsimp only
    by_cases hchunk : (level, n / 16 ^ level / 16) = chunk
    · obtain ⟨blooms, hblooms, hentry⟩ := h.written n hpos hle level hlevel
      rw [← hchunk, update_self, hblooms]
      exact hentry
    · rw [update_of_ne hchunk]
      exact h.covered n hpos hle level hlevel
  · intro n hpos hle
    rw [hn.canonicalBlock]
    exact hn.written (h.written n hpos hle)

end Bloomed

/-- What may happen to the index of blooms: imports, and whatever reads into the caches or drops
from them. -/
inductive BloomStep (H : Hasher) : BlockChain → BlockChain → Prop where
  | import_ {c c' : BlockChain} {r : Except ImportError ImportRoute}
    (enact : VerifiedBlock → Except EnactError (List TransactionReceipt)) (utcTime : U256)
    (mustBeNew : Bool) (meanwhile : List ℕ)
    (b : VerifiedBlock) (hsane : Sane H c b) (hsame : Same H c b)
    (hrun : (BlockChain.import_ H enact utcTime mustBeNew meanwhile b).run c = .ok (r, c')) : BloomStep H c c'
  | numberHash {c : BlockChain} (i : ℕ) : BloomStep H c ((BlockChain.numberHash i).run c).2
  | blocksBlooms {c : BlockChain} (level index : ℕ) :
    BloomStep H c ((queryBlocksBlooms level index).run c).2
  | garbageCollect {c : BlockChain} (chunk : ℕ × ℕ) :
    BloomStep H c { c with blocksBlooms := update c.blocksBlooms chunk none }

theorem Bloomed.step (h : Bloomed H c) (hstep : BloomStep H c c') : Bloomed H c' := by
  cases hstep with
  | import_ enact utcTime mustBeNew meanwhile b hsane hsame hrun =>
    exact (h.import_spec hsane hsame enact utcTime mustBeNew meanwhile).ends _ _ hrun
  | numberHash i =>
    have hframe : ((numberHash i).run c).2 = _ := numberHash_frame i (c := c)
    rw [hframe]
    exact h.near ⟨rfl, fun _ => rfl, h.headed.treelike.backed⟩ rfl
  | blocksBlooms level index => exact h.reread (queryBlocksBlooms_spec c level index).2.1
  | garbageCollect chunk => exact h.forget chunk

theorem bloomed_run {c₀ : BlockChain} (h₀ : Bloomed H c₀)
    (hrun : Relation.ReflTransGen (BloomStep H) c₀ c) : Bloomed H c := by
  induction hrun with
  | refl => exact h₀
  | tail _ hstep ih => exact ih.step hstep

section
variable {genesisBlock : VerifiedBlock} {allowFutureBlocks tieBreakingGas : Bool}

theorem bloomed_opened (hnumber : genesisBlock.info.number = 0) (hhash : genesisBlock.info.hash H ≠ 0)
    (hbloom : genesisBlock.info.logBloom = 0) :
    Bloomed H (opened H genesisBlock allowFutureBlocks tieBreakingGas) := by
  constructor
  · exact (indexed_opened hnumber hhash).headed
  · exact hbloom
  · intro n hpos hle
    exact absurd (hpos.trans_le hle) (lt_irrefl 0)
  · intro n hpos hle
    exact absurd (hpos.trans_le hle) (lt_irrefl 0)

/-- From the genesis block on, whatever is imported and whatever the caches lose: the entries of a
canonical block's number contain its bloom, and it is found. -/
theorem withBlockBloom_canonical (hnumber : genesisBlock.info.number = 0)
    (hhash : genesisBlock.info.hash H ≠ 0) (hbloom : genesisBlock.info.logBloom = 0)
    (hrun : Relation.ReflTransGen (BloomStep H)
      (opened H genesisBlock allowFutureBlocks tieBreakingGas) c) (n : ℕ)
    (hn : n ≤ c.lastBlockNumber) :
    (∀ level < 2, bloomContains (c.bloomAt level (n / 16 ^ level))
      (c.canonicalBlock n).info.logBloom = true) ∧ ∀ (b : LogBloom) (earliest latest : ℕ),
      latest < 2 ^ 32 → earliest ≤ n → n ≤ latest →
        (bloomContains (c.canonicalBlock n).info.logBloom b = true ∨
          0 < n ∧ bloomContains (blockBloom H (c.canonicalBlock n).info) b = true) →
        (n ∈ ((withBlockBloom b earliest latest).run c).1 ↔ latest ≤ 2 ^ 32 - 256 ∨ n < 256) := by
  have h := bloomed_run (bloomed_opened hnumber hhash hbloom) hrun
  constructor
  · intro level hlevel
    exact h.logBloom_le hn hlevel
  · intro b earliest latest hlatest hbegin hend hcontains
    exact h.mem_withBlockBloom_iff hlatest hbegin hend hn hcontains

end

theorem tailHasher_append (pre : Bytes) {b : Bytes} (hb : b.length = 32) :
    tailHasher.hash (pre ++ b) = BitVec.ofNat 256 (value b) := by
  have htail : tailHasher.sha3 (pre ++ b) = b := by
    change (List.replicate 32 0 ++ (pre ++ b)).drop (pre ++ b).length = b
    rw [← append_assoc, drop_append_of_le_length (by simp [hb]), length_append, hb,
      drop_eq_nil_of_le (by simp), nil_append]
  rw [Hasher.hash, htail]

open RLPTree in
theorem exists_rlp_eq {h : BlockHeader} (hseal : h.sealFields = [])
    (hextra : h.extraData.length = 32) : ∃ pre, h.rlp true = pre ++ h.extraData := by
  have hlength {b : Bytes} (hb : b.length ≤ 256) : (encodeLeaf b).length ≤ 265 := by
    have hle := TransactionBase.length_encodeLeaf_le (b := b) (by omega)
    omega
  have hfields : ∀ b ∈ h.fields, b.length ≤ 256 := by
    have hfixed (n v : ℕ) (hn : n ≤ 256) : (fixed n v).length ≤ 256 := by
      rwa [length_fixed]
    have hint (x : U256) : (digits x.toNat).length ≤ 256 :=
      (BlockHeader.length_digits_le x).trans (by omega)
    intro b hb
    simp only [BlockHeader.fields, mem_cons, not_mem_nil, or_false] at hb
    rcases hb with rfl | rfl | rfl | rfl | rfl | rfl | rfl | rfl | rfl | rfl | rfl | rfl | rfl
    · exact hfixed 32 _ (by omega)
    · exact hfixed 32 _ (by omega)
    · exact hfixed 20 _ (by omega)
    · exact hfixed 32 _ (by omega)
    · exact hfixed 32 _ (by omega)
    · exact hfixed 32 _ (by omega)
    · exact hfixed 256 _ (by omega)
    · exact hint _
    · exact hint _
    · exact hint _
    · exact hint _
    · exact hint _
    · omega
  have hflatten (l : List Bytes) (hl : ∀ b ∈ l, b.length ≤ 256) :
    (l.map encodeLeaf).flatten.length ≤ l.length * 265 := by
    induction l with
    | nil => exact Nat.zero_le _
    | cons b l ih =>
      have hb := hlength (hl b mem_cons_self)
      have hrest := ih fun b' hb' => hl b' (mem_cons_of_mem _ hb')
      simp only [map_cons, flatten_cons, length_append, length_cons]
      omega
  have hlen : (h.fields.map encodeLeaf ++ h.sealFields).flatten.length < 256 ^ 8 := by
    rw [hseal, append_nil]
    exact (hflatten _ hfields).trans_lt (by change 13 * 265 < _; norm_num)
  have hout := BlockHeader.streamRLP_out (by omega) hlen
  have hrlp : h.rlp true = ((h.streamRLP true {} >>= RLPStream.out).toOption).getD [] := rfl
  have hlast : encodeLeaf h.extraData = header 0x80 32 ++ h.extraData := by
    rw [encodeLeaf, if_neg (by omega), hextra]
  have hsplit : h.fields = h.fields.dropLast ++ [h.extraData] := rfl
  rw [hrlp, hout, hseal, hsplit]
  simp only [Except.toOption, Option.getD_some, append_nil, map_append, flatten_append, map_cons,
    map_nil, flatten_cons, flatten_nil, hlast]
  rw [← append_assoc, ← append_assoc]
  exact ⟨_, rfl⟩

def exampleChild (n : ℕ) : VerifiedBlock :=
  let b := exampleBlock (BitVec.ofNat 256 n) (BitVec.ofNat 256 (100 + n)) (BitVec.ofNat 256 (99 + n)) 1
  { b with info := { b.info with logBloom := 1 } }

theorem ofNat_ne_zero {k : ℕ} (hpos : 0 < k) (hk : k < 2 ^ 256) : BitVec.ofNat 256 k ≠ 0 := by
  intro hzero
  have htoNat : k % 2 ^ 256 = 0 := congrArg BitVec.toNat hzero
  omega

theorem exampleChild_hash {n : ℕ} (hn : n < 2 ^ 32) :
    (exampleChild n).info.hash tailHasher = BitVec.ofNat 256 (100 + n) ∧
    tailHasher.hash ((exampleChild n).info.rlp true) = BitVec.ofNat 256 (100 + n) := by
  constructor
  · exact if_pos (ofNat_ne_zero (by omega) (by omega))
  · have hextra : (exampleChild n).info.extraData = fixed 32
      (BitVec.ofNat 256 (100 + n)).toNat := rfl
    have hlen : (exampleChild n).info.extraData.length = 32 := by rw [hextra, length_fixed]
    obtain ⟨pre, hpre⟩ := exists_rlp_eq (h := (exampleChild n).info) rfl hlen
    rw [hpre, tailHasher_append pre hlen, hextra, value_fixed (BitVec.isLt _), BitVec.ofNat_toNat]
    rfl

theorem verify_exampleChild {n : ℕ} (hn : n + 1 < 2 ^ 32 - 1) {parent : BlockHeader}
    (hnumber : parent.number = BitVec.ofNat 256 n) (htime : parent.timestamp = BitVec.ofNat 256 n)
    (hmemo : parent.memo = BitVec.ofNat 256 (100 + n)) :
    (exampleChild (n + 1)).info.verify tailHasher .QuickNonce parent none = .ok () := by
  have hsmall : ¬ (exampleChild (n + 1)).info.number.toNat > 2 ^ 32 - 1 := by
    simp only [exampleChild, exampleBlock, BitVec.toNat_ofNat]
    omega
  have hgas : ¬ ((exampleChild (n + 1)).info.gasUsed > (exampleChild (n + 1)).info.gasLimit) := by
    change ¬ ((0 : U256) > 100)
    decide
  have hhash : parent.hash tailHasher = (exampleChild (n + 1)).info.parentHash := by
    have hne : parent.memo ≠ 0 := by
      rw [hmemo]
      exact ofNat_ne_zero (by omega) (by omega)
    rw [BlockHeader.hash, if_pos hne, hmemo]
    change _ = BitVec.ofNat 256 (99 + (n + 1))
    congr 1
    omega
  have hlater : ¬ (exampleChild (n + 1)).info.timestamp ≤ parent.timestamp := by
    rw [htime, BitVec.le_def]
    simp only [exampleChild, exampleBlock, BitVec.toNat_ofNat]
    omega
  have hnext : (exampleChild (n + 1)).info.number = parent.number + 1 := by
    rw [hnumber]
    exact BitVec.ofNat_add n 1
  unfold BlockHeader.verify
  rw [if_neg hsmall, if_neg fun h => hgas h.2]
  simp only [hhash, hlater, hnext, ne_eq, not_true_eq_false, and_false, if_false]
  split_ifs <;> rfl

structure ExampleChain (n : ℕ) (c : BlockChain) : Prop where
  run : Relation.ReflTransGen (BloomStep tailHasher) exampleGenesis c
  hash : c.lastBlockHash = BitVec.ofNat 256 (100 + n)
  number : c.lastBlockNumber = n
  block : (c.blockOf c.lastBlockHash).info.number = BitVec.ofNat 256 n ∧
    (c.blockOf c.lastBlockHash).info.timestamp = BitVec.ofNat 256 n
  weight : c.weightOf c.lastBlockHash = BitVec.ofNat 256 (1 + n)
  fresh : ∀ hash, (c.block hash).isSome → hash.toNat ≤ 100 + n
  canonical : ∀ m, 0 < m → m ≤ n → c.canonicalBlock m = exampleChild m

theorem exampleChain_zero : ExampleChain 0 exampleGenesis := by
  refine ⟨.refl, by decide, rfl, by decide, by decide, fun hash hsome => ?_, fun m hpos hle =>
    absurd hle (Nat.not_le_of_lt hpos)⟩
  unfold block at hsome
  split_ifs at hsome with hg
  · rw [hg]
    decide
  · cases hsome

namespace ExampleChain
variable {n : ℕ} (h : ExampleChain n c)
include h

theorem bloomed : Bloomed tailHasher c := bloomed_run (bloomed_opened rfl (by decide) rfl) h.run

theorem parentHash_next : (exampleChild (n + 1)).info.parentHash = c.lastBlockHash := by
  rw [h.hash]
  change BitVec.ofNat 256 (99 + (n + 1)) = _
  congr 1
  omega

variable (hn : n + 1 < 2 ^ 32 - 1)
include hn

theorem block_next : c.block ((exampleChild (n + 1)).info.hash tailHasher) = none := by
  by_contra hsome
  have hle := h.fresh _ (Option.isSome_iff_ne_none.mpr hsome)
  rw [(exampleChild_hash (by omega)).1, BitVec.toNat_ofNat] at hle
  omega

theorem sane_next : Sane tailHasher c (exampleChild (n + 1)) := by
  constructor
  · rw [(exampleChild_hash (by omega)).1]
    exact ofNat_ne_zero (by omega) (by omega)
  · rw [h.block_next hn]
    exact fun _ hb' => absurd hb' (Option.not_mem_none _)
  · change (BitVec.ofNat 256 (n + 1)).toNat ≠ _
    rw [BitVec.toNat_ofNat]
    omega
  · rw [h.parentHash_next, h.bloomed.headed.treelike.block_eq h.bloomed.headed.head.1]
    intro parent hmem
    obtain rfl := Option.some.inj hmem
    unfold BlockHeader.isValid
    rw [h.block.2, decide_eq_true_iff]
    intro hlate
    have htoNat := congrArg BitVec.toNat hlate
    rw [BitVec.toNat_ofNat, BitVec.toNat_allOnes] at htoNat
    omega

theorem not_inserted_next : ¬ c.Inserted ((exampleChild (n + 1)).info.hash tailHasher) := by
  have hnone := h.block_next hn
  unfold BlockChain.block at hnone
  intro hi
  rcases hi with hgenesis | ⟨hsome, -⟩
  · rw [if_pos hgenesis] at hnone
    cases hnone
  · split_ifs at hnone with hgenesis
    rw [hnone] at hsome
    cases hsome

theorem extend : ∃ c', ExampleChain (n + 1) c' := by
  have hheaded := h.bloomed.headed
  have hhash : (exampleChild (n + 1)).info.hash tailHasher = BitVec.ofNat 256 (100 + (n + 1)) :=
    (exampleChild_hash (by omega)).1
  have hsane := h.sane_next hn
  have hsame : Same tailHasher c (exampleChild (n + 1)) := by
    unfold Same
    rw [h.block_next hn]
    exact fun _ hb' => absurd hb' (Option.not_mem_none _)
  have hverify : (exampleChild (n + 1)).info.verify tailHasher .QuickNonce
      { (c.blockOf c.lastBlockHash).info with memo := c.lastBlockHash } none = .ok () :=
    verify_exampleChild hn h.block.1 h.block.2 h.hash
  have hheavier : c.weightOf c.lastBlockHash <
    c.weightOf c.lastBlockHash + (exampleChild (n + 1)).info.difficulty := by
    change _ < _ + 1
    rw [h.weight, BitVec.lt_def, BitVec.toNat_add, BitVec.toNat_ofNat]
    change _ < (_ + 1) % _
    omega
  have htime : (exampleChild (n + 1)).info.timestamp ≤ BitVec.ofNat 256 (2 ^ 32) := by
    change BitVec.ofNat 256 (n + 1) ≤ _
    rw [BitVec.le_def, BitVec.toNat_ofNat, BitVec.toNat_ofNat]
    omega
  obtain ⟨route, c', hrun, hfits, hinsert, hwins⟩ :=
    import_child hheaded hsane (h.not_inserted_next hn) h.parentHash_next
    (fun _ => .ok []) rfl htime hverify hheavier true []
  have hlast : c'.lastBlockHash = (exampleChild (n + 1)).info.hash tailHasher := by
    rw [hinsert.lastBlockHash, if_pos hwins]
  have hgrown := hinsert.grown hfits
  have hheaded' := hinsert.headed hfits hheaded
  have hnumberOf : c'.numberOf c'.lastBlockHash = n + 1 := by
    rw [hlast, hgrown.number]
    change (BitVec.ofNat 256 (n + 1)).toNat = _
    rw [BitVec.toNat_ofNat]
    omega
  have hblock : c'.blockOf c'.lastBlockHash = exampleChild (n + 1) := by
    rw [hlast, hinsert.blockOf_new hfits]
  refine ⟨c', h.run.tail (.import_ _ _ _ _ _ hsane hsame hrun), hlast.trans hhash, ?_, ?_, ?_, ?_, ?_⟩
  · rw [← hheaded'.head.2, hnumberOf]
  · rw [hblock]
    exact ⟨rfl, rfl⟩
  · rcases hinsert.weightOf_eq.2 with hweight | ⟨hstored, -⟩
    · rw [hlast, hweight, h.weight]
      change _ + BitVec.ofNat 256 1 = _
      rw [← BitVec.ofNat_add]
      congr 1
    · have hnone := h.block_next hn
      rw [hheaded.treelike.block_eq hstored] at hnone
      cases hnone
  · intro x hx
    rw [hinsert.block_eq] at hx
    by_cases hxb : x = (exampleChild (n + 1)).info.hash tailHasher
    · rw [hxb, hhash, BitVec.toNat_ofNat]
      exact Nat.mod_le _ _
    · rw [update_of_ne hxb] at hx
      exact (h.fresh x hx).trans (by omega)
  · intro m hpos hm
    rcases Nat.lt_or_ge n m with hnew | hold
    · obtain rfl : m = n + 1 := by omega
      have hself : c'.ancestorOf c'.lastBlockHash (n + 1) = c'.lastBlockHash := by
        rw [← hnumberOf]
        exact ancestor_self _
      unfold canonicalBlock
      rw [hself, hblock]
    · have hnumber : c.numberOf (exampleChild (n + 1)).info.parentHash = n := by
        rw [h.parentHash_next, hheaded.head.2, h.number]
      have hstored : c.Stored (c.ancestorOf c.lastBlockHash m) :=
        hheaded.treelike.rooted.mem_ancestor hheaded.head.1 m
      rw [← h.canonical m hpos hold]
      unfold canonicalBlock
      rw [hlast, hgrown.ancestorOf_of_le hheaded.treelike.rooted hheaded'.treelike.rooted hfits
        (by omega), h.parentHash_next, hinsert.blockOf_old hfits hheaded hsame hstored]

end ExampleChain

theorem exists_exampleChain (n : ℕ) (hn : n < 2 ^ 32 - 1) : ∃ c, ExampleChain n c := by
  induction n with
  | zero => exact ⟨_, exampleChain_zero⟩
  | succ n ih =>
    obtain ⟨c, h⟩ := ih (by omega)
    exact h.extend hn

/-- With the last number as the end of the range, the number of the last chunk overflows, and of a
chain of 256 blocks the last one is not found, though it has the bloom. -/
theorem withBlockBloom_overflow :
    ∃ c, Relation.ReflTransGen (BloomStep tailHasher) exampleGenesis c ∧ c.lastBlockNumber = 256 ∧
    (∀ n, 0 < n → n ≤ 256 → c.canonicalBlock n = exampleChild n ∧
      (exampleChild n).info.hash tailHasher = tailHasher.hash ((exampleChild n).info.rlp true)) ∧
    bloomContains (c.canonicalBlock 256).info.logBloom 1 = true ∧
    256 ∉ ((withBlockBloom 1 0 (2 ^ 32 - 1)).run c).1 := by
  obtain ⟨c, h⟩ := exists_exampleChain 256 (by norm_num)
  have hlog : bloomContains (c.canonicalBlock 256).info.logBloom 1 = true := by
    rw [h.canonical 256 (by omega) le_rfl]
    exact bloomContains_refl 1
  refine ⟨c, h.run, h.number, fun n hpos hle => ⟨h.canonical n hpos hle, ?_⟩, hlog, ?_⟩
  · obtain ⟨hmemo, hdata⟩ := exampleChild_hash (n := n) (by omega)
    rw [hmemo, hdata]
  · rw [h.bloomed.mem_withBlockBloom_iff (by norm_num) (by omega) (by norm_num) h.number.ge (.inl hlog)]
    norm_num

theorem withBlockBloom_canonical_example :
    ∃ c : BlockChain, c.lastBlockNumber = 300 ∧ 300 ∈ ((withBlockBloom 1 17 1000).run c).1 := by
  obtain ⟨c, h⟩ := exists_exampleChain 300 (by norm_num)
  have hsearch := (withBlockBloom_canonical rfl (by decide) rfl h.run 300 h.number.ge).2 1 17 1000
    (by norm_num) (by omega) (by omega)
  rw [h.canonical 300 (by omega) le_rfl] at hsearch
  exact ⟨c, h.number, (hsearch (.inl (bloomContains_refl 1))).mpr (.inl (by norm_num))⟩

end BlockChain
end Vapory
