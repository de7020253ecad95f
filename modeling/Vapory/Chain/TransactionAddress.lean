import Vapory.Chain.Canonical
import Vapory.Chain.Lineage

/-! The addresses of transactions: what the lookups of a transaction say of the canonical chain. -/
namespace Vapory
open Function List Option

theorem foldl_update_cases {K V : Type} [DecidableEq K] (key : K) (entries : List (K × V))
    (db : K → Option V) : (∃ value, (key, value) ∈ entries ∧
      entries.foldl (fun (db : K → Option V) entry => update db entry.1 (some entry.2)) db key = some value) ∨
    (∀ e ∈ entries, e.1 ≠ key) ∧
      entries.foldl (fun (db : K → Option V) entry => update db entry.1 (some entry.2)) db key = db key := by
  induction entries generalizing db with
  | nil => exact .inr ⟨fun e he => absurd he not_mem_nil, rfl⟩
  | cons e entries ih =>
    rw [foldl_cons]
    rcases ih (update db e.1 (some e.2)) with ⟨value, hmem, heq⟩ | ⟨hnone, heq⟩
    · exact .inl ⟨value, mem_cons_of_mem _ hmem, heq⟩
    · rw [heq]
      by_cases hkey : e.1 = key
      · subst hkey
        exact .inl ⟨e.2, mem_cons_self, update_self ..⟩
      · right
        rw [update_of_ne (Ne.symm hkey)]
        refine ⟨fun e' he' => ?_, rfl⟩
        rcases mem_cons.mp he' with rfl | he'
        · exact hkey
        · exact hnone e' he'

namespace BlockChain
variable {H : Hasher} {c c' : BlockChain} {b : VerifiedBlock} {hash : H256}
  {ta : TransactionAddress}

/-- A canonical block has a transaction of this hash at the address. -/
def Located (H : Hasher) (c : BlockChain) (hash : H256) (ta : TransactionAddress) : Prop :=
  ta.blockHash ∈ c.canonical ∧
    ((c.blockOf ta.blockHash).transactionData[ta.index]?).map H.hash = some hash

/-- A transaction that is known is in a canonical block, at the location that is given. -/
def LooksUp (H : Hasher) (c : BlockChain) : Prop :=
  ∀ hash, ((isKnownTransaction hash).run c).1 = true →
  ∃ ta, ((transactionLocation hash).run c).1 = (ta.blockHash, ta.index) ∧ Located H c hash ta

def addressOf (c : BlockChain) (hash : H256) : Option TransactionAddress :=
  (c.transactionAddresses hash).or (c.transactionAddressesDB hash)

theorem queryTransactionAddress_spec (c : BlockChain) (hash : H256) :
    Post (queryTransactionAddress hash) c fun ta c' => ta = (c.addressOf hash).getD .null ∧
      c' = { c with transactionAddresses := c'.transactionAddresses } ∧
      ∀ x, c'.transactionAddresses x = c.transactionAddresses x ∨
        c'.transactionAddresses x = c.transactionAddressesDB x := by
  unfold queryTransactionAddress queryExtras addressOf
  simp only [post_bind, post_get]
  cases hcache : c.transactionAddresses hash with
  | some ta => exact ⟨rfl, rfl, fun x => .inl rfl⟩
  | none =>
    cases hdb : c.transactionAddressesDB hash with
    | none => exact ⟨rfl, rfl, fun x => .inl rfl⟩
    | some ta =>
      simp only [post_bind, post_set, post_pure]
      refine ⟨rfl, trivial, fun x => ?_⟩
      by_cases hx : x = hash
      · subst hx
        right
        rw [update_self, hdb]
      · left
        rw [update_of_ne hx]

theorem looksUp_iff : LooksUp H c ↔ ∀ hash ta, c.addressOf hash = some ta → ta.blockHash ≠ 0 →
    Located H c hash ta := by
  have hvalue (hash : H256) : ((queryTransactionAddress hash).run c).1 =
    (c.addressOf hash).getD .null :=
    (queryTransactionAddress_spec c hash).1
  have hknown (hash : H256) : ((isKnownTransaction hash).run c).1 =
    decide (((c.addressOf hash).getD .null).blockHash ≠ 0) := by
    rw [← hvalue]
    rfl
  have hlocation (hash : H256) : ((transactionLocation hash).run c).1 =
      if ((c.addressOf hash).getD .null).blockHash = 0 then (0, 0)
      else (((c.addressOf hash).getD .null).blockHash, ((c.addressOf hash).getD .null).index) := by
    rw [← hvalue]
    rfl
  constructor
  · intro h hash ta hta hne
    obtain ⟨ta', hlocated, hta'⟩ := h hash (by rw [hknown, hta]; exact decide_eq_true hne)
    rw [hlocation, hta, getD_some, if_neg hne] at hlocated
    obtain ⟨hblock, hindex⟩ := Prod.mk.inj hlocated
    unfold Located at hta' ⊢
    rwa [hblock, hindex]
  · intro h hash hk
    rw [hknown, decide_eq_true_iff] at hk
    cases hta : c.addressOf hash with
    | none =>
      rw [hta] at hk
      exact absurd rfl hk
    | some ta =>
      rw [hta] at hk
      refine ⟨ta, ?_, h hash ta hta hk⟩
      rw [hlocation, hta]
      exact if_neg hk

/-- Every address is right, in the database and in the cache. -/
structure Addressed (H : Hasher) (c : BlockChain) : Prop where
  headed : Headed H c
  database : ∀ hash ta, c.transactionAddressesDB hash = some ta → Located H c hash ta
  cache : ∀ hash ta, c.transactionAddresses hash = some ta → Located H c hash ta

theorem Addressed.looksUp (h : Addressed H c) : LooksUp H c := by
  rw [looksUp_iff]
  intro hash ta hta _
  unfold addressOf at hta
  cases hcache : c.transactionAddresses hash with
  | some ta' =>
    rw [hcache] at hta
    obtain rfl := Option.some.inj hta
    exact h.cache hash ta' hcache
  | none =>
    rw [hcache] at hta
    exact h.database hash ta hta

theorem Near.located (h : Near c c') : Located H c' hash ta ↔ Located H c hash ta := by
  unfold Located
  rw [h.canonical, h.blockOf]

theorem Addressed.near (h : Addressed H c) (hn : Near c c')
    (hcache : ∀ x ta, c'.transactionAddresses x = some ta → c.transactionAddresses x = some ta ∨
      c.transactionAddressesDB x = some ta) :
    Addressed H c' := by
  have hdb : c'.transactionAddressesDB = c.transactionAddressesDB :=
    hn.get BlockChain.transactionAddressesDB fun _ _ _ _ => rfl
  constructor
  · exact h.headed.near hn
  · intro hash ta hta
    rw [hdb] at hta
    rw [hn.located]
    exact h.database hash ta hta
  · intro hash ta hta
    rw [hn.located]
    rcases hcache hash ta hta with hold | hold
    · exact h.cache hash ta hold
    · exact h.database hash ta hold

/-- A transaction of a block that becomes canonical with the block `b`. -/
def Carried (H : Hasher) (c : BlockChain) (b : VerifiedBlock) (hash : H256) : Prop :=
  ∃ tbi, (tbi = b ∨ ∃ x ∈ c.lineage b.info.parentHash, x ∉ c.canonical ∧ tbi = c.blockOf x) ∧
    ∃ data ∈ tbi.transactionData, H.hash data = hash

/-- Each transaction with an address in a block that would leave the canonical chain is in one that
would come into it. -/
def Readdressed (H : Hasher) (c : BlockChain) (b : VerifiedBlock) : Prop :=
  c.wins b (c.weightOf b.info.parentHash + b.info.difficulty) = true →
    ∀ hash ta, c.transactionAddressesDB hash = some ta →
    ta.blockHash ∈ c.lineage b.info.parentHash ∨ Carried H c b hash

theorem mem_addresses {tbi : VerifiedBlock} : (hash, ta) ∈ addresses H tbi ↔
    ta.blockHash = tbi.info.hash H ∧ (tbi.transactionData[ta.index]?).map H.hash = some hash := by
  unfold addresses
  rw [mem_mapIdx]
  constructor
  · intro hmem
    obtain ⟨i, hi, heq⟩ := hmem
    obtain ⟨rfl, rfl⟩ := Prod.mk.inj heq
    refine ⟨rfl, ?_⟩
    rw [List.getElem?_eq_getElem hi]
    rfl
  · intro hmem
    obtain ⟨hblock, hdata⟩ := hmem
    obtain ⟨data, hget, hhash⟩ := map_eq_some_iff.mp hdata
    obtain ⟨hi, hget⟩ := List.getElem?_eq_some_iff.mp hget
    refine ⟨ta.index, hi, ?_⟩
    rw [hget, hhash, ← hblock]

section
variable {td : U256} {receipts : List TransactionReceipt} {meanwhile : List ℕ} {route : ImportRoute}
  (hinsert : Insertion H b td receipts meanwhile c route c') (hb : Fits H c b) (h : Headed H c)
  (hsame : Same H c b)

include h hb in
theorem exists_mem_addresses_iff {j k : ℕ} (hroute : Route c c.lastBlockHash b.info.parentHash j k) :
    (∃ ta, (hash, ta) ∈ (c.headBlocks b k).flatMap (addresses H)) ↔ Carried H c b hash := by
  have hblocks (tbi : VerifiedBlock) : tbi ∈ c.headBlocks b k ↔
      tbi = b ∨ ∃ x ∈ c.lineage b.info.parentHash, x ∉ c.canonical ∧ tbi = c.blockOf x := by
    unfold headBlocks
    rw [mem_cons, List.mem_map]
    apply or_congr_right
    constructor
    · intro hmem
      obtain ⟨x, hx, rfl⟩ := hmem
      obtain ⟨hlineage, hnot⟩ := (hroute.mem_passed_iff h hb.parent).mp hx
      exact ⟨x, hlineage, hnot, rfl⟩
    · intro hmem
      obtain ⟨x, hlineage, hnot, rfl⟩ := hmem
      exact ⟨x, (hroute.mem_passed_iff h hb.parent).mpr ⟨hlineage, hnot⟩, rfl⟩
  unfold Carried
  constructor
  · intro hmem
    obtain ⟨ta, hmem⟩ := hmem
    obtain ⟨tbi, htbi, hta⟩ := mem_flatMap.mp hmem
    obtain ⟨data, hget, hhash⟩ := map_eq_some_iff.mp (mem_addresses.mp hta).2
    exact ⟨tbi, (hblocks tbi).mp htbi, data, mem_of_getElem? hget, hhash⟩
  · intro hcarried
    obtain ⟨tbi, htbi, data, hdata, hhash⟩ := hcarried
    obtain ⟨i, hget⟩ := mem_iff_getElem?.mp hdata
    refine ⟨⟨tbi.info.hash H, i⟩, mem_flatMap.mpr ⟨tbi, (hblocks tbi).mpr htbi, mem_addresses.mpr ⟨rfl, ?_⟩⟩⟩
    rw [hget, map_some, hhash]

include hinsert hb h hsame

theorem Insertion.located_new (hbest : c.wins b td = true) {j k : ℕ}
    (hroute : Route c c.lastBlockHash b.info.parentHash j k)
    (hmem : (hash, ta) ∈ (c.headBlocks b k).flatMap (addresses H)) : Located H c' hash ta := by
  obtain ⟨tbi, htbi, hta⟩ := mem_flatMap.mp hmem
  obtain ⟨hblock, hdata⟩ := mem_addresses.mp hta
  unfold Located
  rw [hinsert.canonical_head hb h hbest, hblock]
  rcases mem_cons.mp htbi with rfl | hold
  · rw [hinsert.blockOf_new hb]
    exact ⟨mem_append_right _ (mem_singleton.mpr rfl), hdata⟩
  · obtain ⟨x, hx, rfl⟩ := mem_map.mp hold
    obtain ⟨hlineage, hnot⟩ := (hroute.mem_passed_iff h hb.parent).mp hx
    have hstored := h.treelike.stored_of_mem_lineage hb.parent hlineage
    have hne : x ≠ c.genesisHash := by
      rintro rfl
      apply hnot
      rw [← h.ancestorOf_zero]
      exact mem_map_of_mem (mem_range.mpr (Nat.succ_pos _))
    obtain ⟨b', hb', hhash, -⟩ := h.treelike.block x hstored hne
    have hblockOf : c.blockOf x = b' := by
      unfold blockOf block
      rw [if_neg hne, hb']
      rfl
    rw [hblockOf, hhash, hinsert.blockOf_old hb h hsame hstored, hblockOf]
    rw [hblockOf] at hdata
    exact ⟨mem_append_left _ hlineage, hdata⟩

theorem Insertion.located_side (hbest : c.wins b td = false) (hlocated : Located H c hash ta) :
    Located H c' hash ta := by
  have hcanonical : c'.canonical = c.canonical := by
    unfold canonical
    rw [hinsert.lastBlockHash, hbest, if_neg Bool.false_ne_true, hinsert.lineage_old hb h h.head.1]
  have hstored := h.treelike.stored_of_mem_lineage h.head.1 hlocated.1
  unfold Located
  rw [hcanonical, hinsert.blockOf_old hb h hsame hstored]
  exact hlocated

/-- What was right stays so with a new head if the block is an ancestor of it. -/
theorem Insertion.located_head (hbest : c.wins b td = true) (hlocated : Located H c hash ta) :
    Located H c' hash ta ↔ ta.blockHash ∈ c.lineage b.info.parentHash ∨
    ta.blockHash = b.info.hash H := by
  have hstored := h.treelike.stored_of_mem_lineage h.head.1 hlocated.1
  unfold Located
  rw [hinsert.canonical_head hb h hbest, hinsert.blockOf_old hb h hsame hstored, mem_append,
    mem_singleton]
  exact and_iff_left hlocated.2

omit hinsert hb h in
theorem Located.carried (hlocated : Located H c hash ta) (h : Headed H c)
    (hnew : ta.blockHash = b.info.hash H) : Carried H c b hash := by
  have hstored := h.treelike.stored_of_mem_lineage h.head.1 hlocated.1
  rw [hnew] at hstored
  have hblock : c.blockOf ta.blockHash = b := by
    rw [hnew]
    exact hsame _ (h.treelike.block_eq hstored)
  obtain ⟨data, hget, hhash⟩ := map_eq_some_iff.mp hlocated.2
  rw [hblock] at hget
  exact ⟨b, .inl rfl, data, mem_of_getElem? hget, hhash⟩

end

theorem Insertion.lookups {td : U256} {receipts : List TransactionReceipt} {meanwhile : List ℕ}
    {route : ImportRoute} (hinsert : Insertion H b td receipts meanwhile c route c') :
    (c.wins b td = false ∧ c'.transactionAddressesDB = c.transactionAddressesDB ∧
      c'.transactionAddresses = c.transactionAddresses) ∨ c.wins b td = true ∧
      ∃ j k, Route c c.lastBlockHash b.info.parentHash j k ∧
        c'.transactionAddressesDB = ((c.headBlocks b k).flatMap (addresses H)).foldl
          (fun (db : H256 → Option TransactionAddress) entry => update db entry.1 (some entry.2))
          c.transactionAddressesDB ∧
        c'.transactionAddresses = if j = 0 then c.transactionAddresses else fun _ => none := by
  have hdb {c₁ : BlockChain} (hn : Near c c₁) : c₁.transactionAddressesDB = c.transactionAddressesDB :=
    hn.get BlockChain.transactionAddressesDB fun _ _ _ _ => rfl
  cases hinsert with
  | side hkin hparent hbest =>
    left
    refine ⟨hbest, ?_, ?_⟩
    · rw [asked_eq, ← hdb hkin.toNear]
      rfl
    · rw [asked_eq, ← hkin.transactionAddresses]
      rfl
  | head hkin hparent hbest hroute =>
    rename_i c₁ d j k
    right
    have hreverted : Near c (c₁.reverted j) := hkin.toNear.trans (.reverted hkin.backed j)
    have hcache : (c₁.reverted j).transactionAddresses = if j = 0 then c.transactionAddresses
      else fun _ => none := by
      unfold reverted
      split_ifs
      · exact hkin.transactionAddresses
      · rfl
    refine ⟨hbest, j, k, hroute, ?_, ?_⟩
    · rw [asked_eq, addBlooms_eq, ← hdb hreverted]
      rfl
    · rw [asked_eq, addBlooms_eq, ← hcache]
      rfl

section
variable {receipts : List TransactionReceipt} {meanwhile : List ℕ} {route : ImportRoute}
  (h : Addressed H c) (hb : Fits H c b) (hsame : Same H c b)
  (hinsert : Insertion H b (c.weightOf b.info.parentHash + b.info.difficulty) receipts meanwhile c
    route c')
include h hb hsame hinsert

theorem Addressed.insert (hre : Readdressed H c b) : Addressed H c' := by
  have hheaded := hinsert.headed hb h.headed
  rcases hinsert.lookups with ⟨hbest, hdb, hcache⟩ | ⟨hbest, j, k, hroute, hdb, hcache⟩
  · refine ⟨hheaded, fun x ta hta => ?_, fun x ta hta => ?_⟩
    · rw [hdb] at hta
      exact hinsert.located_side hb h.headed hsame hbest (h.database x ta hta)
    · rw [hcache] at hta
      exact hinsert.located_side hb h.headed hsame hbest (h.cache x ta hta)
  · refine ⟨hheaded, fun x ta hta => ?_, fun x ta hta => ?_⟩
    · rw [hdb] at hta
      rcases foldl_update_cases x ((c.headBlocks b k).flatMap (addresses H)) c.transactionAddressesDB with
        ⟨ta', hmem, heq⟩ | ⟨hnone, heq⟩
      · rw [heq] at hta
        obtain rfl := Option.some.inj hta
        exact hinsert.located_new hb h.headed hsame hbest hroute hmem
      · rw [heq] at hta
        rw [hinsert.located_head hb h.headed hsame hbest (h.database x ta hta)]
        rcases hre hbest x ta hta with hlineage | hcarried
        · exact .inl hlineage
        · obtain ⟨ta', hmem⟩ := (exists_mem_addresses_iff hb h.headed hroute).mpr hcarried
          exact absurd rfl (hnone _ hmem)
    · rw [hcache] at hta
      split_ifs at hta with hj
      rw [hinsert.located_head hb h.headed hsame hbest (h.cache x ta hta)]
      exact .inl (hroute.canonical_subset h.headed hb.parent hj (h.cache x ta hta).1)

/-- The lookups are right after an insertion only if each address of a block that left the canonical
chain was written over. -/
theorem Addressed.readdressed (hlook : LooksUp H c') : Readdressed H c b := by
  intro hwins x ta hta
  have hlocated := h.database x ta hta
  rcases hinsert.lookups with ⟨hbest, -⟩ | ⟨hbest, j, k, hroute, hdb, hcache⟩
  · rw [hwins] at hbest
    cases hbest
  by_cases hj : j = 0
  · exact .inl (hroute.canonical_subset h.headed hb.parent hj hlocated.1)
  rw [if_neg hj] at hcache
  rcases foldl_update_cases x ((c.headBlocks b k).flatMap (addresses H)) c.transactionAddressesDB with
    ⟨ta', hmem, -⟩ | ⟨-, heq⟩
  · exact .inr ((exists_mem_addresses_iff hb h.headed hroute).mp ⟨ta', hmem⟩)
  · have haddress : c'.addressOf x = some ta := by
      unfold addressOf
      rw [hcache, hdb, heq]
      exact hta
    have hne : ta.blockHash ≠ 0 :=
      h.headed.treelike.ne_zero (h.headed.treelike.stored_of_mem_lineage h.headed.head.1 hlocated.1)
    have hlocated' := looksUp_iff.mp hlook x ta haddress hne
    rcases (hinsert.located_head hb h.headed hsame hbest hlocated).mp hlocated' with hlineage | hnew
    · exact .inl hlineage
    · exact .inr (hlocated.carried hsame h.headed hnew)

end

/-- It is enough that the transactions of all blocks that leave are carried. -/
theorem Addressed.readdressed_of_forall (h : Addressed H c)
    (hall : ∀ x ∈ c.canonical, x ∉ c.lineage b.info.parentHash →
      ∀ data ∈ (c.blockOf x).transactionData, Carried H c b (H.hash data)) :
    Readdressed H c b := by
  intro _ x ta hta
  obtain ⟨hcanonical, hat⟩ := h.database x ta hta
  obtain ⟨data, hget, rfl⟩ := map_eq_some_iff.mp hat
  by_cases hlineage : ta.blockHash ∈ c.lineage b.info.parentHash
  · exact .inl hlineage
  · exact .inr (hall _ hcanonical hlineage data (mem_of_getElem? hget))

/-- What may happen to the addresses: imports after which they are right, and whatever reads into
the caches or drops from them. -/
inductive AddressStep (H : Hasher) : BlockChain → BlockChain → Prop where
  | import_ {c c' : BlockChain} {r : Except ImportError ImportRoute}
    (enact : VerifiedBlock → Except EnactError (List TransactionReceipt)) (utcTime : U256)
    (mustBeNew : Bool) (meanwhile : List ℕ)
    (b : VerifiedBlock) (hsane : Sane H c b) (hsame : Same H c b) (hre : Readdressed H c b)
    (hrun : (BlockChain.import_ H enact utcTime mustBeNew meanwhile b).run c = .ok (r, c')) :
      AddressStep H c c'
  | numberHash {c : BlockChain} (i : ℕ) : AddressStep H c ((BlockChain.numberHash i).run c).2
  | transactionAddress {c : BlockChain} (hash : H256) :
    AddressStep H c ((queryTransactionAddress hash).run c).2
  | garbageCollect {c : BlockChain} (hash : H256) :
    AddressStep H c { c with transactionAddresses := update c.transactionAddresses hash none }

theorem Addressed.step (h : Addressed H c) (hstep : AddressStep H c c') : Addressed H c' := by
  have hbacked := h.headed.treelike.backed
  cases hstep with
  | import_ enact utcTime mustBeNew meanwhile b hsane hsame hre hrun =>
    rcases (import_cases h.headed hsane enact utcTime mustBeNew meanwhile).ends _ _ hrun with
      ⟨-, hk⟩ | ⟨route, receipts, -, hfits, -, hinsert⟩
    · apply h.near hk.toNear
      intro x ta hta
      rw [hk.transactionAddresses] at hta
      exact .inl hta
    · exact h.insert hfits hsame hinsert hre
  | numberHash i =>
    have hframe : ((numberHash i).run c).2 = _ := numberHash_frame i (c := c)
    rw [hframe]
    exact h.near ⟨rfl, fun _ => rfl, hbacked⟩ fun x ta hta => .inl hta
  | transactionAddress hash =>
    obtain ⟨-, hframe, hcache⟩ := queryTransactionAddress_spec c hash
    have hn : Near c ((queryTransactionAddress hash).run c).2 := by
      refine ⟨by rw [hframe], fun _ => by rw [hframe]; rfl, ?_⟩
      rw [hframe]
      exact hbacked
    apply h.near hn
    intro x ta hta
    rcases hcache x with heq | heq
    · exact .inl (heq ▸ hta)
    · exact .inr (heq ▸ hta)
  | garbageCollect hash =>
    have hn : Near c { c with transactionAddresses := update c.transactionAddresses hash none } :=
      ⟨rfl, fun _ => rfl, hbacked⟩
    apply h.near hn
    intro x ta hta
    by_cases hx : x = hash
    · rw [hx] at hta
      cases (update_self hash none c.transactionAddresses).symm.trans hta
    · exact .inl ((update_of_ne hx none c.transactionAddresses).symm.trans hta)

theorem addressed_run {c₀ : BlockChain} (h₀ : Addressed H c₀)
    (hrun : Relation.ReflTransGen (AddressStep H) c₀ c) : Addressed H c := by
  induction hrun with
  | refl => exact h₀
  | tail _ hstep ih => exact ih.step hstep

section
variable {genesisBlock : VerifiedBlock} {allowFutureBlocks tieBreakingGas : Bool}

theorem addressed_opened (hnumber : genesisBlock.info.number = 0)
    (hhash : genesisBlock.info.hash H ≠ 0) :
    Addressed H (opened H genesisBlock allowFutureBlocks tieBreakingGas) := by
  refine ⟨(indexed_opened hnumber hhash).headed, fun x ta hta => ?_, fun x ta hta => ?_⟩
  · cases hta
  · cases hta

/-- From the genesis block on, a transaction is known only if it is in a canonical block, and its
location is there, if no import leaves an address behind. An import that does makes the lookups
wrong. -/
theorem transactionLocation_canonical (hnumber : genesisBlock.info.number = 0)
    (hhash : genesisBlock.info.hash H ≠ 0)
    (hrun : Relation.ReflTransGen (AddressStep H)
    (opened H genesisBlock allowFutureBlocks tieBreakingGas) c) :
    LooksUp H c ∧ ∀ enact utcTime mustBeNew meanwhile b, Sane H c b → Same H c b →
      ∃ r c', (import_ H enact utcTime mustBeNew meanwhile b).run c = .ok (r, c') ∧
        ∀ route, r = .ok route → (LooksUp H c' ↔ Readdressed H c b) := by
  have h := addressed_run (addressed_opened hnumber hhash) hrun
  refine ⟨h.looksUp, ?_⟩
  intro enact utcTime mustBeNew meanwhile b hsane hsame
  obtain ⟨r, c', himport, hcases⟩ := import_cases h.headed hsane enact utcTime mustBeNew meanwhile
  refine ⟨r, c', himport, ?_⟩
  rintro route rfl
  rcases hcases with ⟨⟨e, he, -⟩, -⟩ | ⟨route', receipts, -, hfits, -, hinsert⟩
  · cases he
  · constructor
    · exact h.readdressed hfits hsame hinsert
    · intro hre
      exact (h.insert hfits hsame hinsert hre).looksUp

end

def exampleCall : TransactionBase :=
  { type := .MessageCall, nonce := 7, receiveAddress := 1, vrs := some ⟨1, 1, 0⟩, cachedSender := 1 }

def exampleCallData : Bytes :=
  [0xdd, 7, 0x80, 0x80, 0x94] ++ List.replicate 19 0 ++ [1, 0x80, 0x80, 0x1b, 1, 1]

def withCall (b : VerifiedBlock) : VerifiedBlock :=
  { b with transactions := [exampleCall], transactionData := [exampleCallData] }

/-- The transaction of a block that left the canonical chain is still known, though no canonical
block has one of its hash. -/
theorem isKnownTransaction_dead :
    let hash := tailHasher.hash exampleCallData
    exampleCall.rlp .WithSignature = .ok exampleCallData ∧
    (∀ b ∈ [exampleBlock 0 100 0 1, exampleBlock 1 101 100 1, exampleBlock 1 201 100 5],
      b.info.hash tailHasher = tailHasher.hash (b.info.rlp true)) ∧
    ∃ r, ([.take (withCall (exampleBlock 1 101 100 1)), .take (exampleBlock 1 201 100 5)].forM
        (Act.exec tailHasher)).run
        exampleGenesis = .ok r ∧ r.2.canonical = [100, 201] ∧ ((isKnownTransaction hash).run r.2).1 = true ∧
      ((transactionLocation hash).run r.2).1 = (101, 0) ∧
      hash ∉ (r.2.canonical.flatMap fun x => (r.2.blockOf x).transactionData).map tailHasher.hash := by
  refine ⟨by decide +kernel, by decide +kernel, ?_⟩
  exact Except.exists_ok_and (by decide +kernel)

def exampleImport (b : VerifiedBlock) (c : BlockChain) : BlockChain :=
  (((BlockChain.import_ tailHasher (fun _ => .ok []) 1000 true [] b).run c).toOption.getD
    (Except.error ImportError.invalid, c)).2

theorem AddressStep.of_exampleImport {b : VerifiedBlock} (hsane : Sane tailHasher c b)
    (hsame : Same tailHasher c b) (hre : Readdressed tailHasher c b)
    (hok : ((BlockChain.import_ tailHasher (fun _ => .ok []) 1000 true [] b).run c).toOption.isSome = true) :
    AddressStep tailHasher c (exampleImport b c) :=
  .import_ _ _ _ _ b hsane hsame hre (Except.eq_ok_getD (Except.error ImportError.invalid, c) hok)

def exampleCarrier : BlockChain :=
  exampleImport (withCall (exampleBlock 1 101 100 1)) exampleGenesis

/-- A heavier sibling has the same transaction. -/
theorem transactionLocation_canonical_example :
    let c := exampleImport (withCall (exampleBlock 1 201 100 5)) exampleCarrier
    ((transactionLocation (tailHasher.hash exampleCallData)).run c).1 = (201, 0) ∧ LooksUp tailHasher c := by
  have hgenesis : Addressed tailHasher exampleGenesis := addressed_opened rfl (by decide)
  have hone : AddressStep tailHasher exampleGenesis exampleCarrier := by
    apply AddressStep.of_exampleImport (by decide +kernel) (by decide +kernel) _ (by decide +kernel)
    intro _ x ta hta
    cases hta
  have hcall : (exampleCarrier.canonical.flatMap fun x =>
    (exampleCarrier.blockOf x).transactionData) = [exampleCallData] := by
    decide +kernel
  have hre : Readdressed tailHasher exampleCarrier (withCall (exampleBlock 1 201 100 5)) := by
    apply (hgenesis.step hone).readdressed_of_forall
    intro x hx _ data hdata
    have hmem : data ∈ exampleCarrier.canonical.flatMap fun x => (exampleCarrier.blockOf x).transactionData :=
      mem_flatMap.mpr ⟨x, hx, hdata⟩
    rw [hcall, mem_singleton] at hmem
    rw [hmem]
    exact ⟨_, .inl rfl, exampleCallData, mem_singleton.mpr rfl, rfl⟩
  have htwo : AddressStep tailHasher exampleCarrier
    (exampleImport (withCall (exampleBlock 1 201 100 5)) exampleCarrier) :=
    .of_exampleImport (by decide +kernel) (by decide +kernel) hre (by decide +kernel)
  have hlookup :=
    transactionLocation_canonical rfl (by decide) ((Relation.ReflTransGen.single hone).tail htwo)
  exact ⟨by decide +kernel, hlookup.1⟩

end BlockChain
end Vapory
