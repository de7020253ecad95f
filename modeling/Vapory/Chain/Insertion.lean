import Vapory.Chain.Tree

/-! What the import of a block does to a chain: nothing but to the cache of the details, or the
block is written, and if it becomes the head, with the indices of the blocks on the way to it. -/
namespace Vapory
open Function List Option

section
variable {α : Type} [DecidableEq α] {x : α} {l : List α}

theorem takeWhile_ne_append (h : x ∉ l) (rest : List α) : (l ++ x :: rest).takeWhile (· ≠ x) = l := by
  rw [takeWhile_append_of_pos]
  · simp
  · intro y hy
    have hne : y ≠ x := fun heq => h (heq ▸ hy)
    simpa using hne

theorem dropWhile_ne_append (h : x ∉ l) (rest : List α) :
    (l ++ x :: rest).dropWhile (· ≠ x) = x :: rest := by
  rw [dropWhile_append_of_pos]
  · simp
  · intro y hy
    have hne : y ≠ x := fun heq => h (heq ▸ hy)
    simpa using hne

theorem filter_ne_of_notMem (h : x ∉ l) : l.filter (· ≠ x) = l := by
  apply filter_eq_self.mpr
  intro y hy
  have hne : y ≠ x := fun heq => h (heq ▸ hy)
  simpa using hne

end

theorem takeWhile_isSome_map_some {α : Type} (l : List α) :
    (l.map some).takeWhile Option.isSome = l.map some := by
  induction l with
  | nil => rfl
  | cons x l ih => simp [ih]

theorem mapM_id_map_some {α : Type} (l : List α) : (l.map some).mapM id = some l := by
  induction l with
  | nil => rfl
  | cons x l ih => simp [mapM_cons, ih]

namespace BlockChain
variable {H : Hasher} {c c' c₁ c₂ : BlockChain} {b : VerifiedBlock} {j k : ℕ}

def weightOf (c : BlockChain) (hash : H256) : U256 :=
  ((c.detailsOf hash).getD .null).totalDifficulty

def blockOf (c : BlockChain) (hash : H256) : VerifiedBlock := (c.block hash).getD c.genesisBlock

namespace Near
variable (h : Near c c')
include h

theorem weightOf : c'.weightOf = c.weightOf := by
  have hcore (d : Option BlockDetails) :
      (d.getD .null).totalDifficulty =
      ((d.map BlockDetails.core).getD BlockDetails.null).totalDifficulty := by
    cases d <;> rfl
  funext hash
  unfold BlockChain.weightOf
  rw [hcore, h.core, ← hcore]

theorem blockOf : c'.blockOf = c.blockOf := h.get BlockChain.blockOf fun _ _ _ _ => rfl

theorem fits (hb : Fits H c b) : Fits H c' b := by
  obtain ⟨hne, hgenesis, hparent, hnumber, hlt, hagain⟩ := hb
  constructor
  · exact hne
  · rwa [h.genesisHash]
  · rwa [h.stored]
  · rwa [h.numberOf]
  · exact hlt
  · rwa [h.stored, h.numberOf, h.parentOf]

theorem route_iff {x y : H256} : Route c' x y j k ↔ Route c x y j k := by
  constructor
  · intro hroute
    obtain ⟨hfrom, hto, hmeet, hapart⟩ := hroute
    rw [h.numberOf] at hfrom hto
    rw [h.parentOf] at hmeet hapart
    exact ⟨hfrom, hto, hmeet, hapart⟩
  · intro hroute
    obtain ⟨hfrom, hto, hmeet, hapart⟩ := hroute
    rw [← h.numberOf] at hfrom hto
    rw [← h.parentOf] at hmeet hapart
    exact ⟨hfrom, hto, hmeet, hapart⟩

end Near

structure Headed (H : Hasher) (c : BlockChain) : Prop where
  treelike : Treelike H c
  head : c.Stored c.lastBlockHash ∧ c.numberOf c.lastBlockHash = c.lastBlockNumber

theorem Headed.near (h : Headed H c) (hn : Near c c') : Headed H c' := by
  refine ⟨h.treelike.near hn, ?_⟩
  rw [hn.stored, hn.numberOf, hn.lastBlockHash, hn.lastBlockNumber]
  exact h.head

theorem Headed.number_lt (h : Headed H c) : c.lastBlockNumber < 2 ^ 32 - 1 :=
  h.head.2 ▸ h.treelike.number_lt _ h.head.1

theorem numberHash_frame (i : ℕ) :
    Post (numberHash i) c fun _ c' => c' = { c with blockHashes := c'.blockHashes } := by
  unfold numberHash queryExtras
  simp only [post_bind, post_get, post_ite, post_pure]
  by_cases hi : i = 0
  · rw [if_pos hi]
    trivial
  · rw [if_neg hi]
    cases c.blockHashes i with
    | some hash => rfl
    | none => cases c.blockHashesDB i <;> rfl

def asked (c : BlockChain) (numbers : List ℕ) : BlockChain := ((askAll numbers).run c).2

theorem asked_eq (c : BlockChain) (numbers : List ℕ) :
    c.asked numbers = { c with blockHashes := (c.asked numbers).blockHashes } := by
  change Post (askAll numbers) c fun _ c' => c' = { c with blockHashes := c'.blockHashes }
  unfold askAll
  induction numbers generalizing c with
  | nil => rfl
  | cons i numbers ih =>
    rw [List.forM, post_bind, post_bind]
    apply (numberHash_frame i).mono
    intro _ c₁ h₁
    apply (post_pure _).mpr
    apply (ih c₁).mono
    intro _ c₂ h₂
    rw [h₁] at h₂
    exact h₂

def reverted (c : BlockChain) (j : ℕ) : BlockChain :=
  if j = 0 then c else ((clearCachesDuringChainReversion (c.lastBlockNumber - j + 1)).run c).2

def addBlooms (H : Hasher) (blocks : List VerifiedBlock) (c : BlockChain) : BlockChain :=
  blocks.foldl (fun c tbi => c.addBloom H tbi.info) c

theorem addBlooms_eq (blocks : List VerifiedBlock) (c : BlockChain) :
    addBlooms H blocks c = { c with blocksBlooms := (addBlooms H blocks c).blocksBlooms } := by
  unfold addBlooms
  induction blocks generalizing c with
  | nil => rfl
  | cons tbi blocks ih => exact ih (c.addBloom H tbi.info)

namespace Near

theorem asked (h : c.Backed) (numbers : List ℕ) : Near c (c.asked numbers) := by
  rw [asked_eq]
  exact ⟨rfl, fun _ => rfl, h⟩

theorem reverted (h : c.Backed) (j : ℕ) : Near c (c.reverted j) := by
  unfold BlockChain.reverted
  split_ifs
  · exact .refl h
  · exact ⟨rfl, fun _ => rfl, h⟩

theorem addBlooms (h : c.Backed) (blocks : List VerifiedBlock) : Near c (addBlooms H blocks c) := by
  rw [addBlooms_eq]
  exact ⟨rfl, fun _ => rfl, h⟩

end Near

/-- The blocks that become canonical with a new head: it and its ancestors, so many generations
back. -/
def headBlocks (c : BlockChain) (b : VerifiedBlock) (k : ℕ) : List VerifiedBlock :=
  b :: (c.passed b.info.parentHash k).map c.blockOf

def wins (c : BlockChain) (b : VerifiedBlock) (totalDifficulty : U256) : Bool :=
  c.isBest ((c.detailsOf c.lastBlockHash).getD .null) b totalDifficulty

/-- What `insertBlockAndExtras` returns, and the chain after it. The details `d` of the parent are
written with one child more. -/
inductive Insertion (H : Hasher) (b : VerifiedBlock) (totalDifficulty : U256)
    (receipts : List TransactionReceipt) (meanwhile : List ℕ) (c : BlockChain) :
    ImportRoute → BlockChain → Prop where
  | side {c₁ : BlockChain} {d : BlockDetails} (hkin : Kin c c₁)
    (hparent : (c.detailsOf b.info.parentHash).map (·.core) = some d.core)
    (hbest : c.wins b totalDifficulty = false) :
    Insertion H b totalDifficulty receipts meanwhile c ⟨[], [], b.transactions⟩
      (write H b totalDifficulty receipts d false [] (c₁.asked meanwhile))
  | head {c₁ : BlockChain} {d : BlockDetails} {j k : ℕ} (hkin : Kin c c₁)
    (hparent : (c.detailsOf b.info.parentHash).map (·.core) = some d.core)
    (hbest : c.wins b totalDifficulty = true)
    (hroute : Route c c.lastBlockHash b.info.parentHash j k) :
    Insertion H b totalDifficulty receipts meanwhile c
      ⟨c.passed c.lastBlockHash j, (c.passed b.info.parentHash k).reverse ++ [b.info.hash H], b.transactions⟩
      (write H b totalDifficulty receipts d true (c.headBlocks b k)
        ((addBlooms H (c.headBlocks b k) (c₁.reverted j)).asked meanwhile))

theorem isBest_congr {last last' : BlockDetails} (h : last.totalDifficulty = last'.totalDifficulty)
    (totalDifficulty : U256) :
    c.isBest last b totalDifficulty = c.isBest last' b totalDifficulty := by
  unfold isBest
  rw [h]

theorem Near.wins (h : Near c c') (totalDifficulty : U256) :
    c'.wins b totalDifficulty = c.wins b totalDifficulty := by
  have hweight : ((c'.detailsOf c'.lastBlockHash).getD .null).totalDifficulty =
      ((c.detailsOf c.lastBlockHash).getD .null).totalDifficulty := by
    change c'.weightOf c'.lastBlockHash = c.weightOf c.lastBlockHash
    rw [h.weightOf, h.lastBlockHash]
  have hbest (last : BlockDetails) :
    c'.isBest last b totalDifficulty = c.isBest last b totalDifficulty :=
    h.get (fun c => c.isBest last b totalDifficulty) fun _ _ _ _ => rfl
  unfold BlockChain.wins
  rw [hbest, isBest_congr hweight]

theorem Near.headBlocks (h : Near c c') (k : ℕ) : c'.headBlocks b k = c.headBlocks b k := by
  unfold BlockChain.headBlocks
  rw [h.passed, h.blockOf]

theorem Insertion.of_kin {totalDifficulty : U256} {receipts : List TransactionReceipt}
    {meanwhile : List ℕ} {route : ImportRoute}
    (h : Insertion H b totalDifficulty receipts meanwhile c₁ route c') (hk : Kin c c₁) :
    Insertion H b totalDifficulty receipts meanwhile c route c' := by
  cases h with
  | side hkin hparent hbest =>
    rw [hk.core] at hparent
    rw [hk.wins] at hbest
    exact .side (hk.trans hkin) hparent hbest
  | head hkin hparent hbest hroute =>
    rw [hk.core] at hparent
    rw [hk.wins] at hbest
    rw [hk.lastBlockHash, hk.route_iff] at hroute
    rw [hk.passed, hk.passed, hk.headBlocks, hk.lastBlockHash]
    exact .head (hk.trans hkin) hparent hbest hroute

namespace Route
variable {x y : H256} (hroute : Route c x y j k)
include hroute

theorem notMem_to : c.parentOf^[j] x ∉ c.passed y k := by
  intro hmem
  obtain ⟨i, hi, heq⟩ := mem_map.mp hmem
  exact hroute.apart i (mem_range.mp hi) j le_rfl heq

theorem notMem_from (hroot : Rooted c.Stored c.parentOf c.numberOf) (hx : c.Stored x) :
    c.parentOf^[j] x ∉ c.passed x j := by
  intro hmem
  obtain ⟨i, hi, heq⟩ := mem_map.mp hmem
  have hij := mem_range.mp hi
  have hj := (hroot.iterate hx hroute.from_le).2
  have hi := (hroot.iterate hx (hij.le.trans hroute.from_le)).2
  rw [heq] at hi
  omega

end Route

theorem Fits.ancestor_ne (hb : Fits H c b) (hroot : Rooted c.Stored c.parentOf c.numberOf) {i : ℕ}
    (hi : i ≤ c.numberOf b.info.parentHash) : c.parentOf^[i] b.info.parentHash ≠ b.info.hash H := by
  intro heq
  obtain ⟨hstored, hnumber⟩ := hroot.iterate hb.parent hi
  have hagain := (hb.again (heq ▸ hstored)).1
  rw [← heq, hb.number] at hagain
  omega

variable {hash : H256} {d : BlockDetails}

theorem Treelike.block_eq (h : Treelike H c) (hs : c.Stored hash) :
    c.block hash = some (c.blockOf hash) := by
  unfold blockOf BlockChain.block
  split_ifs with hg
  · rfl
  · obtain ⟨b, hb, -⟩ := h.block hash hs hg
    rw [hb]
    rfl

section
variable (h : Headed H c)
include h

theorem clearCachesAfter_spec {y : H256} (hroute : Route c c.lastBlockHash y j k) (hk : Kin c c₁) :
    Post (clearCachesAfter (c.parentOf^[j] c.lastBlockHash) c.lastBlockHash) c₁ fun _ c' => ∃ c₂,
    Kin c c₂ ∧ c' = c₂.reverted j := by
  have hlt := h.number_lt
  have hiterate := (h.treelike.rooted.iterate h.head.1 hroute.from_le).2
  rw [h.head.2] at hiterate
  unfold clearCachesAfter
  simp only [post_ite, post_pure]
  split_ifs with hsame
  · rw [hsame, h.head.2] at hiterate
    obtain rfl : j = 0 := by omega
    exact ⟨c₁, hk, rfl⟩
  · have hj : j ≠ 0 := by
      rintro rfl
      exact hsame rfl
    rw [post_bind]
    apply (queryDetails_spec hk.backed _).mono
    intro d c₂ hquery
    obtain ⟨rfl, hk₂, -⟩ := hquery
    have hnumber : ((c₁.detailsOf (c.parentOf^[j] c.lastBlockHash)).getD .null).number =
      c.lastBlockNumber - j := by
      change c₁.numberOf _ = _
      rw [hk.numberOf]
      omega
    have hfirst : (c.lastBlockNumber - j + 1) % 2 ^ 32 = c₂.lastBlockNumber - j + 1 := by
      rw [(hk.trans hk₂).lastBlockNumber]
      apply Nat.mod_eq_of_lt
      omega
    rw [hnumber, hfirst]
    refine ⟨c₂, hk.trans hk₂, ?_⟩
    unfold reverted
    rw [if_neg hj]

variable (hb : Fits H c b)
include hb

/-- The blocks of the route that are indexed are the new one and its ancestors up to the common
one. -/
theorem routeBlocks_spec (hroute : Route c c.lastBlockHash b.info.parentHash j k) (hn : Near c c') :
    c'.routeBlocks H b (c.passed c.lastBlockHash j ++ [c.parentOf^[j] c.lastBlockHash] ++
        (c.passed b.info.parentHash k).reverse ++ [b.info.hash H]) (c.parentOf^[j] c.lastBlockHash) =
      (c.headBlocks b k).map some := by
  have hroot := h.treelike.rooted
  have hcommon : c.parentOf^[j] c.lastBlockHash ∉ b.info.hash H :: c.passed b.info.parentHash k := by
    have hne := hb.ancestor_ne hroot hroute.to_le
    rw [← hroute.meet] at hne
    simpa [hne] using hroute.notMem_to
  have hreverse : (c.passed c.lastBlockHash j ++ [c.parentOf^[j] c.lastBlockHash] ++
      (c.passed b.info.parentHash k).reverse ++ [b.info.hash H]).reverse =
        (b.info.hash H :: c.passed b.info.parentHash k) ++
          c.parentOf^[j] c.lastBlockHash :: (c.passed c.lastBlockHash j).reverse := by
    simp
  unfold routeBlocks headBlocks
  rw [hreverse, takeWhile_ne_append hcommon, map_cons, if_pos rfl, map_cons, List.map_map, hn.block]
  congr 1
  apply map_congr_left
  intro x hx
  obtain ⟨i, hi, rfl⟩ := mem_map.mp hx
  have hle := (mem_range.mp hi).le.trans hroute.to_le
  rw [if_neg (hb.ancestor_ne hroot hle), h.treelike.block_eq (hroot.iterate hb.parent hle).1]
  rfl

theorem chooseHead_spec :
    Returns (chooseHead H b c.lastBlockHash) c fun r c' => ∃ c₁ j k, Kin c c₁ ∧
    Route c c.lastBlockHash b.info.parentHash j k ∧
      c' = addBlooms H (c.headBlocks b k) (c₁.reverted j) ∧
      r = (c.passed c.lastBlockHash j ++ c.parentOf^[j] c.lastBlockHash ::
        ((c.passed b.info.parentHash k).reverse ++ [b.info.hash H]), c.parentOf^[j] c.lastBlockHash,
        some (c.headBlocks b k)) := by
  unfold chooseHead
  rw [returns_bind]
  apply (treeRoute_spec h.treelike h.head.1 hb.parent true).mono
  intro r c₁ htree
  obtain ⟨hk₁, j, k, hroute, hret, hcommon, -⟩ := htree
  obtain ⟨route, common, i⟩ := r
  obtain rfl : route = _ := hret
  obtain rfl : common = _ := hcommon
  rw [returns_bind, returns_lift]
  apply (clearCachesAfter_spec h hroute hk₁).mono
  intro _ c₂ hclear
  obtain ⟨c₃, hk₃, rfl⟩ := hclear
  have hblocks := routeBlocks_spec h hb hroute (hk₃.toNear.trans (.reverted hk₃.backed j))
  simp only [returns_bind, returns_get, returns_modify, returns_pure, if_true, hblocks]
  refine ⟨c₃, j, k, hk₃, hroute, ?_, ?_⟩
  · rw [takeWhile_isSome_map_some, filterMap_map]
    simp [addBlooms]
  · rw [mapM_id_map_some]
    simp

end

theorem addChild_spec (h : c.Backed) {parentHash : H256} (hd : c.details parentHash = some d)
    (hash : H256) : Kin c { c with
      details := update c.details parentHash (some { d with children := d.children ++ [hash] }) } := by
  refine ⟨⟨rfl, fun x => ?_, fun x d' hx => ?_⟩, rfl, rfl, rfl⟩
  · by_cases hx : x = parentHash
    · subst hx
      simp [detailsOf, hd, BlockDetails.core]
    · simp [detailsOf, update_of_ne hx]
  · by_cases hxp : x = parentHash
    · subst hxp
      simp only [update_self, Option.some.injEq] at hx
      rw [← hx]
      exact h x d hd
    · simp only [update_of_ne hxp] at hx
      exact h x d' hx

theorem insertBlockAndExtras_cases (h : Headed H c) (hb : Fits H c b) (totalDifficulty : U256)
    (receipts : List TransactionReceipt) (meanwhile : List ℕ) :
    Returns (insertBlockAndExtras H b totalDifficulty receipts meanwhile) c fun r c' =>
      ∃ route, r = .ok route ∧ Insertion H b totalDifficulty receipts meanwhile c route c' := by
  unfold insertBlockAndExtras
  simp only [returns_bind, returns_lift, returns_modify, returns_get]
  apply (queryDetails_spec h.treelike.backed b.info.parentHash).mono
  intro _ c₁ hquery₁
  obtain ⟨-, hk₁, hcached⟩ := hquery₁
  obtain ⟨d, hd⟩ := isSome_iff_exists.mp hb.parent
  rw [hd] at hcached
  simp only [hcached, getD_some, update_self]
  have hadd := addChild_spec hk₁.backed hcached (b.info.hash H)
  apply (queryDetails_spec hadd.backed c₁.lastBlockHash).mono
  intro lastDetails c₃ hquery₃
  obtain ⟨hlastDetails, hk₂₃, -⟩ := hquery₃
  have hk₃ : Kin c c₃ := (hk₁.trans hadd).trans hk₂₃
  have hlast : c₁.lastBlockHash = c₃.lastBlockHash := hk₂₃.lastBlockHash.symm
  have hbest : c₃.isBest lastDetails b totalDifficulty = c.wins b totalDifficulty := by
    rw [← hk₃.wins]
    apply isBest_congr
    change _ = c₃.weightOf c₃.lastBlockHash
    rw [hk₂₃.weightOf, hlastDetails, ← hlast]
    rfl
  have hparent : (c.detailsOf b.info.parentHash).map (·.core) =
      some (BlockDetails.core { d with children := d.children ++ [b.info.hash H] }) := by
    rw [hd]
    rfl
  rw [hlast, hbest]
  cases hwins : c.wins b totalDifficulty with
  | true =>
    simp only [if_true, returns_bind, returns_lift]
    apply (chooseHead_spec (h.near hk₃.toNear) (hk₃.fits hb)).mono
    intro r c₄ hchoose
    obtain ⟨c₅, j, k, hk₅, hroute, rfl, rfl⟩ := hchoose
    have hk := hk₃.trans hk₅
    rw [hk₃.lastBlockHash, hk₃.route_iff] at hroute
    have hinsert : Insertion H b totalDifficulty receipts meanwhile c _ _ := .head hk hparent hwins hroute
    have hcommon : c.parentOf^[j] c.lastBlockHash ∉ (c.passed b.info.parentHash k).reverse ++
      [b.info.hash H] := by
      have hne := hb.ancestor_ne h.treelike.rooted hroute.to_le
      rw [← hroute.meet] at hne
      simpa [hne] using hroute.notMem_to
    have hfrom := hroute.notMem_from h.treelike.rooted h.head.1
    change Post (askAll meanwhile) _ _
    rw [hk₃.headBlocks, hk₃.passed, hk₃.passed, hk₃.parentOf, hk₃.lastBlockHash]
    simp only [Post, returns_bind, returns_modify, returns_pure]
    refine ⟨_, rfl, ?_⟩
    rw [takeWhile_ne_append hfrom, dropWhile_ne_append hfrom, filter_cons_of_neg (by simp),
      filter_ne_of_notMem hcommon]
    exact hinsert
  | false =>
    simp only [Bool.false_eq_true, if_false, returns_bind, returns_lift, returns_pure, Post, returns_modify]
    exact ⟨_, rfl, .side hk₃ hparent hwins⟩

/-- What an import must find for the index to stay right, apart from what it checks itself. -/
structure Sane (H : Hasher) (c : BlockChain) (b : VerifiedBlock) : Prop where
  ne_zero : b.info.hash H ≠ 0
  /-- A stored block of the same hash is the same one. -/
  again : ∀ b' ∈ c.block (b.info.hash H), b'.info.number = b.info.number ∧
    b'.info.parentHash = b.info.parentHash
  /-- The number that stands for no block. -/
  number_ne : b.info.number.toNat ≠ 2 ^ 32 - 1
  /-- Of a parent that looks invalid, `verify` checks nothing. -/
  valid : ∀ parent ∈ c.block b.info.parentHash, parent.info.isValid

instance : Decidable (Sane H c b) := decidable_of_iff
  (b.info.hash H ≠ 0 ∧ (∀ b' ∈ c.block (b.info.hash H), b'.info.number = b.info.number ∧
    b'.info.parentHash = b.info.parentHash) ∧ b.info.number.toNat ≠ 2 ^ 32 - 1 ∧
    ∀ parent ∈ c.block b.info.parentHash, parent.info.isValid)
  ⟨fun h => ⟨h.1, h.2.1, h.2.2.1, h.2.2.2⟩, fun h => ⟨h.ne_zero, h.again, h.number_ne, h.valid⟩⟩

theorem Treelike.block_number (h : Treelike H c) (hs : c.Stored hash) {b : VerifiedBlock}
    (hb : c.block hash = some b) : b.info.number.toNat = c.numberOf hash := by
  unfold BlockChain.block at hb
  split_ifs at hb with hg
  · obtain rfl := Option.some.inj hb
    obtain ⟨-, hzero, -, hnumber⟩ := h.genesis
    rw [hg, hzero, hnumber]
    rfl
  · obtain ⟨b', hb', -, -, hnumber, -⟩ := h.block hash hs hg
    obtain rfl := Option.some.inj (hb.symm.trans hb')
    exact hnumber

def Inserted (c : BlockChain) (hash : H256) : Prop :=
  hash = c.genesisHash ∨ (c.blocks hash).isSome ∧ c.Stored hash

theorem Treelike.stored_of_inserted (h : Treelike H c) (hi : c.Inserted hash) : c.Stored hash := by
  rcases hi with rfl | ⟨-, hs⟩
  · exact h.genesis.1
  · exact hs

theorem Near.inserted (h : Near c c') : c'.Inserted = c.Inserted := by
  funext hash
  unfold Inserted
  rw [h.genesisHash, h.blocks, h.stored]

theorem Reads.inserted (h : Reads c c') : c'.Inserted = c.Inserted := by
  funext hash
  unfold Inserted Stored
  rw [h.detailsOf, h.eq]

theorem isKnown_reads (c : BlockChain) (hash : H256) (isCurrent : Bool) :
    Post (isKnown hash isCurrent) c fun known c' => Reads c c' ∧ (known = true → c.Inserted hash) ∧
      (isCurrent = false → known = false → ¬ c.Inserted hash) := by
  have hrefl := Reads.refl c
  have hstored : c.Stored hash ↔
    ¬ ((c.details hash).isNone = true ∧ (c.detailsDB hash).isNone = true) := by
    unfold Stored detailsOf
    cases c.details hash <;> simp [isSome_iff_ne_none]
  unfold isKnown
  simp only [post_bind, post_get, post_ite, post_pure]
  by_cases hgenesis : hash = c.genesisHash
  · rw [if_pos hgenesis]
    exact ⟨hrefl, fun _ => .inl hgenesis, fun _ hfalse => Bool.noConfusion hfalse⟩
  by_cases hblock : (c.blocks hash).isNone = true
  · rw [if_neg hgenesis, if_pos hblock]
    refine ⟨hrefl, fun htrue => Bool.noConfusion htrue, fun _ _ hi => ?_⟩
    have hsome := (hi.resolve_left hgenesis).1
    simp [isNone_iff_eq_none.mp hblock] at hsome
  by_cases hdetails : (c.details hash).isNone = true ∧ (c.detailsDB hash).isNone = true
  · rw [if_neg hgenesis, if_neg hblock, if_pos hdetails]
    refine ⟨hrefl, fun htrue => Bool.noConfusion htrue, fun _ _ hi => ?_⟩
    exact hstored.mp (hi.resolve_left hgenesis).2 hdetails
  have hi : c.Inserted hash := .inr ⟨by simpa [isSome_iff_ne_none] using hblock, hstored.mpr hdetails⟩
  rw [if_neg hgenesis, if_neg hblock, if_neg hdetails]
  cases isCurrent with
  | false => exact ⟨hrefl, fun _ => hi, fun _ hfalse => Bool.noConfusion hfalse⟩
  | true =>
    rw [if_neg (by decide)]
    apply (queryDetails_reads c hash).mono
    intro d c' hquery
    exact ⟨hquery.2.1, fun _ => hi, fun hfalse => Bool.noConfusion hfalse⟩

theorem isKnown_spec (h : c.Backed) (hash : H256) (isCurrent : Bool) :
    Post (isKnown hash isCurrent) c fun known c' => Kin c c' ∧ (known = true → c.Inserted hash) ∧
      (isCurrent = false → known = false → ¬ c.Inserted hash) :=
  (isKnown_reads c hash isCurrent).mono fun _ _ hread => ⟨hread.1.kin h, hread.2⟩

theorem isNull_eq_false (h : Treelike H c) (hs : c.Stored hash) :
    ((c.detailsOf hash).getD .null).isNull = false := by
  have hlt : ((c.detailsOf hash).getD .null).number < 2 ^ 32 - 1 := h.number_lt hash hs
  exact decide_eq_false (by omega)

variable {body : Option (H256 × H256)} {s : BlockHeader.Strictness}

theorem verify_number {h parent : BlockHeader}
    (hok : h.verify H s parent body = .ok ()) (hvalid : parent.isValid) :
    h.number = parent.number + 1 ∧ h.number.toNat ≤ 2 ^ 32 - 1 := by
  unfold BlockHeader.verify at hok
  by_cases hlarge : h.number.toNat > 2 ^ 32 - 1
  · rw [if_pos hlarge] at hok
    cases hok
  by_cases hgas : s ≠ .CheckNothingNew ∧ h.gasUsed > h.gasLimit
  · rw [if_neg hlarge, if_pos hgas] at hok
    cases hok
  by_cases hnumber : h.number = parent.number + 1
  · exact ⟨hnumber, Nat.le_of_not_lt hlarge⟩
  · rw [if_neg hlarge, if_neg hgas, if_pos hvalid, if_pos hnumber] at hok
    by_cases hhash : h.parentHash ≠ 0 ∧ parent.hash H ≠ h.parentHash
    · rw [if_pos hhash] at hok
      cases hok
    by_cases htime : h.timestamp ≤ parent.timestamp
    · rw [if_neg hhash, if_pos htime] at hok
      cases hok
    · rw [if_neg hhash, if_neg htime] at hok
      cases hok

theorem fits_of_verify (h : Treelike H c) (hsane : Sane H c b)
    (hparent : c.Stored b.info.parentHash) {parent : VerifiedBlock}
    (hblock : c.block b.info.parentHash = some parent)
    {memo : H256} (hok : b.info.verify H s { parent.info with memo := memo } body = .ok ()) :
    Fits H c b := by
  obtain ⟨hnumber, hle⟩ := verify_number hok (hsane.valid parent hblock)
  have hparentNumber := h.block_number hparent hblock
  have hlt := h.number_lt _ hparent
  have hne := hsane.number_ne
  have hsucc : b.info.number.toNat = c.numberOf b.info.parentHash + 1 := by
    rw [hnumber, BitVec.toNat_add]
    change (parent.info.number.toNat + 1) % 2 ^ 256 = _
    omega
  have hgenesis : b.info.hash H ≠ c.genesisHash := by
    intro heq
    have hown : c.block (b.info.hash H) = some c.genesisBlock := if_pos heq
    have hzero := (hsane.again _ hown).1
    rw [h.genesis.2.2.2] at hzero
    rw [← hzero] at hsucc
    simp at hsucc
  constructor
  · exact hsane.ne_zero
  · exact hgenesis
  · exact hparent
  · exact hsucc
  · omega
  · intro hs
    obtain ⟨b', hb', -, -, hnumber', hparent', -⟩ := h.block _ hs hgenesis
    have hown : c.block (b.info.hash H) = some b' := (if_neg hgenesis).trans hb'
    obtain ⟨hn, hp⟩ := hsane.again b' hown
    rw [← hnumber', ← hparent', hn, hp]
    exact ⟨rfl, rfl⟩

inductive Refused (H : Hasher) (enact : VerifiedBlock → Except EnactError (List TransactionReceipt))
    (utcTime : U256) (c : BlockChain) (b : VerifiedBlock) : ImportError → Prop where
  | known (h : c.Inserted (b.info.hash H)) : Refused H enact utcTime c b .AlreadyHaveBlock
  | orphan (h : ¬ c.Inserted b.info.parentHash) : Refused H enact utcTime c b .UnknownParent
  | future (h : b.info.timestamp > utcTime) (hparams : c.allowFutureBlocks = false) :
    Refused H enact utcTime c b .FutureTime
  | absent (h : c.block b.info.parentHash = none) : Refused H enact utcTime c b .InvalidParentHash
  | header {parent : VerifiedBlock} {e : HeaderError}
    (hparent : c.block b.info.parentHash = some parent)
    (h : b.info.verify H .QuickNonce { parent.info with memo := b.info.parentHash } none = .error e) :
    Refused H enact utcTime c b (.header e)
  | enact {e : EnactError} (h : enact b = .error e) : Refused H enact utcTime c b e.toImportError

/-- An import returns. Either the chain is as before but for the cache of the details, or the block
has its place in the tree and is inserted with the total difficulty of its parent and its own
difficulty. -/
theorem import_cases (h : Headed H c) (hsane : Sane H c b)
    (enact : VerifiedBlock → Except EnactError (List TransactionReceipt))
    (utcTime : U256) (mustBeNew : Bool) (meanwhile : List ℕ) :
    Returns (import_ H enact utcTime mustBeNew meanwhile b) c fun r c' =>
      (∃ e, r = .error e ∧ Refused H enact utcTime c b e) ∧ Kin c c' ∨
      ∃ route receipts, r = .ok route ∧ Fits H c b ∧ enact b = .ok receipts ∧
        Insertion H b (c.weightOf b.info.parentHash + b.info.difficulty) receipts meanwhile c route c' := by
  have hnew : Post (alreadyHave mustBeNew (b.info.hash H)) c fun known c' => Kin c c' ∧
    (known = true → c.Inserted (b.info.hash H)) := by
    unfold alreadyHave
    rw [post_ite]
    split_ifs
    · exact (isKnown_spec h.treelike.backed _ _).mono fun _ _ hk => ⟨hk.1, hk.2.1⟩
    · exact (post_pure _).mpr ⟨.refl h.treelike.backed, fun hfalse => Bool.noConfusion hfalse⟩
  unfold import_
  simp only [returns_bind, returns_lift, returns_get, returns_ite, returns_pure]
  apply hnew.mono
  intro notNew c₁ hnew₁
  obtain ⟨hk₁, hinserted⟩ := hnew₁
  by_cases hold : notNew = true
  · rw [if_pos hold]
    exact .inl ⟨⟨_, rfl, .known (hinserted hold)⟩, hk₁⟩
  rw [if_neg hold]
  apply (isKnown_spec hk₁.backed b.info.parentHash false).mono
  intro known c₂ hknown
  obtain ⟨hk₁₂, hyes, hno⟩ := hknown
  rw [hk₁.inserted] at hyes hno
  have hk₂ := hk₁.trans hk₁₂
  by_cases hunknown : (!known) = true
  · rw [if_pos hunknown]
    exact .inl ⟨⟨_, rfl, .orphan (hno rfl (by simpa using hunknown))⟩, hk₂⟩
  rw [if_neg hunknown]
  have hparent : c.Stored b.info.parentHash :=
    h.treelike.stored_of_inserted (hyes (by simpa using hunknown))
  have h₂ := h.near hk₂.toNear
  apply (queryDetails_spec hk₂.backed b.info.parentHash).mono
  intro pd c₃ hquery
  obtain ⟨hpd, hk₂₃, -⟩ := hquery
  have hk := hk₂.trans hk₂₃
  have hweight : pd.totalDifficulty = c.weightOf b.info.parentHash := by
    rw [hpd, ← hk₂.weightOf]
    rfl
  have hparams : c₃.allowFutureBlocks = c.allowFutureBlocks :=
    hk.get BlockChain.allowFutureBlocks fun _ _ _ _ => rfl
  rw [if_neg (by simp [hpd, isNull_eq_false h₂.treelike (hk₂.stored ▸ hparent)]), hparams]
  by_cases hfuture : b.info.timestamp > utcTime ∧ (!c.allowFutureBlocks) = true
  · rw [if_pos hfuture]
    exact .inl ⟨⟨_, rfl, .future hfuture.1 (by simpa using hfuture.2)⟩, hk⟩
  have hblock := h.treelike.block_eq hparent
  rw [if_neg hfuture, hk.block, hblock]
  dsimp only
  cases hverify : b.info.verify H .QuickNonce
    { (c.blockOf b.info.parentHash).info with memo := b.info.parentHash } none with
  | error e => exact (returns_pure _).mpr (.inl ⟨⟨_, rfl, .header hblock hverify⟩, hk⟩)
  | ok u =>
    have hfits := fits_of_verify h.treelike hsane hparent hblock hverify
    cases henact : enact b with
    | error e => exact (returns_pure _).mpr (.inl ⟨⟨_, rfl, .enact henact⟩, hk⟩)
    | ok receipts =>
      apply (insertBlockAndExtras_cases (h.near hk.toNear) (hk.fits hfits) _ receipts meanwhile).mono
      intro r c' hinsert
      obtain ⟨route, rfl, hinsert⟩ := hinsert
      rw [hweight] at hinsert
      exact .inr ⟨route, receipts, rfl, hfits, rfl, hinsert.of_kin hk⟩

theorem lastBlockNumber_write (h : Headed H c) (hb : Fits H c b) {parentDetails : BlockDetails}
    (totalDifficulty : U256) (receipts : List TransactionReceipt) (blocks : List VerifiedBlock) :
    (write H b totalDifficulty receipts parentDetails true blocks c).lastBlockNumber =
    b.info.number.toNat := by
  have hlt := hb.number_lt
  have hmod : b.info.number.toNat % 2 ^ 32 = b.info.number.toNat := Nat.mod_eq_of_lt (by omega)
  change (if true = true ∧ c.lastBlockHash ≠ b.info.hash H then b.info.number.toNat % 2 ^ 32
    else c.lastBlockNumber) = _
  split_ifs with hne
  · exact hmod
  · have heq : c.lastBlockHash = b.info.hash H := by simpa using hne
    rw [← h.head.2, heq, (hb.again (heq ▸ h.head.1)).1]

section
variable {parentDetails : BlockDetails} (h : Headed H c) (hb : Fits H c b)
  (hparent : (c.detailsOf b.info.parentHash).map (·.place) = some parentDetails.place)
  (totalDifficulty : U256) (receipts : List TransactionReceipt)
include h hb hparent

theorem headed_write_side (blocks : List VerifiedBlock) :
    Headed H (write H b totalDifficulty receipts parentDetails false blocks c) := by
  have hg := grown_write hb h.treelike.backed hparent totalDifficulty receipts false blocks
  refine ⟨h.treelike.grow hb hg rfl rfl rfl, ?_, ?_⟩
  · rw [hg.stored]
    exact .inr h.head.1
  · exact (hg.numberOf _ h.head.1).trans h.head.2

theorem headed_write_head (blocks : List VerifiedBlock) :
    Headed H (write H b totalDifficulty receipts parentDetails true blocks c) := by
  have hg := grown_write hb h.treelike.backed hparent totalDifficulty receipts true blocks
  refine ⟨h.treelike.grow hb hg rfl rfl rfl, ?_⟩
  rw [lastBlockNumber_write h hb, hg.stored]
  exact ⟨.inl rfl, hg.number⟩

end

theorem Near.parent_place (hn : Near c c₁)
    (hparent : (c.detailsOf b.info.parentHash).map (·.core) = some d.core) :
    (c₁.detailsOf b.info.parentHash).map (·.place) = some d.place := by
  have hsome : (c.detailsOf b.info.parentHash).map (·.core) = (some d).map (·.core) := hparent
  rw [hn.place, place_of_core hsome]
  rfl

theorem weightOf_write {td : U256} {receipts : List TransactionReceipt}
    (hparent : (c.detailsOf b.info.parentHash).map (·.core) = some d.core) (best : Bool)
    (blocks : List VerifiedBlock) {c' : BlockChain}
    (hc' : c' = write H b td receipts d best blocks c) :
    (∀ x, x ≠ b.info.hash H → c'.weightOf x = c.weightOf x) ∧
      (c'.weightOf (b.info.hash H) = td ∨ c.Stored (b.info.hash H) ∧
        c'.weightOf (b.info.hash H) = c.weightOf (b.info.hash H)) := by
  have hcache (x : H256) : c'.details x = c.details x := by rw [hc']; rfl
  have hdb : c'.detailsDB = update (update c.detailsDB b.info.parentHash (some d)) (b.info.hash H)
      (some ⟨b.info.number.toNat % 2 ^ 32, td, b.info.parentHash, []⟩) := by
    rw [hc']
    rfl
  unfold weightOf Stored
  constructor
  · intro x hx
    by_cases hxp : x = b.info.parentHash
    · subst hxp
      cases hcached : c.details b.info.parentHash with
      | some d' => simp [detailsOf, hcache, hcached]
      | none =>
        have hstored : c.detailsOf b.info.parentHash = c.detailsDB b.info.parentHash := by
          simp [detailsOf, hcached]
        have hnew : c'.detailsOf b.info.parentHash = some d := by
          simp [detailsOf, hcache, hcached, hdb, update_of_ne hx]
        obtain ⟨d', hd', hcore⟩ := map_eq_some_iff.mp hparent
        rw [hnew, hd']
        exact (congrArg BlockDetails.totalDifficulty hcore).symm
    · simp [detailsOf, hcache, hdb, update_of_ne hx, update_of_ne hxp]
  · cases hcached : c.details (b.info.hash H) with
    | some d' => simp [detailsOf, hcache, hcached]
    | none => simp [detailsOf, hcache, hcached, hdb]

namespace Insertion
variable {totalDifficulty : U256} {receipts : List TransactionReceipt} {meanwhile : List ℕ}
  {route : ImportRoute} (hinsert : Insertion H b totalDifficulty receipts meanwhile c route c')
include hinsert

theorem written : ∃ c₀ d blocks, Near c c₀ ∧
    (c.detailsOf b.info.parentHash).map (·.core) = some (BlockDetails.core d) ∧
    c' = write H b totalDifficulty receipts d (c.wins b totalDifficulty) blocks c₀ := by
  cases hinsert with
  | side hkin hparent hbest =>
    rw [hbest]
    exact ⟨_, _, _, hkin.toNear.trans (.asked hkin.backed meanwhile), hparent, rfl⟩
  | head hkin hparent hbest hroute =>
    rename_i j k
    rw [hbest]
    have hreverted := hkin.toNear.trans (.reverted hkin.backed j)
    have hblooms := hreverted.trans (.addBlooms hreverted.backed (c.headBlocks b k) (H := H))
    exact ⟨_, _, _, hblooms.trans (.asked hblooms.backed meanwhile), hparent, rfl⟩

theorem weightOf_eq : (∀ x, x ≠ b.info.hash H → c'.weightOf x = c.weightOf x) ∧
    (c'.weightOf (b.info.hash H) = totalDifficulty ∨ c.Stored (b.info.hash H) ∧
      c'.weightOf (b.info.hash H) = c.weightOf (b.info.hash H)) := by
  obtain ⟨c₀, d, blocks, hn, hparent, hc'⟩ := hinsert.written
  rw [← hn.core] at hparent
  have hwrite := weightOf_write hparent _ blocks hc'
  rwa [hn.weightOf, hn.stored] at hwrite

variable (hb : Fits H c b)
include hb

theorem grown : Grown H b c c' := by
  obtain ⟨c₀, d, blocks, hn, hparent, rfl⟩ := hinsert.written
  obtain ⟨hstored, hnumberOf, hparentOf, hnumber, hparent', hbacked⟩ :=
    grown_write (hn.fits hb) hn.backed (hn.parent_place hparent)
    totalDifficulty receipts (c.wins b totalDifficulty) blocks
  rw [hn.stored] at hstored hnumberOf hparentOf
  rw [hn.numberOf] at hnumberOf
  rw [hn.parentOf] at hparentOf
  exact ⟨hstored, hnumberOf, hparentOf, hnumber, hparent', hbacked⟩

theorem headed (h : Headed H c) : Headed H c' := by
  obtain ⟨c₀, d, blocks, hn, hparent, rfl⟩ := hinsert.written
  cases c.wins b totalDifficulty with
  | true =>
    exact headed_write_head (h.near hn) (hn.fits hb) (hn.parent_place hparent) totalDifficulty receipts blocks
  | false =>
    exact headed_write_side (h.near hn) (hn.fits hb) (hn.parent_place hparent) totalDifficulty receipts blocks

end Insertion

theorem import_child (h : Headed H c) (hsane : Sane H c b) (hnew : ¬ c.Inserted (b.info.hash H))
    (hparent : b.info.parentHash = c.lastBlockHash)
    (enact : VerifiedBlock → Except EnactError (List TransactionReceipt))
    {receipts : List TransactionReceipt} (henact : enact b = .ok receipts) {utcTime : U256}
    (htime : b.info.timestamp ≤ utcTime)
    (hverify : b.info.verify H .QuickNonce
    { (c.blockOf c.lastBlockHash).info with memo := c.lastBlockHash } none = .ok ())
    (hheavier : c.weightOf c.lastBlockHash < c.weightOf c.lastBlockHash + b.info.difficulty)
      (mustBeNew : Bool) (meanwhile : List ℕ) :
    ∃ route c', (import_ H enact utcTime mustBeNew meanwhile b).run c = .ok (.ok route, c') ∧ Fits H c b ∧
      Insertion H b (c.weightOf c.lastBlockHash + b.info.difficulty) receipts meanwhile c route c' ∧
      c.wins b (c.weightOf c.lastBlockHash + b.info.difficulty) = true := by
  obtain ⟨r, c', hrun, hcases⟩ := import_cases h hsane enact utcTime mustBeNew meanwhile
  have hblock := h.treelike.block_eq h.head.1
  have hhead : c.Inserted c.lastBlockHash := by
    by_cases hgenesis : c.lastBlockHash = c.genesisHash
    · exact .inl hgenesis
    · obtain ⟨b', hb', -⟩ := h.treelike.block _ h.head.1 hgenesis
      exact .inr ⟨by rw [hb']; rfl, h.head.1⟩
  rcases hcases with ⟨⟨e, rfl, hrefused⟩, -⟩ | ⟨route, receipts', rfl, hb, henact', hinsert⟩
  · exfalso
    cases hrefused with
    | known hinserted => exact hnew hinserted
    | orphan hmissing => exact hmissing (hparent ▸ hhead)
    | future hlate => exact absurd htime (BitVec.not_le.mpr hlate)
    | absent hnone =>
      rw [hparent, hblock] at hnone
      cases hnone
    | header hsome hbad =>
      rw [hparent, hblock] at hsome
      obtain rfl := Option.some.inj hsome
      rw [hparent, hverify] at hbad
      cases hbad
    | enact hbad =>
      rw [henact] at hbad
      cases hbad
  · obtain rfl := Except.ok.inj (henact.symm.trans henact')
    rw [hparent] at hinsert
    refine ⟨route, c', hrun, hb, hinsert, ?_⟩
    unfold wins isBest
    exact decide_eq_true (.inl hheavier)

end BlockChain
end Vapory
