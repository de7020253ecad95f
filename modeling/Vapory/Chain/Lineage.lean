import Vapory.Chain.NumberIndex

/-! The canonical chain as a list of blocks, and how an import changes it. -/
namespace Vapory.BlockChain
open List

variable {H : Hasher} {c c' : BlockChain} {b : VerifiedBlock} {hash : H256}

def lineage (c : BlockChain) (hash : H256) : List H256 :=
  (List.range (c.numberOf hash + 1)).map (c.ancestorOf hash)

def canonical (c : BlockChain) : List H256 := c.lineage c.lastBlockHash

def canonicalBlock (c : BlockChain) (n : ℕ) : VerifiedBlock :=
  c.blockOf (c.ancestorOf c.lastBlockHash n)

def Same (H : Hasher) (c : BlockChain) (b : VerifiedBlock) : Prop :=
  ∀ b' ∈ c.block (b.info.hash H), b' = b

instance : Decidable (Same H c b) := inferInstanceAs (Decidable (∀ _ ∈ _, _))

theorem Near.lineage (h : Near c c') : c'.lineage = c.lineage := by
  funext hash
  unfold BlockChain.lineage
  rw [h.numberOf, h.ancestorOf]

theorem Near.canonical (h : Near c c') : c'.canonical = c.canonical := by
  unfold BlockChain.canonical
  rw [h.lineage, h.lastBlockHash]

theorem Near.canonicalBlock (h : Near c c') : c'.canonicalBlock = c.canonicalBlock := by
  funext n
  unfold BlockChain.canonicalBlock
  rw [h.blockOf, h.ancestorOf, h.lastBlockHash]

theorem lineage_eq {k : ℕ} (hk : k ≤ c.numberOf hash) :
    c.lineage hash = (List.range (c.numberOf hash - k + 1)).map (c.ancestorOf hash) ++
    (c.passed hash k).reverse := by
  induction k with
  | zero => simp [lineage, passed]
  | succ k ih =>
    have hback : c.numberOf hash - k + 1 = c.numberOf hash - (k + 1) + 1 + 1 := by omega
    have hancestor : c.ancestorOf hash (c.numberOf hash - (k + 1) + 1) = c.parentOf^[k] hash := by
      unfold ancestorOf ancestor
      congr 1
      omega
    rw [ih (by omega), hback, range_succ, map_append, passed_add, reverse_append, append_assoc]
    simp [passed, hancestor]

theorem Treelike.stored_of_mem_lineage (h : Treelike H c) (hs : c.Stored hash) {x : H256}
    (hx : x ∈ c.lineage hash) : c.Stored x := by
  obtain ⟨n, -, rfl⟩ := mem_map.mp hx
  exact h.rooted.mem_ancestor hs n

theorem Headed.ancestorOf_zero (h : Headed H c) : c.ancestorOf c.lastBlockHash 0 = c.genesisHash := by
  have hroot := h.treelike.rooted
  apply h.treelike.genesis_of_zero
  · exact hroot.mem_ancestor h.head.1 0
  · exact hroot.height_ancestor h.head.1 (Nat.zero_le _)

theorem Headed.canonical_nodup (h : Headed H c) : c.canonical.Nodup := by
  apply List.Nodup.map_on _ nodup_range
  intro m hm n hn heq
  have hheight (n : ℕ) (hn : n ∈ List.range (c.numberOf c.lastBlockHash + 1)) :
    c.numberOf (c.ancestorOf c.lastBlockHash n) = n :=
    h.treelike.rooted.height_ancestor h.head.1 (Nat.le_of_lt_succ (mem_range.mp hn))
  rw [← hheight m hm, ← hheight n hn, heq]

/-- The blocks on the way from the common ancestor are those that are not canonical yet. -/
theorem Route.mem_passed_iff (h : Headed H c) {y x : H256} {j k : ℕ} (hy : c.Stored y)
    (hroute : Route c c.lastBlockHash y j k) : x ∈ c.passed y k ↔ x ∈ c.lineage y ∧
    x ∉ c.canonical := by
  have hroot := h.treelike.rooted
  have hfrom := hroute.from_le
  have hto := hroute.to_le
  have hfork := hroute.fork hroot h.head.1 hy
  constructor
  · intro hx
    obtain ⟨i, hi, rfl⟩ := mem_map.mp hx
    have hik := mem_range.mp hi
    have hnumber := (hroot.iterate hy (hik.le.trans hto)).2
    constructor
    · rw [lineage_eq hto]
      exact mem_append_right _ (mem_reverse.mpr hx)
    · intro hmem
      obtain ⟨n, hn, heq⟩ := mem_map.mp hmem
      have hle : n ≤ c.numberOf c.lastBlockHash := Nat.le_of_lt_succ (mem_range.mp hn)
      have hheight : c.numberOf (c.ancestorOf c.lastBlockHash n) = n := hroot.height_ancestor h.head.1 hle
      rw [heq] at hheight
      exact hroute.apart i hik (c.numberOf c.lastBlockHash - n) (by omega) heq.symm
  · intro hx
    obtain ⟨hmem, hnot⟩ := hx
    rw [lineage_eq hto] at hmem
    rcases mem_append.mp hmem with hkeep | hpassed
    · obtain ⟨n, hn, rfl⟩ := mem_map.mp hkeep
      have hle : n ≤ c.numberOf y - k := Nat.le_of_lt_succ (mem_range.mp hn)
      rw [hroute.ancestorOf_eq hroot h.head.1 hy hle] at hnot
      exact absurd (mem_map_of_mem (mem_range.mpr (by omega))) hnot
    · exact mem_reverse.mp hpassed

theorem Route.canonical_subset (h : Headed H c) {y : H256} {j k : ℕ} (hy : c.Stored y)
    (hroute : Route c c.lastBlockHash y j k) (hj : j = 0) : c.canonical ⊆ c.lineage y := by
  have hroot := h.treelike.rooted
  have hto := hroute.to_le
  have hfork := hroute.fork hroot h.head.1 hy
  intro x hx
  obtain ⟨n, hn, rfl⟩ := mem_map.mp hx
  have hlt := mem_range.mp hn
  rw [← hroute.ancestorOf_eq hroot h.head.1 hy (by omega)]
  exact mem_map_of_mem (mem_range.mpr (by omega))

namespace Insertion
variable {td : U256} {receipts : List TransactionReceipt} {meanwhile : List ℕ} {route : ImportRoute}
  (hinsert : Insertion H b td receipts meanwhile c route c')
include hinsert

theorem block_eq (hash : H256) : c'.block hash =
    if hash = c.genesisHash then some c.genesisBlock else Function.update c.blocks (b.info.hash H)
    (some b) hash := by
  obtain ⟨c₀, d, blocks, hn, -, rfl⟩ := hinsert.written
  rw [← hn.genesisHash, ← hn.genesisBlock, ← hn.blocks]
  rfl

theorem lastBlockHash : c'.lastBlockHash = if c.wins b td then b.info.hash H else c.lastBlockHash := by
  obtain ⟨c₀, d, blocks, hn, -, rfl⟩ := hinsert.written
  rw [← hn.lastBlockHash]
  rfl

variable (hb : Fits H c b)
include hb

theorem blockOf_new : c'.blockOf (b.info.hash H) = b := by
  unfold blockOf
  rw [hinsert.block_eq, if_neg hb.ne_genesis, Function.update_self]
  rfl

variable (h : Headed H c)
include h

theorem blockOf_old (hsame : Same H c b) (hs : c.Stored hash) : c'.blockOf hash = c.blockOf hash := by
  by_cases hnew : hash = b.info.hash H
  · rw [hnew] at hs ⊢
    rw [hinsert.blockOf_new hb]
    exact (hsame _ (h.treelike.block_eq hs)).symm
  · have hblock : c'.block hash = c.block hash := by
      rw [hinsert.block_eq, Function.update_of_ne hnew]
      rfl
    have hold := h.treelike.block_eq hs
    unfold blockOf
    rw [hblock, hold]
    rfl

theorem lineage_old (hs : c.Stored hash) : c'.lineage hash = c.lineage hash := by
  have hg := hinsert.grown hb
  unfold lineage
  rw [hg.numberOf hash hs]
  apply map_congr_left
  intro n _
  exact h.treelike.rooted.ancestor_congr hg.parentOf hg.numberOf hs n

theorem lineage_new : c'.lineage (b.info.hash H) = c.lineage b.info.parentHash ++ [b.info.hash H] := by
  have hg := hinsert.grown hb
  have hself : c'.ancestorOf (b.info.hash H) (c'.numberOf (b.info.hash H)) = b.info.hash H :=
    ancestor_self _
  have hlast : c'.ancestorOf (b.info.hash H) (c.numberOf b.info.parentHash + 1) = b.info.hash H := by
    rw [← hb.number, ← hg.number, hself]
  unfold lineage
  rw [hg.number, hb.number, range_succ, map_append, map_singleton, hlast]
  congr 1
  apply map_congr_left
  intro n hn
  have hle : n ≤ c.numberOf b.info.parentHash := Nat.le_of_lt_succ (mem_range.mp hn)
  exact hg.ancestorOf_of_le h.treelike.rooted (hinsert.headed hb h).treelike.rooted hb hle

theorem canonical_head (hbest : c.wins b td = true) :
    c'.canonical = c.lineage b.info.parentHash ++ [b.info.hash H] := by
  unfold canonical
  rw [hinsert.lastBlockHash, if_pos hbest, hinsert.lineage_new hb h]

/-- The dead blocks are taken from the top of the canonical chain, and the live ones are put
there. -/
theorem canonical_eq : ∃ keep, c.canonical = keep ++ route.deadBlocks.reverse ∧
    c'.canonical = keep ++ route.liveBlocks := by
  have hlast := hinsert.lastBlockHash
  unfold canonical
  rw [hlast]
  cases hinsert with
  | side hkin hparent hbest =>
    have hside : Insertion H b td receipts meanwhile c _ _ := .side hkin hparent hbest
    rw [hbest, if_neg Bool.false_ne_true, hside.lineage_old hb h h.head.1]
    exact ⟨c.lineage c.lastBlockHash, (append_nil _).symm, (append_nil _).symm⟩
  | head hkin hparent hbest hroute =>
    rename_i j k
    have hhead : Insertion H b td receipts meanwhile c _ _ := .head hkin hparent hbest hroute
    have hroot := h.treelike.rooted
    have hfork := hroute.fork hroot h.head.1 hb.parent
    refine ⟨_, lineage_eq hroute.from_le, ?_⟩
    rw [if_pos hbest, hhead.lineage_new hb h, lineage_eq hroute.to_le, append_assoc, hfork]
    congr 1
    apply map_congr_left
    intro n hn
    have hle : n ≤ c.numberOf b.info.parentHash - k := Nat.le_of_lt_succ (mem_range.mp hn)
    exact hroute.ancestorOf_eq hroot h.head.1 hb.parent hle

variable (hsame : Same H c b)
include hsame

theorem blockOf_ancestor_old (hs : c.Stored hash) (n : ℕ) :
    c'.blockOf (c'.ancestorOf hash n) = c.blockOf (c.ancestorOf hash n) := by
  have hg := hinsert.grown hb
  have hroot := h.treelike.rooted
  have hancestor : c'.ancestorOf hash n = c.ancestorOf hash n :=
    hroot.ancestor_congr hg.parentOf hg.numberOf hs n
  have hstored : c.Stored (c.ancestorOf hash n) := hroot.mem_ancestor hs n
  rw [hancestor, hinsert.blockOf_old hb h hsame hstored]

theorem canonicalBlock_side (hbest : c.wins b td = false) :
    c'.canonicalBlock = c.canonicalBlock ∧ c'.lastBlockNumber = c.lastBlockNumber := by
  have hlast : c'.lastBlockHash = c.lastBlockHash := by
    rw [hinsert.lastBlockHash, hbest, if_neg Bool.false_ne_true]
  constructor
  · funext n
    unfold canonicalBlock
    rw [hlast]
    exact hinsert.blockOf_ancestor_old hb h hsame h.head.1 n
  · rw [← (hinsert.headed hb h).head.2, hlast, (hinsert.grown hb).numberOf _ h.head.1, h.head.2]

/-- With a new head the canonical blocks are the same up to the common ancestor, and above it they
are those that are indexed. -/
theorem canonicalBlock_head (hbest : c.wins b td = true) {j k : ℕ}
    (hroute : Route c c.lastBlockHash b.info.parentHash j k) :
    (∀ n ≤ c.lastBlockNumber - j, c'.canonicalBlock n = c.canonicalBlock n) ∧
      (∀ n, c.lastBlockNumber - j < n → n ≤ b.info.number.toNat →
        c'.canonicalBlock n ∈ c.headBlocks b k ∧ (c'.canonicalBlock n).info.number.toNat = n) ∧
      c'.lastBlockNumber = b.info.number.toNat := by
  have hg := hinsert.grown hb
  have hroot := h.treelike.rooted
  have hroot' := (hinsert.headed hb h).treelike.rooted
  have hlast : c'.lastBlockHash = b.info.hash H := by rw [hinsert.lastBlockHash, if_pos hbest]
  have hnumber := hb.number
  have hfork := hroute.fork hroot h.head.1 hb.parent
  rw [h.head.2] at hfork
  have hparent (n : ℕ) (hn : n ≤ c.numberOf b.info.parentHash) :
      c'.canonicalBlock n = c.blockOf (c.ancestorOf b.info.parentHash n) := by
    have hstored : c.Stored (c.ancestorOf b.info.parentHash n) := hroot.mem_ancestor hb.parent n
    unfold canonicalBlock
    rw [hlast, hg.ancestorOf_of_le hroot hroot' hb hn, hinsert.blockOf_old hb h hsame hstored]
  refine ⟨fun n hn => ?_, fun n hlt hle => ?_, ?_⟩
  · rw [hparent n (by omega), hroute.ancestorOf_eq hroot h.head.1 hb.parent (by omega)]
    rfl
  · rcases Nat.lt_or_ge (c.numberOf b.info.parentHash) n with hnew | hold
    · obtain rfl : n = b.info.number.toNat := by omega
      have hself : c'.canonicalBlock b.info.number.toNat = b := by
        have hancestor : c'.ancestorOf (b.info.hash H) (c'.numberOf (b.info.hash H)) =
          b.info.hash H := ancestor_self _
        unfold canonicalBlock
        rw [hlast, ← hg.number, hancestor, hinsert.blockOf_new hb]
      rw [hself]
      exact ⟨mem_cons_self, rfl⟩
    · have hstored : c.Stored (c.ancestorOf b.info.parentHash n) := hroot.mem_ancestor hb.parent n
      have hpassed : c.ancestorOf b.info.parentHash n ∈ c.passed b.info.parentHash k :=
        mem_map.mpr ⟨_, mem_range.mpr (by omega), rfl⟩
      rw [hparent n hold, h.treelike.block_number hstored (h.treelike.block_eq hstored)]
      exact ⟨mem_cons_of_mem _ (mem_map_of_mem hpassed), hroot.height_ancestor hb.parent hold⟩
  · rw [← (hinsert.headed hb h).head.2, hlast, hg.number]

end Insertion

end Vapory.BlockChain
