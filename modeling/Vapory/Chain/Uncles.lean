import Vapory.Chain.EnactRoot
import Vapory.Chain.Lineage

/-! The uncles that the blocks of a chain cite, and their rewards. -/
namespace Vapory
open List Vapory.Except Nat Function

namespace VerifiedBlock

def headers (b : VerifiedBlock) : List BlockHeader := b.info :: b.uncles

def hashes (H : Hasher) (b : VerifiedBlock) : List H256 := b.headers.map fun h => h.hash H

end VerifiedBlock

namespace BlockChain

/-- The databases have the blocks of a chain, which is listed from the genesis block on, and its
details. -/
structure Holds (H : Hasher) (c : BlockChain) (chain : List VerifiedBlock) : Prop where
  genesis : ∃ g, chain[0]? = some g ∧ c.genesisHash = g.info.hash H
  block : ∀ b ∈ chain, c.block (b.info.hash H) = some b
  parent : ∀ i a b, chain[i]? = some a → chain[i + 1]? = some b →
    c.parentOf (b.info.hash H) = a.info.hash H
  root : c.parentOf c.genesisHash = 0 ∧ c.parentOf 0 = 0
  keyed : ∀ x b, c.isKnownCurrent x = true → c.block x = some b → b.info.hash H = x ∧ x ≠ 0

namespace Holds
variable {H : Hasher} {c : BlockChain} {chain : List VerifiedBlock}

theorem iterate_le (h : Holds H c chain) {i : ℕ} {b : VerifiedBlock} (hb : chain[i]? = some b)
    {k : ℕ} (hk : k ≤ i) : ∃ a, chain[i - k]? = some a ∧
    c.parentOf^[k] (b.info.hash H) = a.info.hash H := by
  induction k with
  | zero => exact ⟨b, hb, rfl⟩
  | succ k ih =>
    obtain ⟨a, ha, hiterate⟩ := ih (by omega)
    obtain ⟨a', ha'⟩ : ∃ a', chain[i - (k + 1)]? = some a' := by
      have hlt := (List.getElem?_eq_some_iff.mp ha).1
      exact ⟨_, List.getElem?_eq_getElem (by omega)⟩
    have hparent := h.parent (i - (k + 1)) a' a ha' (by rwa [show i - (k + 1) + 1 = i - k by omega])
    refine ⟨a', ha', ?_⟩
    rw [iterate_succ_apply', hiterate, hparent]

theorem iterate_gt (h : Holds H c chain) {i : ℕ} {b : VerifiedBlock} (hb : chain[i]? = some b)
    {k : ℕ} (hk : i < k) : c.parentOf^[k] (b.info.hash H) = 0 := by
  induction k with
  | zero => omega
  | succ k ih =>
    rw [iterate_succ_apply']
    obtain hlt | rfl := lt_or_eq_of_le (le_of_lt_succ hk)
    · rw [ih hlt, h.root.2]
    · obtain ⟨g, hg, hgenesis⟩ := h.genesis
      obtain ⟨a, ha, hiterate⟩ := h.iterate_le hb le_rfl
      rw [Nat.sub_self, hg] at ha
      obtain rfl := Option.some.inj ha
      rw [hiterate, ← hgenesis, h.root.1]

end Holds

theorem Treelike.hash_block {H : Hasher} {c : BlockChain} (h : Treelike H c)
    (hgenesis : c.genesisBlock.info.hash H = c.genesisHash) {x : H256} (hx : c.Stored x)
    {b : VerifiedBlock} (hb : c.block x = some b) : b.info.hash H = x ∧ x ≠ 0 := by
  unfold BlockChain.block at hb
  split_ifs at hb with heq
  · rw [← Option.some.inj hb, hgenesis, heq]
    exact ⟨rfl, h.genesis.2.2.1⟩
  · obtain ⟨b', hb', hash, hne, -⟩ := h.block x hx heq
    obtain rfl := Option.some.inj (hb.symm.trans hb')
    exact ⟨hash, hne⟩

theorem Treelike.holds {H : Hasher} {c : BlockChain} (h : Treelike H c)
    (hgenesis : c.genesisBlock.info.hash H = c.genesisHash) (hroot : c.parentOf c.genesisHash = 0)
    {x : H256} (hx : c.Stored x) : Holds H c ((c.lineage x).map c.blockOf) := by
  have hrooted := h.rooted
  have hhash : ∀ y, c.Stored y → (c.blockOf y).info.hash H = y :=
    fun y hy => (h.hash_block hgenesis hy (h.block_eq hy)).1
  have hancestor : ∀ i, c.Stored (c.ancestorOf x i) := hrooted.mem_ancestor hx
  have hget : ∀ i a, ((c.lineage x).map c.blockOf)[i]? = some a → i ≤ c.numberOf x ∧
    a = c.blockOf (c.ancestorOf x i) := by
    intro i a ha
    unfold lineage at ha
    rw [map_map, List.getElem?_map] at ha
    obtain ⟨j, hj, rfl⟩ := Option.map_eq_some_iff.mp ha
    obtain ⟨hlt, rfl⟩ := List.getElem?_eq_some_iff.mp hj
    rw [length_range] at hlt
    rw [getElem_range]
    exact ⟨by omega, rfl⟩
  constructor
  · refine ⟨c.blockOf (c.ancestorOf x 0), by simp [lineage], ?_⟩
    rw [hhash _ (hancestor 0)]
    exact (h.genesis_of_zero (hancestor 0) (hrooted.height_ancestor hx (zero_le _))).symm
  · intro b hb
    obtain ⟨i, hi⟩ := mem_iff_getElem?.mp hb
    obtain ⟨-, rfl⟩ := hget i b hi
    rw [hhash _ (hancestor i)]
    exact h.block_eq (hancestor i)
  · intro i a b ha hb
    obtain ⟨-, rfl⟩ := hget i a ha
    obtain ⟨hle, rfl⟩ := hget (i + 1) b hb
    rw [hhash _ (hancestor i), hhash _ (hancestor (i + 1))]
    unfold ancestorOf ancestor
    rw [← iterate_succ_apply' c.parentOf]
    congr 1
    omega
  · refine ⟨hroot, ?_⟩
    have hzero : ¬ c.Stored 0 := by
      intro hs
      obtain heq | hne := eq_or_ne 0 c.genesisHash
      · exact h.genesis.2.2.1 heq.symm
      · obtain ⟨_, _, _, hne, _⟩ := h.block 0 hs hne
        exact hne rfl
    unfold parentOf
    rw [Option.not_isSome_iff_eq_none.mp hzero]
    rfl
  · intro y b hknown hb
    have hinserted : c.Inserted y := (isKnown_reads c y true).2.1 hknown
    exact h.hash_block hgenesis (h.stored_of_inserted hinserted) hb

end BlockChain

/-- Blocks of a chain at two places differ in their hashes. -/
def Distinct (H : Hasher) (chain : List VerifiedBlock) : Prop :=
  (chain.map fun b => b.info.hash H).Nodup

theorem Distinct.index_eq {H : Hasher} {chain : List VerifiedBlock} (h : Distinct H chain) {i j : ℕ}
    {a b : VerifiedBlock} (ha : chain[i]? = some a) (hb : chain[j]? = some b)
    (heq : a.info.hash H = b.info.hash H) : i = j := by
  have hlt : i < (chain.map fun b => b.info.hash H).length := by
    rw [length_map]
    exact (List.getElem?_eq_some_iff.mp ha).1
  apply (List.getElem?_inj hlt h).mp
  rw [List.getElem?_map, List.getElem?_map, ha, hb, Option.map_some, Option.map_some, heq]

namespace BlockChain
variable {H : Hasher} {c : BlockChain} {chain : List VerifiedBlock}

theorem Holds.mem_kinFrom (h : Holds H c chain) (hd : Distinct H chain) {n i j : ℕ}
    {b a : VerifiedBlock} (hb : chain[i]? = some b) (ha : chain[j]? = some a) (hn : i < j + n)
    (hpos : 0 < j) (hji : j ≤ i) : (∀ u ∈ a.uncles, u.hash H ∈ c.kinFrom H n (b.info.hash H)) ∧
      ∀ a', chain[j - 1]? = some a' → a'.info.hash H ∈ c.kinFrom H n (b.info.hash H) := by
  induction n generalizing i b with
  | zero => omega
  | succ n ih =>
    obtain ⟨g, hg, hgenesis⟩ := h.genesis
    have hne : b.info.hash H ≠ c.genesisHash := by
      intro heq
      have hzero := hd.index_eq hb hg (heq.trans hgenesis)
      omega
    obtain ⟨p, hp, hparent⟩ := h.iterate_le hb (show 1 ≤ i by omega)
    rw [iterate_one] at hparent
    rw [kinFrom, if_neg hne, h.block b (mem_of_getElem? hb), hparent]
    obtain hlt | rfl := lt_or_eq_of_le hji
    · have hrest := ih hp (by omega) (by omega)
      constructor
      · intro u hu
        exact mem_cons_of_mem _ (mem_append_right _ (hrest.1 u hu))
      · intro a' ha'
        exact mem_cons_of_mem _ (mem_append_right _ (hrest.2 a' ha'))
    · obtain rfl : b = a := Option.some.inj (hb.symm.trans ha)
      constructor
      · intro u hu
        exact mem_cons_of_mem _ (mem_append_left _ (mem_map.mpr ⟨u, hu, rfl⟩))
      · intro a' ha'
        obtain rfl : p = a' := Option.some.inj (hp.symm.trans ha')
        exact mem_cons_self

/-- The headers of the last six blocks, and the uncles that they cite, are among the kin. -/
theorem Holds.mem_allKinFrom (h : Holds H c chain) (hd : Distinct H chain) {i j : ℕ}
    {b a : VerifiedBlock} (hb : chain[i]? = some b) (ha : chain[j]? = some a) (hji : j ≤ i)
    (hn : i < j + 6) (huncles : j = 0 → a.uncles = []) :
    ∀ x ∈ a.hashes H, x ∈ c.allKinFrom H (b.info.hash H) 6 := by
  intro x hx
  unfold allKinFrom
  obtain rfl | hx := mem_cons.mp hx
  · -- a block is the parent of the next one, unless it is the last
    obtain hlt | rfl := lt_or_eq_of_le hji
    · obtain ⟨a', ha', -⟩ := h.iterate_le hb (show i - (j + 1) ≤ i by omega)
      rw [show i - (i - (j + 1)) = j + 1 by omega] at ha'
      exact mem_cons_of_mem _ ((h.mem_kinFrom hd hb ha' (by omega) (by omega) (by omega)).2 a ha)
    · obtain rfl : b = a := Option.some.inj (hb.symm.trans ha)
      exact mem_cons_self
  · obtain ⟨u, hu, rfl⟩ := mem_map.mp hx
    obtain rfl | hpos := Nat.eq_zero_or_pos j
    · rw [huncles rfl] at hu
      cases hu
    · exact mem_cons_of_mem _ ((h.mem_kinFrom hd hb ha (by omega) hpos hji).1 u hu)

end BlockChain

namespace Block
variable {H : Hasher} {bc : BlockChain} {current uncle : BlockHeader} {excluded : List H256}
  {uncles : List BlockHeader}

structure Uncle (H : Hasher) (bc : BlockChain) (current : BlockHeader) (excluded : List H256)
    (uncle : BlockHeader) : Prop where
  fresh : uncle.hash H ∉ excluded
  known : bc.isKnownCurrent uncle.parentHash = true
  depth : ∃ d p, 1 ≤ d ∧ d ≤ 6 ∧ uncle.number.toNat + d = current.number.toNat ∧
    bc.block uncle.parentHash = some p ∧ bc.parentOf^[d] current.parentHash = p.info.hash H ∧
    uncle.verify H .CheckNothingNew p.info none = .ok ()

theorem checkUncle_eq_ok :
    checkUncle H bc current excluded uncle = .ok () ↔ Uncle H bc current excluded uncle := by
  unfold checkUncle
  simp only [guard_eq_ok]
  constructor
  · rintro ⟨hfresh, hknown, h⟩
    cases hp : bc.block uncle.parentHash with
    | none => simp [hp] at h
    | some p =>
      simp only [hp, guard_eq_ok, mapError_eq_ok, not_lt, not_not, ne_eq] at h
      obtain ⟨hold, hbrother, hparent, hverify⟩ := h
      obtain ⟨d, hd⟩ : ∃ d : ℕ, (d : ℤ) + 1 = current.number.toNat - uncle.number.toNat :=
        ⟨current.number.toNat - uncle.number.toNat - 1, by omega⟩
      have hiterate : (current.number.toNat - uncle.number.toNat - 1 : ℤ).toNat = d := by omega
      rw [hiterate, ← iterate_succ_apply] at hparent
      exact ⟨hfresh, by simpa using hknown, d + 1, p, by omega, by omega, by omega, hp, hparent, hverify⟩
  · intro h
    obtain ⟨d, p, hd, hle, hnumber, hp, hparent, hverify⟩ := h.depth
    refine ⟨h.fresh, by simp [h.known], ?_⟩
    simp only [hp, guard_eq_ok, mapError_eq_ok, not_lt, not_not, ne_eq]
    have hiterate : (current.number.toNat - uncle.number.toNat - 1 : ℤ).toNat = d - 1 := by omega
    refine ⟨by omega, by omega, ?_, hverify⟩
    rw [hiterate, ← iterate_succ_apply, Nat.succ_eq_add_one, Nat.sub_add_cancel hd, hparent]

theorem checkUncles_eq_ok : checkUncles H bc current excluded uncles = .ok () ↔
    (uncles.map fun u => u.hash H).Nodup ∧ ∀ u ∈ uncles, Uncle H bc current excluded u := by
  induction uncles generalizing excluded with
  | nil => simp [checkUncles, pure, Except.pure]
  | cons u uncles ih =>
    rw [checkUncles, bind_eq_ok]
    simp only [ih, map_cons, nodup_cons, forall_mem_cons, mem_map, not_exists, not_and]
    constructor
    · rintro ⟨_, hu, hnodup, huncles⟩
      have hfresh : ∀ v ∈ uncles, v.hash H ≠ u.hash H := by
        intro v hv heq
        exact (huncles v hv).fresh (heq ▸ mem_cons_self)
      refine ⟨⟨hfresh, hnodup⟩, checkUncle_eq_ok.mp hu, fun v hv => ?_⟩
      have hv' := huncles v hv
      exact ⟨fun hmem => hv'.fresh (mem_cons_of_mem _ hmem), hv'.known, hv'.depth⟩
    · rintro ⟨⟨hfresh, hnodup⟩, hu, huncles⟩
      refine ⟨(), checkUncle_eq_ok.mpr hu, hnodup, fun v hv => ?_⟩
      have hv' := huncles v hv
      refine ⟨fun hmem => ?_, hv'.known, hv'.depth⟩
      obtain heq | hmem := mem_cons.mp hmem
      · exact hfresh v hv heq
      · exact hv'.fresh hmem

end Block

/-- A chain from a genesis block on, each block of which was accepted by `enact` on the one before
it; the databases then had the chain so far. -/
inductive EnactChain (node : Node) (C : Crypto) : List VerifiedBlock → Prop where
  | genesis (g : VerifiedBlock) (huncles : g.uncles = []) : EnactChain node C [g]
  | enact {chain : List VerifiedBlock} {p b : VerifiedBlock} {bc : BlockChain}
      {lastHashes : H256 → List H256} {s s' : Block} {d : U256}
      (h : EnactChain node C (chain ++ [p])) (hparent : b.info.parentHash = p.info.hash node.H)
        (hholds : bc.Holds node.H (chain ++ [p]))
      (hs : s.Reset) (hrun : (Block.enact node C lastHashes bc b).run s = .ok (.ok d, s')) :
        EnactChain node C (chain ++ [p] ++ [b])

/-- The hash of a header of the chain, of a block or of an uncle, tells its parent, and none is the
parent of the genesis block. -/
structure Hashed (H : Hasher) (chain : List VerifiedBlock) : Prop where
  parent : ∀ a ∈ chain, ∀ b ∈ chain, ∀ h ∈ a.headers, ∀ h' ∈ b.headers, h.hash H = h'.hash H →
    h.parentHash = h'.parentHash
  root : ∀ g, chain[0]? = some g → ∀ b ∈ chain, b.info.hash H ≠ g.info.parentHash

theorem Hashed.of_append {H : Hasher} {chain rest : List VerifiedBlock}
    (h : Hashed H (chain ++ rest)) : Hashed H chain where
  parent a ha b hb := h.parent a (mem_append_left _ ha) b (mem_append_left _ hb)
  root g hg b hb := by
    have hlt := (List.getElem?_eq_some_iff.mp hg).1
    exact h.root g (by rwa [List.getElem?_append_left hlt]) b (mem_append_left _ hb)

/-- The uncle that a block at `i` cites is a child of a block of the chain, `d` generations
above. -/
structure Cites (H : Hasher) (chain : List VerifiedBlock) (i : ℕ) (b : VerifiedBlock)
    (u : BlockHeader) (d : ℕ) (a : VerifiedBlock) : Prop where
  pos : 1 ≤ d
  le : d ≤ 6
  number : u.number.toNat + d = b.info.number.toNat
  index : d + 1 ≤ i
  ancestor : chain[i - (d + 1)]? = some a
  parentHash : u.parentHash = a.info.hash H

structure Enacted (H : Hasher) (chain : List VerifiedBlock) : Prop where
  linked : ∀ i a b, chain[i]? = some a → chain[i + 1]? = some b → b.info.parentHash = a.info.hash H
  cites : ∀ i b, chain[i]? = some b → ∀ u ∈ b.uncles, ∃ d a, Cites H chain i b u d a
  length : ∀ b ∈ chain, b.uncles.length ≤ 2
  nodup : (chain.flatMap fun b => b.hashes H).Nodup

/-- The place that a header has by its parent. -/
def PlaceAt (H : Hasher) (chain : List VerifiedBlock) (h : BlockHeader) : ℕ → Prop
  | 0 => ∃ g, chain[0]? = some g ∧ h.parentHash = g.info.parentHash
  | i + 1 => ∃ a, chain[i]? = some a ∧ h.parentHash = a.info.hash H

section
variable {H : Hasher} {chain : List VerifiedBlock}

theorem Enacted.distinct (h : Enacted H chain) : Distinct H chain := by
  refine h.nodup.sublist ?_
  rw [flatMap_def]
  clear h
  induction chain with
  | nil => exact .slnil
  | cons b chain ih =>
    rw [map_cons, map_cons, flatten_cons]
    exact .cons_cons _ (ih.trans (sublist_append_right _ _))

theorem PlaceAt.unique (hd : Distinct H chain) (hh : Hashed H chain) {h h' : BlockHeader}
    (heq : h.parentHash = h'.parentHash) {i j : ℕ} (hi : PlaceAt H chain h i)
    (hj : PlaceAt H chain h' j) : i = j := by
  cases i with
  | zero =>
    obtain ⟨g, hg, hroot⟩ := hi
    cases j with
    | zero => rfl
    | succ j =>
      obtain ⟨a, ha, hparent⟩ := hj
      exact absurd (hparent.symm.trans (heq.symm.trans hroot)) (hh.root g hg a (mem_of_getElem? ha))
  | succ i =>
    obtain ⟨a, ha, hparent⟩ := hi
    cases j with
    | zero =>
      obtain ⟨g, hg, hroot⟩ := hj
      exact absurd (hparent.symm.trans (heq.trans hroot)) (hh.root g hg a (mem_of_getElem? ha))
    | succ j =>
      obtain ⟨a', ha', hparent'⟩ := hj
      rw [hd.index_eq ha ha' (hparent.symm.trans (heq.trans hparent'))]

/-- A block has its own place, and an uncle one of the six before that of the block that cites
it. -/
theorem Enacted.placeAt (h : Enacted H chain) {i : ℕ} {b : VerifiedBlock} (hb : chain[i]? = some b)
    {x : BlockHeader} (hx : x ∈ b.headers) : ∃ j, PlaceAt H chain x j ∧ j ≤ i := by
  obtain rfl | hx := mem_cons.mp hx
  · refine ⟨i, ?_, le_rfl⟩
    cases i with
    | zero => exact ⟨b, hb, rfl⟩
    | succ i =>
      have hlt := (List.getElem?_eq_some_iff.mp hb).1
      have ha : chain[i]? = some _ := List.getElem?_eq_getElem (by omega)
      exact ⟨_, ha, h.linked i _ b ha hb⟩
  · obtain ⟨d, a, hcites⟩ := h.cites i b hb x hx
    have hindex := hcites.index
    exact ⟨i - (d + 1) + 1, ⟨a, hcites.ancestor, hcites.parentHash⟩, by omega⟩

end

section
variable {H : Hasher} {bc : BlockChain} {chain : List VerifiedBlock} {p b : VerifiedBlock} {m : ℕ}

theorem Block.Uncle.cites {excluded : List H256} {u : BlockHeader}
    (h : Block.Uncle H bc b.info excluded u) (hholds : bc.Holds H chain) (hp : chain[m]? = some p)
    (hparent : b.info.parentHash = p.info.hash H) : ∃ d a, Cites H chain (m + 1) b u d a := by
  obtain ⟨d, q, hpos, hle, hnumber, hq, hiterate, -⟩ := h.depth
  obtain ⟨hkey, hne⟩ := hholds.keyed _ q h.known hq
  rw [hparent] at hiterate
  by_cases hd : d ≤ m
  · obtain ⟨a, ha, heq⟩ := hholds.iterate_le hp hd
    refine ⟨d, a, hpos, hle, hnumber, by omega, ?_, ?_⟩
    · rwa [Nat.add_sub_add_right]
    · rw [← hkey, ← hiterate, heq]
  · rw [hholds.iterate_gt hp (Nat.lt_of_not_le hd), hkey] at hiterate
    exact absurd hiterate.symm hne

/-- A header of a block that follows is in no block of the chain before it. -/
theorem Enacted.fresh (h : Enacted H chain) (hholds : bc.Holds H chain) (hp : chain[m]? = some p)
    (hlength : chain.length = m + 1) (hparent : b.info.parentHash = p.info.hash H)
    (huncles : ∀ u ∈ b.uncles, Block.Uncle H bc b.info
      (b.info.hash H :: bc.allKinFrom H b.info.parentHash 6) u)
    (hh : Hashed H (chain ++ [b])) {x : BlockHeader} (hx : x ∈ b.headers) {a : VerifiedBlock}
    (ha : a ∈ chain) : x.hash H ∉ a.hashes H := by
  intro hmem
  obtain ⟨y, hy, heq⟩ := mem_map.mp hmem
  have hsame : y.parentHash = x.parentHash :=
    hh.parent a (mem_append_left _ ha) b (by simp) y hy x hx heq
  have hchain : Hashed H chain := hh.of_append
  obtain ⟨j, haj⟩ := mem_iff_getElem?.mp ha
  have hj : j < chain.length := (List.getElem?_eq_some_iff.mp haj).1
  obtain ⟨k, hyk, hkj⟩ := h.placeAt haj hy
  obtain rfl | hu := mem_cons.mp hx
  · -- the new block would have two places
    have hk := hyk.unique h.distinct hchain hsame (j := m + 1) ⟨p, hp, hparent⟩
    omega
  · have huncle := huncles x hu
    obtain ⟨d, a', hcites⟩ := huncle.cites hholds hp hparent
    have hindex := hcites.index
    have hk := hyk.unique h.distinct hchain hsame (j := m + 1 - (d + 1) + 1)
      ⟨a', hcites.ancestor, hcites.parentHash⟩
    have hle := hcites.le
    -- so the uncle was seen within the last six generations
    apply huncle.fresh
    rw [hparent]
    apply mem_cons_of_mem
    apply hholds.mem_allKinFrom h.distinct hp haj (by omega) (by omega) ?_ _ hmem
    intro hzero
    cases huncles' : a.uncles with
    | nil => rfl
    | cons v vs =>
      obtain ⟨d', _, hcites'⟩ := h.cites j a haj v (by simp [huncles'])
      have hindex' := hcites'.index
      omega

theorem Cites.append {i d : ℕ} {u : BlockHeader} {a : VerifiedBlock} (h : Cites H chain i b u d a)
    (rest : List VerifiedBlock) : Cites H (chain ++ rest) i b u d a := by
  have hlt := (List.getElem?_eq_some_iff.mp h.ancestor).1
  exact ⟨h.pos, h.le, h.number, h.index, by rw [List.getElem?_append_left hlt]; exact h.ancestor,
    h.parentHash⟩

theorem Enacted.append (h : Enacted H chain) (hholds : bc.Holds H chain) (hp : chain[m]? = some p)
    (hlength : chain.length = m + 1) (hparent : b.info.parentHash = p.info.hash H)
    (htwo : b.uncles.length ≤ 2) (hnodup : (b.uncles.map fun u => u.hash H).Nodup)
    (huncles : ∀ u ∈ b.uncles, Block.Uncle H bc b.info
      (b.info.hash H :: bc.allKinFrom H b.info.parentHash 6) u)
    (hh : Hashed H (chain ++ [b])) : Enacted H (chain ++ [b]) := by
  have hcases : ∀ i x, (chain ++ [b])[i]? = some x → chain[i]? = some x ∨ i = m + 1 ∧ x = b := by
    intro i x hx
    obtain hlt | hge := lt_or_ge i chain.length
    · rw [List.getElem?_append_left hlt] at hx
      exact .inl hx
    · rw [List.getElem?_append_right hge] at hx
      obtain ⟨hi, hxb⟩ := List.getElem?_eq_some_iff.mp hx
      have hi' : i = m + 1 := by simp at hi; omega
      exact .inr ⟨hi', by simpa using hxb.symm⟩
  constructor
  · intro i a x ha hx
    obtain hx | ⟨hi, rfl⟩ := hcases (i + 1) x hx
    · have hlt := (List.getElem?_eq_some_iff.mp hx).1
      rw [List.getElem?_append_left (by omega)] at ha
      exact h.linked i a x ha hx
    · obtain rfl : i = m := by omega
      rw [List.getElem?_append_left (by omega), hp] at ha
      rw [hparent, Option.some.inj ha]
  · intro i x hx u hu
    obtain hx | ⟨rfl, rfl⟩ := hcases i x hx
    · obtain ⟨d, a, hcites⟩ := h.cites i x hx u hu
      exact ⟨d, a, hcites.append _⟩
    · obtain ⟨d, a, hcites⟩ := (huncles u hu).cites hholds hp hparent
      exact ⟨d, a, hcites.append _⟩
  · intro x hx
    obtain hx | hx := mem_append.mp hx
    · exact h.length x hx
    · rwa [mem_singleton.mp hx]
  · rw [flatMap_append, flatMap_singleton, nodup_append]
    refine ⟨h.nodup, nodup_cons.mpr ⟨?_, hnodup⟩, ?_⟩
    · intro hmem
      obtain ⟨u, hu, heq⟩ := mem_map.mp hmem
      exact (huncles u hu).fresh (heq ▸ mem_cons_self)
    · rintro y hy _ hy' rfl
      obtain ⟨a, ha, hya⟩ := mem_flatMap.mp hy
      obtain ⟨x, hx, rfl⟩ := mem_map.mp hy'
      exact h.fresh hholds hp hlength hparent huncles hh hx ha hya

end

theorem Block.uncles_of_enact {node : Node} {C : Crypto} {lastHashes : H256 → List H256}
    {bc : BlockChain} {block : VerifiedBlock} {s s' : Block} {d : U256} (hs : s.Reset)
    (h : (enact node C lastHashes bc block).run s = .ok (.ok d, s')) :
    block.uncles.length ≤ 2 ∧ (block.uncles.map fun u => u.hash node.H).Nodup ∧ ∀ u ∈ block.uncles,
      Uncle node.H bc block.info
      (block.info.hash node.H :: bc.allKinFrom node.H block.info.parentHash 6) u := by
  obtain ⟨-, b₁, receipts, haccepts⟩ := enact_eq_ok.mp h
  have hcommitted : ({ s with currentBlock := block.info } : Block).committedToSeal = false :=
    hs.committedToSeal
  have hplayed := ends_playback hcommitted block.transactions _ _ haccepts.playback
  have hcurrent : b₁.currentBlock = block.info := by rw [hplayed.eq]
  obtain ⟨-, -, htwo, hchecked, -⟩ := checkPlayback_eq_ok.mp haccepts.checkPlayback
  rw [hcurrent] at hchecked
  exact ⟨htwo, checkUncles_eq_ok.mp hchecked⟩

section
variable {node : Node} {C : Crypto} {chain : List VerifiedBlock}

theorem EnactChain.enacted (h : EnactChain node C chain) (hh : Hashed node.H chain) :
    Enacted node.H chain := by
  induction h with
  | genesis g huncles =>
    refine ⟨fun i a b _ hb => by simp at hb, fun i b hb u hu => ?_, by simp [huncles], ?_⟩
    · obtain rfl : b = g := by simpa using (mem_of_getElem? hb)
      rw [huncles] at hu
      cases hu
    · simp [VerifiedBlock.hashes, VerifiedBlock.headers, huncles]
  | @enact chain p b bc lastHashes s s' d _ hparent hholds hs hrun ih =>
    obtain ⟨htwo, hnodup, huncles⟩ := Block.uncles_of_enact hs hrun
    have hlength : (chain ++ [p]).length = chain.length + 1 := by simp
    have hp : (chain ++ [p])[chain.length]? = some p := by simp
    exact (ih hh.of_append).append hholds hp hlength hparent htwo hnodup huncles hh

end

namespace Block
variable {blockReward number uncleNumber : U256} {d : ℕ}

theorem toNat_uncleReward (hreward : blockReward.toNat * 8 < 2 ^ 256) (hd : d ≤ 6)
    (hnumber : uncleNumber.toNat + d = number.toNat) :
    (uncleReward blockReward number uncleNumber).toNat = blockReward.toNat * (8 - d) / 8 := by
  have hfactor : (8 + uncleNumber - number).toNat = 8 - d := by
    have hlt := number.isLt
    have height : (8 : U256).toNat = 8 := rfl
    rw [BitVec.toNat_sub, BitVec.toNat_add, height]
    omega
  have hle : blockReward.toNat * (8 - d) ≤ blockReward.toNat * 8 :=
    mul_le_mul_left _ (sub_le _ _)
  unfold uncleReward
  rw [BitVec.toNat_udiv, BitVec.toNat_mul, hfactor, mod_eq_of_lt (by omega)]
  rfl

theorem toNat_authorReward (hreward : blockReward.toNat * 8 < 2 ^ 256) {uncles : List BlockHeader}
    (htwo : uncles.length ≤ 2) :
    (uncles.foldl (fun r _ => r + blockReward / 32) blockReward).toNat =
    blockReward.toNat + uncles.length * (blockReward.toNat / 32) := by
  have hpart : (blockReward / 32 : U256).toNat = blockReward.toNat / 32 := BitVec.toNat_udiv ..
  have hfold (r : U256) (hr : r.toNat + uncles.length * (blockReward.toNat / 32) < 2 ^ 256) :
      (uncles.foldl (fun r _ => r + blockReward / 32) r).toNat =
      r.toNat + uncles.length * (blockReward.toNat / 32) := by
    clear htwo
    induction uncles generalizing r with
    | nil => simp
    | cons u uncles ih =>
      rw [length_cons, add_one_mul] at hr ⊢
      have hadd : (r + blockReward / 32).toNat = r.toNat + blockReward.toNat / 32 := by
        rw [BitVec.toNat_add, hpart, mod_eq_of_lt (by omega)]
      rw [foldl_cons, ih _ (by omega), hadd]
      omega
  have hle : uncles.length * (blockReward.toNat / 32) ≤ 2 * (blockReward.toNat / 32) :=
    mul_le_mul_right _ htwo
  exact hfold blockReward (by omega)

end Block

section
variable {node : Node} {C : Crypto} {chain : List VerifiedBlock}

/-- In a chain whose blocks were all enacted, no header is there twice, as a block or as an uncle;
each uncle is the child of an ancestor, from one generation above to six; and the rewards do not
wrap around. -/
theorem uncles_once (h : EnactChain node C chain) (hh : Hashed node.H chain) :
    (chain.flatMap fun b => b.hashes node.H).Nodup ∧ ∀ i b, chain[i]? = some b →
      (∀ u ∈ b.uncles, ∃ d a, Cites node.H chain i b u d a ∧
        ∀ blockReward : U256, blockReward.toNat * 8 < 2 ^ 256 →
          (Block.uncleReward blockReward b.info.number u.number).toNat = blockReward.toNat * (8 - d) / 8) ∧
      ∀ blockReward : U256, blockReward.toNat * 8 < 2 ^ 256 →
        (b.uncles.foldl (fun r _ => r + blockReward / 32) blockReward).toNat =
          blockReward.toNat + b.uncles.length * (blockReward.toNat / 32) := by
  have henacted := h.enacted hh
  refine ⟨henacted.nodup, fun i b hb => ⟨fun u hu => ?_, fun blockReward hreward => ?_⟩⟩
  · obtain ⟨d, a, hcites⟩ := henacted.cites i b hb u hu
    exact ⟨d, a, hcites, fun blockReward hreward => Block.toNat_uncleReward hreward hcites.le hcites.number⟩
  · exact Block.toNat_authorReward hreward (henacted.length b (mem_of_getElem? hb))

end

namespace BlockChain

def enactNode : Node := { exampleNode with H := tailHasher, walk := fun _ => [0] }

/-- An empty block that `enact` can accept. -/
def enactBlock (number : U256) (hash parentHash : H256) (uncles : List BlockHeader) : VerifiedBlock :=
  let b := exampleBlock number hash parentHash 1
  { b with info := { b.info with receiptsRoot := orderedTrieRoot tailHasher [] }, uncles }

def resetOn (parent : VerifiedBlock) : Block :=
  { Vapory.exampleBlock [] with
    previousBlock := parent.info
    currentBlock := { exampleHeader with parentHash := parent.info.hash tailHasher } }

def enactOn (C : Crypto) (parent : VerifiedBlock) (bc : BlockChain) (b : VerifiedBlock) :
    Except Stop (Except BlockError U256 × Block) :=
  (Block.enact enactNode C (fun _ => []) bc b).run (resetOn parent)

def exampleUncles : BlockChain :=
  exampleAfter (.take (exampleBlock 1 201 100 1))
    (exampleAfter (.take (enactBlock 1 101 100 [])) exampleGenesis)

theorem treelike_exampleUncles : Treelike tailHasher exampleUncles := by
  have hone : IndexRun tailHasher exampleGenesis
    (exampleAfter (.take (enactBlock 1 101 100 [])) exampleGenesis) :=
    IndexRun.start.after (by decide +kernel) (by decide +kernel)
  have htwo : IndexRun tailHasher exampleGenesis exampleUncles :=
    hone.after (by decide +kernel) (by decide +kernel)
  exact (indexed_run (indexed_opened (by decide) (by decide)) htwo).treelike

theorem enactChain_enactOn {chain : List VerifiedBlock} {p b : VerifiedBlock} {bc : BlockChain}
    {C : Crypto}
    (h : EnactChain enactNode C (chain ++ [p])) (hparent : b.info.parentHash = p.info.hash tailHasher)
    (hholds : bc.Holds tailHasher (chain ++ [p]))
    (hok : ((enactOn C p bc b).toOption.any fun r => r.1.toOption.isSome) = true) :
    EnactChain enactNode C (chain ++ [p] ++ [b]) := by
  obtain ⟨⟨r, s'⟩, hrun, hr⟩ : ∃ r, BlockChain.enactOn C p bc b = .ok r ∧ r.1.toOption.isSome = true :=
    exists_ok_and (by simpa using hok)
  obtain ⟨d, rfl⟩ := exists_ok hr
  exact .enact h hparent hholds ⟨rfl, rfl⟩ hrun

def exampleCrypto : Crypto := ⟨fun _ _ => ⟨0, 0, 0⟩, fun _ _ => 0⟩

theorem Treelike.holds_example {c : BlockChain} (h : Treelike tailHasher c) {x : H256}
    {chain : List VerifiedBlock}
    (hx : (c.detailsOf x).isSome = true ∧ c.genesisBlock.info.hash tailHasher = c.genesisHash ∧
    c.parentOf c.genesisHash = 0 ∧
      (c.lineage x).map c.blockOf = chain) : c.Holds tailHasher chain := by
  obtain ⟨hstored, hgenesis, hroot, rfl⟩ := hx
  exact h.holds hgenesis hroot hstored

/-- The second block cites a sibling of the first. -/
theorem uncles_once_example :
    let chain := [exampleBlock 0 100 0 1, enactBlock 1 101 100 [],
      enactBlock 2 102 101 [(exampleBlock 1 201 100 1).info]]
    EnactChain enactNode exampleCrypto chain ∧ (chain.flatMap fun b => b.hashes tailHasher).Nodup := by
  have htree : Treelike tailHasher exampleGenesis := (indexed_opened (by decide) (by decide)).treelike
  have hgenesis : exampleGenesis.Holds tailHasher ([] ++ [exampleBlock 0 100 0 1]) :=
    htree.holds_example (x := 100) (by decide +kernel)
  have hfork : exampleUncles.Holds tailHasher
    ([exampleBlock 0 100 0 1] ++ [enactBlock 1 101 100 []]) :=
    treelike_exampleUncles.holds_example (x := 101) (by decide +kernel)
  have hone : EnactChain enactNode exampleCrypto
    ([] ++ [exampleBlock 0 100 0 1] ++ [enactBlock 1 101 100 []]) :=
    enactChain_enactOn (.genesis _ rfl) rfl hgenesis (by decide +kernel)
  have htwo := enactChain_enactOn (b := enactBlock 2 102 101 [(exampleBlock 1 201 100 1).info]) hone
    rfl hfork (by decide +kernel)
  refine ⟨htwo, (uncles_once htwo ⟨?_, ?_⟩).1⟩
  · decide +kernel
  · intro g hg
    obtain rfl := Option.some.inj hg
    decide +kernel

end BlockChain
end Vapory
