import Vapory.Chain.ForkChoice
import Vapory.Chain.Uncles

/-! The uncles that `commitToSeal` of `Block.cpp` cites in a new block, against the checks of
`enact`. -/
namespace Vapory
open List

namespace BlockChain
variable {H : Hasher} {c c' c₁ : BlockChain} {b : VerifiedBlock} {p u : H256}

/-- The children that the details of a block list. -/
def children (c : BlockChain) (hash : H256) : List H256 := ((c.detailsOf hash).getD .null).children

structure Child (c : BlockChain) (p u : H256) : Prop where
  stored : c.Stored u
  ne_genesis : u ≠ c.genesisHash
  parent : c.parentOf u = p
  later : (c.blockOf p).info.timestamp < (c.blockOf u).info.timestamp

/-- The details list nothing but children. -/
structure Lists (H : Hasher) (c : BlockChain) : Prop where
  genesis : c.genesisBlock.info.hash H = c.genesisHash
  child : ∀ p, ∀ u ∈ c.children p, c.Child p u

theorem Steady.lists (h : Steady c c') (hc : c.Lists H) : c'.Lists H := by
  have hblock : c'.blockOf = c.blockOf := h.get blockOf fun _ _ _ _ => rfl
  have hgenesis : c'.genesisHash = c.genesisHash := h.get genesisHash fun _ _ _ _ => rfl
  refine ⟨by rw [h.eq]; exact hc.genesis, fun p u hu => ?_⟩
  rw [children, h.detailsOf] at hu
  obtain ⟨hstored, hne, hparent, hlater⟩ := hc.child p u hu
  refine ⟨?_, hgenesis ▸ hne, ?_, ?_⟩
  · rwa [Stored, h.detailsOf]
  · rwa [parentOf, h.detailsOf]
  · rwa [hblock]

/-- `c'` lists no other children than `c` and the block. -/
def Bears (H : Hasher) (b : VerifiedBlock) (c c' : BlockChain) : Prop :=
  ∀ p, ∀ u ∈ c'.children p, u ∈ c.children p ∨ p = b.info.parentHash ∧ u = b.info.hash H

variable {receipts : List TransactionReceipt}

theorem children_write {d : BlockDetails} (hd : c₁.detailsOf b.info.parentHash = some d) {td : U256}
    {best : Bool} {blocks : List VerifiedBlock}
    (hu : u ∈ (write H b td receipts d best blocks c₁).children p) : u ∈ c₁.children p := by
  have hdetails : (write H b td receipts d best blocks c₁).detailsOf p = (c₁.details p).or (Function.update
      (Function.update c₁.detailsDB b.info.parentHash (some d)) (b.info.hash H)
      (some ⟨_, td, b.info.parentHash, []⟩) p) := rfl
  rw [children, hdetails] at hu
  cases hcache : c₁.details p with
  | some e =>
    rw [hcache] at hu
    rwa [children, detailsOf, hcache]
  | none =>
    rw [hcache, Option.none_or, Function.update_apply, Function.update_apply] at hu
    split_ifs at hu with hnew hparent
    · simp at hu
    · rwa [children, hparent, hd]
    · rwa [children, detailsOf, hcache]

theorem bears_insertBlockAndExtras {td : U256} {meanwhile : List ℕ} (h : Steady c c₁) :
    Ends (insertBlockAndExtras H b td receipts meanwhile) c₁ fun _ c' => Bears H b c c' := by
  have hadded {c₂ : BlockChain} (h₂ : Steady (c.addChild H b) c₂) : Bears H b c c₂ := by
    intro p u hu
    rw [children, h₂.detailsOf, detailsOf_addChild] at hu
    split_ifs at hu with hp
    · rcases mem_append.mp hu with hold | hnew
      · exact .inl (hp ▸ hold)
      · exact .inr ⟨hp, mem_singleton.mp hnew⟩
    · exact .inl hu
  refine (insertBlockAndExtras_steady b td receipts meanwhile h).mono fun r c' hcases => ?_
  obtain ⟨c₂, h₂, ⟨-, rfl, -⟩ | ⟨_, _, _, -, rfl⟩⟩ := hcases
  · exact hadded h₂
  · intro p u hu
    exact hadded h₂ p u (children_write (by rw [h₂.detailsOf, detailsOf_addChild, if_pos rfl]) hu)

theorem verify_later {h parent : BlockHeader} {s : BlockHeader.Strictness}
    {body : Option (H256 × H256)} (hok : h.verify H s parent body = .ok ())
    (hvalid : parent.isValid) : parent.timestamp < h.timestamp := by
  by_contra hlate
  unfold BlockHeader.verify at hok
  rw [if_pos hvalid, if_pos (BitVec.not_lt.mp hlate)] at hok
  split_ifs at hok <;> cases hok

theorem import_runs (enact : VerifiedBlock → Except EnactError (List TransactionReceipt))
    (utcTime : U256) (mustBeNew : Bool) (meanwhile : List ℕ) :
    Ends (import_ H enact utcTime mustBeNew meanwhile b) c fun r c' => Steady c c' ∨
      ∃ c₁ parent td receipts, Reads c c₁ ∧ c.Inserted b.info.parentHash ∧
      c.block b.info.parentHash = some parent ∧
        b.info.verify H .QuickNonce { parent.info with memo := b.info.parentHash } none = .ok () ∧
        (insertBlockAndExtras H b td receipts meanwhile).run c₁ = .ok (r, c') := by
  have hnew : Post (alreadyHave mustBeNew (b.info.hash H)) c fun _ c' => Reads c c' := by
    unfold alreadyHave
    rw [post_ite]
    split_ifs
    · exact (isKnown_reads c _ _).mono fun _ _ hk => hk.1
    · exact (post_pure _).mpr (.refl c)
  unfold import_
  simp only [ends_bind, ends_lift, ends_ite, ends_get, ends_pure, ends_stop]
  refine hnew.mono fun old c₁ h₁ => ?_
  split_ifs
  · exact .inl h₁.steady
  refine (isKnown_reads c₁ b.info.parentHash false).mono fun known c₂ hknown => ?_
  obtain ⟨h₁₂, hyes, -⟩ := hknown
  have h₂ := h₁.trans h₁₂
  split_ifs with hunknown
  · exact .inl h₂.steady
  refine (queryDetails_reads c₂ b.info.parentHash).mono fun pd c₃ hquery => ?_
  have h₃ := h₂.trans hquery.2.1
  split_ifs
  · exact .inl h₃.steady
  have hblock : c₃.block = c.block := h₃.steady.get block fun _ _ _ _ => rfl
  rw [hblock]
  cases hparent : c.block b.info.parentHash with
  | none => exact (ends_pure _).mpr (.inl h₃.steady)
  | some parent =>
    dsimp only
    cases hverify : b.info.verify H .QuickNonce { parent.info with memo := b.info.parentHash } none with
    | error e => exact (ends_pure _).mpr (.inl h₃.steady)
    | ok _ =>
      cases enact b with
      | error e => exact (ends_pure _).mpr (.inl h₃.steady)
      | ok receipts =>
        intro r c' hrun
        exact .inr ⟨c₃, parent, _, receipts, h₃, h₁.inserted ▸ hyes (by simpa using hunknown), rfl,
          hverify, hrun⟩

theorem Lists.import_ (hc : c.Lists H) (h : Headed H c) (hsane : Sane H c b) (hsame : Same H c b)
    (enact : VerifiedBlock → Except EnactError (List TransactionReceipt)) (utcTime : U256)
    (mustBeNew : Bool) (meanwhile : List ℕ) :
    Ends (BlockChain.import_ H enact utcTime mustBeNew meanwhile b) c fun _ c' => c'.Lists H := by
  refine (import_runs enact utcTime mustBeNew meanwhile).mono fun r c' hcases => ?_
  obtain hsteady | ⟨c₁, parent, td, receipts, hread, hinserted, hparent, hverify, hrun⟩ := hcases
  · exact hsteady.lists hc
  have hstored := h.treelike.stored_of_inserted hinserted
  have hk := hread.kin h.treelike.backed
  have hb := fits_of_verify h.treelike hsane hstored hparent hverify
  obtain ⟨route, rfl, hinsert⟩ :=
    (insertBlockAndExtras_cases (h.near hk.toNear) (hk.fits hb) td receipts meanwhile).ends _ _ hrun
  have hinsert := hinsert.of_kin hk
  have hg := hinsert.grown hb
  obtain ⟨hgenesis, hgenesisBlock⟩ : c'.genesisHash = c.genesisHash ∧
    c'.genesisBlock = c.genesisBlock := by
    obtain ⟨c₀, d, blocks, hn, -, rfl⟩ := hinsert.written
    exact ⟨hn.genesisHash, hn.genesisBlock⟩
  have hparentBlock : c.blockOf b.info.parentHash = parent :=
    Option.some.inj ((h.treelike.block_eq hstored).symm.trans hparent)
  refine ⟨by rw [hgenesis, hgenesisBlock, hc.genesis], fun p u hu => ?_⟩
  rcases bears_insertBlockAndExtras hread.steady _ _ hrun p u hu with hold | ⟨rfl, rfl⟩
  · obtain ⟨hs, hne, rfl, hlater⟩ := hc.child p u hold
    obtain ⟨_, -, -, -, -, -, hp, -⟩ := h.treelike.block u hs hne
    refine ⟨hg.stored ▸ .inr hs, hgenesis ▸ hne, hg.parentOf u hs, ?_⟩
    rwa [hinsert.blockOf_old hb h hsame hp, hinsert.blockOf_old hb h hsame hs]
  · refine ⟨hg.stored ▸ .inl rfl, hgenesis ▸ hb.ne_genesis, hg.parent, ?_⟩
    rw [hinsert.blockOf_old hb h hsame hstored, hinsert.blockOf_new hb, hparentBlock]
    have hlater := verify_later hverify (hsane.valid parent hparent)
    exact hlater

theorem Act.lists_exec (hc : c.Lists H) (h : Headed H c) {a : Act} (ha : a.Sound H c) :
    Ends (a.exec H) c fun _ c' => c'.Lists H := by
  cases a with
  | query i =>
    simp only [Act.exec, ends_bind, ends_lift, ends_pure]
    exact (steady_numberHash i (.refl c)).mono fun _ _ hsteady => hsteady.lists hc
  | rewind newHead meanwhile => exact ha.elim
  | import_ enact utcTime mustBeNew meanwhile b =>
    simp only [Act.exec, ends_bind, ends_pure]
    exact hc.import_ h ha.toSane ha.same enact utcTime mustBeNew meanwhile

theorem lists_opened (genesisBlock : VerifiedBlock) (allowFutureBlocks tieBreakingGas : Bool) :
    (opened H genesisBlock allowFutureBlocks tieBreakingGas).Lists H := by
  refine ⟨rfl, fun p u hu => ?_⟩
  rw [children, detailsOf_opened] at hu
  split_ifs at hu <;> simp [BlockDetails.null] at hu

theorem lists_run {c₀ : BlockChain} {inserted : List H256} (h₀ : Chosen H [c₀.genesisHash] c₀)
    (hc₀ : c₀.Lists H) (hrun : ChoiceRun H c₀ inserted c) : c.Lists H := by
  induction hrun with
  | start => exact hc₀
  | step a hrun ha hstep ih => exact Act.lists_exec ih (chosen_run h₀ hrun).headed ha () _ hstep

end BlockChain

namespace Block
variable (H : Hasher) (bc : BlockChain)

/-- The loop over the children of one block in `commitToSeal`: what is excluded then, and the
uncles. -/
def takeUncles : List H256 → List H256 → List H256 → List H256 × List H256
  | excluded, uncles, [] => (excluded, uncles)
  | excluded, uncles, u :: us =>
    if excluded.any fun x => x = u then takeUncles excluded uncles us
    else if uncles.length + 1 = 2 then (excluded, uncles ++ [u])
    else takeUncles (u :: excluded) (uncles ++ [u]) us

/-- The loop over so many generations, from `p` back. -/
def uncleLoop : ℕ → H256 → List H256 → List H256 → List H256
  | 0, _, _, uncles => uncles
  | gen + 1, p, excluded, uncles =>
    if p ≠ bc.genesisHash ∧ uncles.length < 2 then
      let r := takeUncles excluded uncles (bc.children p)
      uncleLoop gen (bc.parentOf p) r.1 r.2
    else uncles

/-- The uncles that a block on `previous`, whose hash is `parentHash`, cites. -/
def citedUncles (previous : BlockHeader) (parentHash : H256) : List H256 :=
  if previous.number ≠ 0 then
    uncleLoop bc 6 previous.parentHash (bc.allKinFrom H parentHash 6) []
  else []

def uncleBlockHeaders (previous : BlockHeader) (parentHash : H256) : List BlockHeader :=
  (citedUncles H bc previous parentHash).map fun u => (bc.blockOf u).info

/-- What the loops keep: two uncles at most, none of them twice and none of the kin. -/
structure Taken (kin : List H256) (ok : H256 → Prop) (excluded uncles : List H256) : Prop where
  nodup : uncles.Nodup
  length : uncles.length ≤ 2
  fresh : ∀ u ∈ uncles, u ∉ kin ∧ ok u
  kin : kin ⊆ excluded
  seen : uncles.length < 2 → uncles ⊆ excluded

variable {H bc} {kin excluded uncles : List H256} {ok : H256 → Prop} {x : H256}

theorem taken_nil (kin : List H256) : Taken kin ok kin [] :=
  ⟨.nil, Nat.zero_le 2, by simp, List.Subset.refl _, by simp⟩

theorem Taken.add (h : Taken kin ok excluded uncles) (hlt : uncles.length < 2) {u : H256}
    (hu : u ∉ excluded) (hok : ok u) : Taken kin ok (u :: excluded) (uncles ++ [u]) where
  nodup := h.nodup.append (nodup_singleton u) (by simpa using fun hmem => hu (h.seen hlt hmem))
  length := by simpa using hlt
  fresh v hv := by
    rcases mem_append.mp hv with hv | hv
    · exact h.fresh v hv
    · rw [mem_singleton.mp hv]
      exact ⟨fun hmem => hu (h.kin hmem), hok⟩
  kin := subset_cons_of_subset _ h.kin
  seen _ v hv := by
    rcases mem_append.mp hv with hv | hv
    · exact mem_cons_of_mem _ (h.seen hlt hv)
    · exact mem_singleton.mp hv ▸ mem_cons_self

theorem Taken.take (h : Taken kin ok excluded uncles) (hlt : uncles.length < 2) {us : List H256}
    (hok : ∀ u ∈ us, ok u) : Taken kin ok (takeUncles excluded uncles us).1
    (takeUncles excluded uncles us).2 := by
  induction us generalizing excluded uncles with
  | nil => exact h
  | cons u us ih =>
    obtain ⟨hu, hus⟩ := forall_mem_cons.mp hok
    unfold takeUncles
    split_ifs with hex htwo
    · exact ih h hlt hus
    · have hadd := h.add hlt (by simpa using hex) hu
      refine ⟨hadd.nodup, hadd.length, hadd.fresh, h.kin, fun hfew => absurd hfew ?_⟩
      rw [length_append, length_singleton, htwo]
      exact lt_irrefl 2
    · have hadd := h.add hlt (by simpa using hex) hu
      refine ih hadd ?_ hus
      rw [length_append, length_singleton]
      omega

theorem Taken.loop (htree : bc.Treelike H) (hx : bc.Stored x)
    (hok : ∀ d, 1 ≤ d → d ≤ 6 → d < bc.numberOf x → ∀ u ∈ bc.children (bc.parentOf^[d] x), ok u)
    {gen d : ℕ} (hd : 1 ≤ d) (hgen : gen + d = 7) (hle : d ≤ bc.numberOf x)
    (h : Taken kin ok excluded uncles) :
    ∃ excluded', Taken kin ok excluded' (uncleLoop bc gen (bc.parentOf^[d] x) excluded uncles) := by
  induction gen generalizing d excluded uncles with
  | zero => exact ⟨excluded, h⟩
  | succ gen ih =>
    unfold uncleLoop
    split_ifs with hgo
    · -- a block that is not the genesis block has a parent
      obtain ⟨hstored, hnumber⟩ := htree.rooted.iterate hx hle
      have hpos : bc.numberOf (bc.parentOf^[d] x) ≠ 0 :=
        fun hzero => hgo.1 (htree.genesis_of_zero hstored hzero)
      rw [← Function.iterate_succ_apply' bc.parentOf]
      exact ih (by omega) (by omega) (by omega) (h.take hgo.2 (hok d hd (by omega) (by omega)))
    · exact ⟨excluded, h⟩

/-- A new block on a block of the tree. -/
structure Sealable (H : Hasher) (bc : BlockChain) (current : BlockHeader) : Prop where
  tree : bc.Treelike H
  lists : bc.Lists H
  parent : bc.Stored current.parentHash
  last : bc.numberOf current.parentHash ≤ bc.lastBlockNumber
  number : current.number.toNat = bc.numberOf current.parentHash + 1
  new : ¬ bc.Stored (current.hash H)

theorem verify_child {b parent : BlockHeader} (hlt : b.number.toNat < 2 ^ 32 - 1)
    (hparent : parent.hash H = b.parentHash) (hlater : parent.timestamp < b.timestamp)
    (hnumber : parent.number.toNat + 1 = b.number.toNat) :
    b.verify H .CheckNothingNew parent none = .ok () := by
  have hnext : b.number = parent.number + 1 :=
    BitVec.eq_of_toNat_eq (by rw [BitVec.toNat_add]; simp; omega)
  have htime : ¬ b.timestamp ≤ parent.timestamp := BitVec.not_le.mpr hlater
  unfold BlockHeader.verify
  rw [if_neg (by omega), if_neg fun h => h.1 rfl]
  simp only [hparent, htime, hnext, ne_eq, not_true_eq_false, and_false, if_false]
  split_ifs <;> rfl

/-- The checks accept the block as an uncle, unless it is kin. -/
def Passes (H : Hasher) (bc : BlockChain) (current : BlockHeader) (u : H256) : Prop :=
  u ∉ bc.allKinFrom H current.parentHash 6 → (bc.blockOf u).info.hash H = u ∧
    Uncle H bc current (current.hash H :: bc.allKinFrom H current.parentHash 6) (bc.blockOf u).info

namespace Sealable
variable {current : BlockHeader} (h : Sealable H bc current)
include h

theorem passes {d : ℕ} (hd : 1 ≤ d) (hsix : d ≤ 6) (hlt : d < bc.numberOf current.parentHash)
    {u : H256} (hu : u ∈ bc.children (bc.parentOf^[d] current.parentHash)) :
    Passes H bc current u := by
  intro hfresh
  obtain ⟨hstored, hne, hparent, hlater⟩ := h.lists.child _ u hu
  obtain ⟨hp, hnumber⟩ := h.tree.rooted.iterate h.parent hlt.le
  have hcurrent := h.number
  have hlast := h.last
  obtain ⟨b, hb, hhash, -, hbnumber, hbparent, -, hup⟩ := h.tree.block u hstored hne
  have hblock : bc.blockOf u = b :=
    Option.some.inj ((h.tree.block_eq hstored).symm.trans ((if_neg hne).trans hb))
  have hpblock := h.tree.block_eq hp
  have hpnumber := h.tree.block_number hp hpblock
  have hphash := (h.tree.hash_block h.lists.genesis hp hpblock).1
  have hlt := h.tree.number_lt u hstored
  have hinserted : bc.Inserted (bc.parentOf^[d] current.parentHash) := by
    refine or_iff_not_imp_left.mpr fun hne => ⟨?_, hp⟩
    obtain ⟨b', hb', -⟩ := h.tree.block _ hp hne
    exact Option.isSome_iff_exists.mpr ⟨b', hb'⟩
  rw [hparent] at hbparent hup
  rw [hblock] at hlater ⊢
  have hverified := verify_child (by omega) (hphash.trans hbparent.symm) hlater (by omega)
  refine ⟨hhash, ?_, ?_, d, _, hd, hsix, by omega, hbparent ▸ hpblock, hphash.symm, hverified⟩
  · rw [hhash]
    exact not_mem_cons_of_ne_of_not_mem (fun he => h.new (he ▸ hstored)) hfresh
  · rw [hbparent]
    exact (BlockChain.knows_iff hinserted).mpr (.inr (by omega))

theorem taken : ∃ excluded, Taken (bc.allKinFrom H current.parentHash 6) (Passes H bc current)
    excluded (citedUncles H bc (bc.blockOf current.parentHash).info current.parentHash) := by
  have hnumber := h.tree.block_number h.parent (h.tree.block_eq h.parent)
  unfold citedUncles
  split_ifs with hzero
  · have hpos : bc.numberOf current.parentHash ≠ 0 :=
      fun he => hzero (BitVec.eq_of_toNat_eq (hnumber.trans he))
    have hne : current.parentHash ≠ bc.genesisHash := fun he => hpos (he ▸ h.tree.genesis.2.1)
    obtain ⟨b, hb, -, -, -, hparent, -⟩ := h.tree.block _ h.parent hne
    have hblock : bc.blockOf current.parentHash = b :=
      Option.some.inj ((h.tree.block_eq h.parent).symm.trans ((if_neg hne).trans hb))
    rw [hblock, hparent]
    exact (taken_nil _).loop h.tree h.parent (fun d hd hsix hlt u => h.passes hd hsix hlt) le_rfl
      rfl (Nat.one_le_iff_ne_zero.mpr hpos)
  · exact ⟨_, taken_nil _⟩

theorem checkedUncles_eq_ok :
    checkedUncles H bc current
    (uncleBlockHeaders H bc (bc.blockOf current.parentHash).info current.parentHash) =
      .ok (uncleBlockHeaders H bc (bc.blockOf current.parentHash).info current.parentHash) := by
  obtain ⟨excluded, ht⟩ := h.taken
  unfold checkedUncles uncleBlockHeaders
  generalize citedUncles H bc (bc.blockOf current.parentHash).info current.parentHash = uncles at ht
  have hcited u hu := (ht.fresh u hu).2 (ht.fresh u hu).1
  have hhash : (uncles.map fun u => (bc.blockOf u).info).map (fun u => u.hash H) = uncles := by
    rw [map_map]
    exact (map_congr_left fun u hu => (hcited u hu).1).trans (map_id uncles)
  rw [if_neg (by simpa using ht.length),
    checkUncles_eq_ok.mpr ⟨hhash.symm ▸ ht.nodup, forall_mem_map.mpr fun u hu => (hcited u hu).2⟩]
  rfl

end Sealable
end Block

namespace BlockChain
open Block

/-- In every chain that imports and queries lead to, the uncles that `commitToSeal` cites in a block
on the head pass the checks of `enact`. -/
theorem checkedUncles_ok {genesisBlock : VerifiedBlock} {allowFutureBlocks tieBreakingGas : Bool}
    {inserted : List H256} (hnumber : genesisBlock.info.number = 0)
    (hhash : genesisBlock.info.hash H ≠ 0)
    (hrun : ChoiceRun H (opened H genesisBlock allowFutureBlocks tieBreakingGas) inserted c)
    {current : BlockHeader} (hparent : current.parentHash = c.lastBlockHash)
    (hcurrent : current.number.toNat = c.lastBlockNumber + 1) (hnew : ¬ c.Stored (current.hash H)) :
    let uncles := uncleBlockHeaders H c (c.blockOf c.lastBlockHash).info c.lastBlockHash
    checkedUncles H c current uncles = .ok uncles := by
  have hopened : Chosen H _ (opened H genesisBlock allowFutureBlocks tieBreakingGas) :=
    chosen_opened hnumber hhash
  obtain ⟨htree, hhead, hlast⟩ := (chosen_run hopened hrun).headed
  rw [← hparent] at hhead hlast ⊢
  exact Sealable.checkedUncles_eq_ok
    ⟨htree, lists_run hopened (lists_opened ..) hrun, hhead, hlast.le, hlast ▸ hcurrent, hnew⟩

/-- Two blocks on the first one. -/
def exampleSiblings : BlockChain :=
  exampleAfter (.take (exampleBlock 2 202 101 1))
    (exampleAfter (.take (exampleBlock 2 102 101 1))
    (exampleAfter (.take (exampleBlock 1 101 100 1)) exampleGenesis))

/-- The block on one of them cites the other. -/
theorem checkedUncles_ok_siblings :
    checkedUncles tailHasher exampleSiblings (exampleBlock 3 103 102 1).info
    [(exampleBlock 2 202 101 1).info] = .ok [(exampleBlock 2 202 101 1).info] := by
  have hstart : ChoiceRun tailHasher exampleGenesis [100] exampleGenesis := .start
  have hone :=
    hstart.after (a := .take (exampleBlock 1 101 100 1)) (by decide +kernel) (by decide +kernel)
  have htwo :=
    hone.after (a := .take (exampleBlock 2 102 101 1)) (by decide +kernel) (by decide +kernel)
  have hthree :=
    htwo.after (a := .take (exampleBlock 2 202 101 1)) (by decide +kernel) (by decide +kernel)
  have hhead : exampleSiblings.lastBlockHash = 102 ∧ exampleSiblings.lastBlockNumber = 2 ∧
      (exampleSiblings.detailsOf 103).isSome = false ∧
      uncleBlockHeaders tailHasher exampleSiblings (exampleSiblings.blockOf 102).info 102 =
        [(exampleBlock 2 202 101 1).info] := by
    decide +kernel
  obtain ⟨hlast, hnumber, hnew, hcited⟩ := hhead
  have hparent : (exampleBlock 3 103 102 1).info.parentHash = exampleSiblings.lastBlockHash :=
    hlast.symm
  have hok := checkedUncles_ok (c := exampleSiblings) (by decide) (by decide) hthree hparent
    (hnumber ▸ rfl) (ne_true_of_eq_false hnew)
  rwa [hlast, hcited] at hok

end BlockChain
end Vapory
