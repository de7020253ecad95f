import Vapory.Chain.NumberIndex

/-! Runs of imports, rewinds and queries of the hash of a number. -/
namespace Vapory.BlockChain
variable {H : Hasher} {c c' : BlockChain} {b : VerifiedBlock} {k : ℕ} {meanwhile : List ℕ}

theorem import_spec (h : Indexed H c.lastBlockNumber c) (hsane : Sane H c b)
    (enact : VerifiedBlock → Except EnactError (List TransactionReceipt)) (utcTime : U256)
    (mustBeNew : Bool) (hm : ∀ i ∈ meanwhile, Shared c b i) :
    Returns (import_ H enact utcTime mustBeNew meanwhile b) c fun _ c' =>
    Indexed H c'.lastBlockNumber c' := by
  apply (import_cases h.headed hsane enact utcTime mustBeNew meanwhile).mono
  intro r c' hcases
  rcases hcases with ⟨-, hk⟩ | ⟨route, receipts, -, hfits, -, hinsert⟩
  · exact h.head_kin hk
  · exact hinsert.indexed h hfits hm

theorem Indexed.back (h : Indexed H k c) :
    Indexed H k { c with lastBlockHash := c.ancestorOf c.lastBlockHash k, lastBlockNumber := k } := by
  have hrooted := h.treelike.rooted
  have hle : k ≤ c.numberOf c.lastBlockHash := h.head.2.symm ▸ h.le
  have hancestor (n : ℕ) (hn : n ≤ k) :
      c.ancestorOf (c.ancestorOf c.lastBlockHash k) n = c.ancestorOf c.lastBlockHash n :=
    hrooted.ancestor_ancestor h.head.1 hle hn
  constructor
  · exact ⟨h.treelike.backed, h.treelike.genesis, h.treelike.number_lt, h.treelike.block⟩
  · exact ⟨hrooted.mem_ancestor h.head.1 k, hrooted.height_ancestor h.head.1 hle⟩
  · exact le_rfl
  · intro n hpos hn
    have hdatabase := h.database n hpos (hn.trans h.le)
    rw [← hancestor n hn] at hdatabase
    exact hdatabase
  · intro n hash hn
    obtain ⟨hpos, hle, heq⟩ := h.cache n hash hn
    rw [← hancestor n hle] at heq
    exact ⟨hpos, hle, heq⟩

theorem rewind_cases (h : Indexed H c.lastBlockNumber c) {newHead : ℕ}
    (hm : ∀ i ∈ meanwhile, i ≤ newHead ∨ c.blockHashesDB i = none) :
    Post (rewind newHead meanwhile) c fun _ c' => c' = c ∨ newHead < c.lastBlockNumber ∧
    ∃ c₁, Indexed H newHead c₁ ∧ Near c c₁ ∧
      c₁.blocksBlooms = (c.reverted (c.lastBlockNumber - newHead)).blocksBlooms ∧
      c' = { c₁ with
        lastBlockHash := c₁.ancestorOf c₁.lastBlockHash newHead, lastBlockNumber := newHead } := by
  unfold rewind
  simp only [post_bind, post_get, post_ite, post_pure]
  by_cases hge : newHead ≥ c.lastBlockNumber
  · rw [if_pos hge]
    exact .inl trivial
  · rw [if_neg hge]
    have hlt := h.number_lt
    have hfirst : (newHead + 1) % 2 ^ 32 = c.lastBlockNumber - (c.lastBlockNumber - newHead) + 1 := by omega
    have hcleared : ((clearCachesDuringChainReversion ((newHead + 1) % 2 ^ 32)).run c).2 =
      c.reverted (c.lastBlockNumber - newHead) := by
      unfold reverted
      rw [if_neg (by omega), hfirst]
    have hclear : Post (clearCachesDuringChainReversion ((newHead + 1) % 2 ^ 32)) c fun _ c' =>
        (Indexed H newHead c' ∧ Near c c') ∧ c' = c.reverted (c.lastBlockNumber - newHead) :=
      ⟨h.clear (Nat.le_of_not_le hge), hcleared⟩
    apply hclear.mono
    intro _ c₁ hclear₁
    obtain ⟨⟨h₁, hn₁⟩, hc₁⟩ := hclear₁
    have hm₁ : ∀ i ∈ meanwhile, i ≤ newHead ∨ c₁.blockHashesDB i = none := by rwa [hn₁.blockHashesDB]
    have hqueries : Post (askAll meanwhile) c₁ fun _ c' => (Indexed H newHead c' ∧ Near c₁ c') ∧
      c'.blocksBlooms = c₁.blocksBlooms := by
      refine ⟨h₁.queries hm₁, ?_⟩
      change (c₁.asked meanwhile).blocksBlooms = _
      rw [asked_eq]
    apply hqueries.mono
    intro _ c₂ hqueries₂
    obtain ⟨⟨h₂, hn₂⟩, hblooms₂⟩ := hqueries₂
    have hquery : Post (numberHash newHead) c₂ fun hash c' =>
        ((newHead ≤ newHead → hash = c₂.ancestorOf c₂.lastBlockHash newHead) ∧
        Indexed H newHead c' ∧ Near c₂ c') ∧ c' = { c₂ with blockHashes := c'.blockHashes } :=
      ⟨h₂.query (.inl le_rfl), numberHash_frame newHead⟩
    apply hquery.mono
    intro hash c₃ hquery₃
    obtain ⟨⟨hhash, h₃, hn₃⟩, hframe⟩ := hquery₃
    rw [post_modify, hhash le_rfl, ← hn₃.ancestorOf, ← hn₃.lastBlockHash]
    refine .inr ⟨by omega, c₃, h₃, hn₁.trans (hn₂.trans hn₃), ?_, rfl⟩
    rw [hframe, ← hc₁]
    exact hblooms₂

theorem rewind_spec (h : Indexed H c.lastBlockNumber c) {newHead : ℕ}
    (hm : ∀ i ∈ meanwhile, i ≤ newHead ∨ c.blockHashesDB i = none) :
    Post (rewind newHead meanwhile) c fun _ c' => Indexed H c'.lastBlockNumber c' := by
  apply (rewind_cases h hm).mono
  intro _ c' hcases
  rcases hcases with rfl | ⟨-, c₁, h₁, -, -, rfl⟩
  · exact h
  · exact h₁.back

inductive Act where
  /-- `numberHash`. -/
  | query (i : ℕ)
  | import_ (enact : VerifiedBlock → Except EnactError (List TransactionReceipt)) (utcTime : U256)
    (mustBeNew : Bool) (meanwhile : List ℕ) (b : VerifiedBlock)
  | rewind (newHead : ℕ) (meanwhile : List ℕ)

namespace Act

def exec (H : Hasher) : Act → Process BlockChain Unit
  | query i => do
    let _ ← numberHash i
  | import_ enact utcTime mustBeNew meanwhile b => do
    let _ ← BlockChain.import_ H enact utcTime mustBeNew meanwhile b
  | rewind newHead meanwhile => BlockChain.rewind newHead meanwhile

/-- Nothing is asked for above the head as it is, or as it is going to be, unless the database does
not know it either. -/
def Safe (H : Hasher) (c : BlockChain) : Act → Prop
  | query i => i ≤ c.lastBlockNumber ∨ c.blockHashesDB i = none
  | import_ _ _ _ meanwhile b => Sane H c b ∧ ∀ i ∈ meanwhile, Shared c b i
  | rewind newHead meanwhile => ∀ i ∈ meanwhile, i ≤ newHead ∨ c.blockHashesDB i = none

instance (a : Act) : Decidable (a.Safe H c) :=
  match a with
  | query _ => inferInstanceAs (Decidable (_ ∨ _))
  | import_ _ _ _ _ _ => inferInstanceAs (Decidable (_ ∧ _))
  | rewind _ _ => inferInstanceAs (Decidable (∀ _, _))

theorem exec_spec (h : Indexed H c.lastBlockNumber c) {a : Act} (ha : a.Safe H c) :
    Returns (a.exec H) c fun _ c' => Indexed H c'.lastBlockNumber c' := by
  cases a with
  | query i =>
    simp only [exec, returns_bind, returns_lift, returns_pure]
    apply (h.query ha).mono
    intro _ c' hquery
    rw [hquery.2.2.lastBlockNumber]
    exact hquery.2.1
  | import_ enact utcTime mustBeNew meanwhile b =>
    simp only [exec, returns_bind, returns_pure]
    exact import_spec h ha.1 enact utcTime mustBeNew ha.2
  | rewind newHead meanwhile =>
    simp only [exec, returns_lift]
    exact rewind_spec h ha

end Act

inductive IndexRun (H : Hasher) (c₀ : BlockChain) : BlockChain → Prop where
  | start : IndexRun H c₀ c₀
  | step {c c' : BlockChain} (a : Act) (h : IndexRun H c₀ c) (ha : a.Safe H c)
    (hstep : (a.exec H).run c = .ok ((), c')) : IndexRun H c₀ c'

theorem indexed_run {c₀ : BlockChain} (h₀ : Indexed H c₀.lastBlockNumber c₀)
    (hrun : IndexRun H c₀ c) : Indexed H c.lastBlockNumber c := by
  induction hrun with
  | start => exact h₀
  | step a _ ha hstep ih => exact (Act.exec_spec ih ha).ends () _ hstep

/-- `open` where there is no database yet. -/
def opened (H : Hasher) (genesisBlock : VerifiedBlock) (allowFutureBlocks tieBreakingGas : Bool) :
    BlockChain where
  genesisBlock := genesisBlock
  genesisHash := genesisBlock.info.hash H
  allowFutureBlocks := allowFutureBlocks
  tieBreakingGas := tieBreakingGas
  blocks := fun _ => none
  details := Function.update (fun _ => none) (genesisBlock.info.hash H)
    (some ⟨0, genesisBlock.info.difficulty, 0, []⟩)
  detailsDB := Function.update (fun _ => none) (genesisBlock.info.hash H)
    (some ⟨0, genesisBlock.info.difficulty, 0, []⟩)
  blockHashes := fun _ => none
  blockHashesDB := fun _ => none
  blocksBlooms := fun _ => none
  blocksBloomsDB := fun _ => none
  transactionAddresses := fun _ => none
  transactionAddressesDB := fun _ => none
  receipts := fun _ => none
  lastBlockHash := genesisBlock.info.hash H
  lastBlockNumber := 0

section
variable {genesisBlock : VerifiedBlock} {allowFutureBlocks tieBreakingGas : Bool}

theorem detailsOf_opened (hash : H256) :
    (opened H genesisBlock allowFutureBlocks tieBreakingGas).detailsOf hash =
    if hash = genesisBlock.info.hash H then some ⟨0, genesisBlock.info.difficulty, 0, []⟩
    else none := by
  unfold detailsOf opened
  simp only [Function.update_apply]
  split_ifs <;> rfl

theorem stored_opened (hash : H256) :
    (opened H genesisBlock allowFutureBlocks tieBreakingGas).Stored hash ↔
    hash = genesisBlock.info.hash H := by
  unfold Stored
  rw [detailsOf_opened]
  split_ifs with h
  · exact iff_of_true rfl h
  · exact iff_of_false (by simp) h

theorem numberOf_opened :
    (opened H genesisBlock allowFutureBlocks tieBreakingGas).numberOf (genesisBlock.info.hash H) =
    0 := by
  unfold numberOf
  rw [detailsOf_opened, if_pos rfl]
  rfl

theorem indexed_opened (hnumber : genesisBlock.info.number = 0)
    (hhash : genesisBlock.info.hash H ≠ 0) :
    Indexed H 0 (opened H genesisBlock allowFutureBlocks tieBreakingGas) := by
  constructor
  · constructor
    · intro hash d hd
      exact congrArg (Option.map BlockDetails.place) hd
    · exact ⟨(stored_opened _).mpr rfl, numberOf_opened, hhash, hnumber⟩
    · intro hash hs
      rw [(stored_opened hash).mp hs, numberOf_opened]
      decide
    · intro hash hs hne
      exact absurd ((stored_opened hash).mp hs) hne
  · exact ⟨(stored_opened _).mpr rfl, numberOf_opened⟩
  · exact le_rfl
  · intro n hpos hle
    exact absurd (hpos.trans_le hle) (lt_irrefl 0)
  · intro n hash hn
    cases hn

/-- From the genesis block on, by any safe steps: each number up to the head's has the hash of the
head's ancestor of that number. -/
theorem numberHash_ancestor (hnumber : genesisBlock.info.number = 0)
    (hhash : genesisBlock.info.hash H ≠ 0)
    (hrun : IndexRun H (opened H genesisBlock allowFutureBlocks tieBreakingGas) c) (n : ℕ)
    (hn : n ≤ c.lastBlockNumber) :
    ((numberHash n).run c).1 = c.ancestorOf c.lastBlockHash n ∧
      c.numberOf (c.ancestorOf c.lastBlockHash n) = n ∧
      ∀ a : Act, a.Safe H c → ∃ c', (a.exec H).run c = .ok ((), c') := by
  have h := indexed_run (indexed_opened hnumber hhash) hrun
  have hquery := h.query (.inl hn)
  have hle : n ≤ c.numberOf c.lastBlockHash := h.head.2.symm ▸ hn
  refine ⟨hquery.1 hn, h.treelike.rooted.height_ancestor h.head.1 hle, ?_⟩
  intro a ha
  obtain ⟨_, c', hstep, -⟩ := Act.exec_spec h ha
  exact ⟨c', hstep⟩

end

/-- A hash by which a header can be given any. -/
def tailHasher : Hasher := ⟨fun b => (List.replicate 32 0 ++ b).drop b.length, fun b => by
  rw [List.length_drop, List.length_append, List.length_replicate]
  omega⟩

def exampleBlock (number : U256) (hash parentHash : H256) (difficulty : U256) : VerifiedBlock :=
  ⟨⟨parentHash, 0, 0, 0, 0, 0, 0, difficulty, number, 100, 0, number, Vvm.wordBytes hash, [], hash⟩,
    [], [], []⟩

def exampleGenesis : BlockChain := opened tailHasher (exampleBlock 0 100 0 1) false false

def Act.take (b : VerifiedBlock) : Act := .import_ (fun _ => .ok []) 1000 true [] b

/-- A number above the head that was once below it: its hash comes from the database into the cache,
and stays there when the number is another block's. The head went down by a rewind, or by a heavier
chain that is shorter. -/
theorem numberHash_stale :
    (∀ b ∈ [exampleBlock 0 100 0 1, exampleBlock 1 101 100 1, exampleBlock 2 102 101 1,
      exampleBlock 2 202 101 1, exampleBlock 1 201 100 5, exampleBlock 2 202 201 1],
      b.info.hash tailHasher = tailHasher.hash (b.info.rlp true)) ∧
    (∃ r, ([.take (exampleBlock 1 101 100 1), .take (exampleBlock 2 102 101 1), .rewind 1 [], .query 2,
        .take (exampleBlock 2 202 101 1)].forM (Act.exec tailHasher)).run exampleGenesis = .ok r ∧
      2 ≤ r.2.lastBlockNumber ∧ ((numberHash 2).run r.2).1 ≠ r.2.ancestorOf r.2.lastBlockHash 2) ∧
    (∃ r, ([.take (exampleBlock 1 101 100 1), .take (exampleBlock 2 102 101 1),
      .take (exampleBlock 1 201 100 5), .query 2,
        .take (exampleBlock 2 202 201 1)].forM (Act.exec tailHasher)).run exampleGenesis = .ok r ∧
      2 ≤ r.2.lastBlockNumber ∧ ((numberHash 2).run r.2).1 ≠ r.2.ancestorOf r.2.lastBlockHash 2) := by
  refine ⟨by decide +kernel, ?_, ?_⟩
  · exact Except.exists_ok_and (by decide +kernel)
  · exact Except.exists_ok_and (by decide +kernel)

def exampleAfter (a : Act) (c : BlockChain) : BlockChain :=
  (((a.exec tailHasher).run c).toOption.getD ((), c)).2

theorem IndexRun.after {c₀ : BlockChain} {a : Act} (h : IndexRun tailHasher c₀ c)
    (ha : a.Safe tailHasher c) (hok : ((a.exec tailHasher).run c).toOption.isSome = true) :
    IndexRun tailHasher c₀ (exampleAfter a c) :=
  .step a h ha (Except.eq_ok_getD ((), c) hok)

/-- A block is added, the hash of its number is asked for, and a sibling is preferred to it while
the genesis block is asked for. -/
def exampleChain : BlockChain :=
  exampleAfter (.import_ (fun _ => .ok []) 1000 true [0] (exampleBlock 1 201 100 5))
    (exampleAfter (.query 1) (exampleAfter (.take (exampleBlock 1 101 100 1)) exampleGenesis))

theorem numberHash_ancestor_example : exampleChain.lastBlockHash = 201 ∧
    ((numberHash 1).run exampleChain).1 = exampleChain.ancestorOf exampleChain.lastBlockHash 1 := by
  have hone : IndexRun tailHasher exampleGenesis
    (exampleAfter (.take (exampleBlock 1 101 100 1)) exampleGenesis) :=
    IndexRun.start.after (by decide +kernel) (by decide +kernel)
  have htwo : IndexRun tailHasher exampleGenesis
      (exampleAfter (.query 1) (exampleAfter (.take (exampleBlock 1 101 100 1)) exampleGenesis)) :=
    hone.after (by decide +kernel) (by decide +kernel)
  have hrun : IndexRun tailHasher exampleGenesis exampleChain :=
    htwo.after (by decide +kernel) (by decide +kernel)
  have hright := numberHash_ancestor (by decide) (by decide) hrun 1 (by decide +kernel)
  exact ⟨by decide +kernel, hright.1⟩

end Vapory.BlockChain
