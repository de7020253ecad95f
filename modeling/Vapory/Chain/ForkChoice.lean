import Mathlib.Data.List.MinMax
import Mathlib.Data.Prod.Lex
import Vapory.Chain.ForkBlock
import Vapory.Chain.Lineage

/-! The head of the chain is the heaviest block, and the routes that the imports return lead from
one canonical chain to the next. -/
namespace Vapory
open List

theorem argmax_congr {α β : Type*} [DecidableEq α] [LinearOrder β] {f g : α → β} {l : List α}
    (h : ∀ a ∈ l, f a = g a) : l.argmax f = l.argmax g := by
  apply Option.ext
  intro m
  rw [← Option.mem_def, ← Option.mem_def, mem_argmax_iff, mem_argmax_iff]
  apply and_congr_right
  intro hm
  rw [h m hm]
  apply and_congr
  · exact forall₂_congr fun a ha => by rw [h a ha]
  · exact forall₂_congr fun a ha => by rw [h a ha]

namespace BlockChain
variable {H : Hasher} {c c' c₀ : BlockChain} {b : VerifiedBlock} {hash : H256}
  {inserted : List H256}

/-- The sum of the difficulties of a block and of its ancestors. -/
def totalDifficulty (c : BlockChain) (hash : H256) : ℕ :=
  ((c.lineage hash).map fun x => (c.blockOf x).info.difficulty.toNat).sum

def rank (c : BlockChain) (hash : H256) : ℕ ×ₗ ℕ :=
  toLex (c.totalDifficulty hash, if c.tieBreakingGas then (c.blockOf hash).info.gasUsed.toNat else 0)

/-- What an import must find for the choice of the head to be right. -/
structure Sound (H : Hasher) (c : BlockChain) (b : VerifiedBlock) : Prop extends Sane H c b where
  same : Same H c b
  total_lt : c.totalDifficulty b.info.parentHash + b.info.difficulty.toNat < 2 ^ 256

instance : Decidable (Sound H c b) := decidable_of_iff
  (Sane H c b ∧ Same H c b ∧
    c.totalDifficulty b.info.parentHash + b.info.difficulty.toNat < 2 ^ 256)
  ⟨fun h => ⟨h.1, h.2.1, h.2.2⟩, fun h => ⟨h.toSane, h.same, h.total_lt⟩⟩

theorem Near.rank (h : Near c c') : c'.rank = c.rank := by
  have hgas : c'.tieBreakingGas = c.tieBreakingGas :=
    h.get BlockChain.tieBreakingGas fun _ _ _ _ => rfl
  funext hash
  unfold BlockChain.rank totalDifficulty
  rw [h.lineage, h.blockOf, hgas]

theorem Near.totalDifficulty (h : Near c c') : c'.totalDifficulty = c.totalDifficulty := by
  funext hash
  unfold BlockChain.totalDifficulty
  rw [h.lineage, h.blockOf]

section
variable {td : U256} {receipts : List TransactionReceipt} {meanwhile : List ℕ} {route : ImportRoute}

namespace Insertion
variable (hinsert : Insertion H b td receipts meanwhile c route c')
include hinsert

theorem tieBreakingGas : c'.tieBreakingGas = c.tieBreakingGas := by
  obtain ⟨c₀, d, blocks, hn, -, rfl⟩ := hinsert.written
  exact hn.get BlockChain.tieBreakingGas fun _ _ _ _ => rfl

variable (hb : Fits H c b) (h : Headed H c) (hsame : Same H c b)
include hb h hsame

theorem totalDifficulty_old (hs : c.Stored hash) :
    c'.totalDifficulty hash = c.totalDifficulty hash := by
  unfold BlockChain.totalDifficulty
  rw [hinsert.lineage_old hb h hs]
  congr 1
  apply map_congr_left
  intro x hx
  rw [hinsert.blockOf_old hb h hsame (h.treelike.stored_of_mem_lineage hs hx)]

theorem totalDifficulty_new :
    c'.totalDifficulty (b.info.hash H) =
    c.totalDifficulty b.info.parentHash + b.info.difficulty.toNat := by
  rw [← hinsert.totalDifficulty_old hb h hsame hb.parent]
  unfold BlockChain.totalDifficulty
  rw [hinsert.lineage_new hb h, hinsert.lineage_old hb h hb.parent, map_append, sum_append,
    map_singleton, sum_singleton, hinsert.blockOf_new hb]

theorem rank_old (hs : c.Stored hash) : c'.rank hash = c.rank hash := by
  unfold BlockChain.rank
  rw [hinsert.totalDifficulty_old hb h hsame hs, hinsert.blockOf_old hb h hsame hs,
    hinsert.tieBreakingGas]

theorem wins_iff (htd : td.toNat = c.totalDifficulty b.info.parentHash + b.info.difficulty.toNat)
    (hweight : (c.weightOf c.lastBlockHash).toNat = c.totalDifficulty c.lastBlockHash) :
    c.wins b td = true ↔ c.rank c.lastBlockHash < c'.rank (b.info.hash H) := by
  have hblock := h.treelike.block_eq h.head.1
  have hlt : td > c.weightOf c.lastBlockHash ↔ c.totalDifficulty c.lastBlockHash < td.toNat := by
    rw [← hweight]
    exact BitVec.lt_def
  have heq : td = c.weightOf c.lastBlockHash ↔ c.totalDifficulty c.lastBlockHash = td.toNat := by
    rw [← hweight, eq_comm]
    exact ⟨congrArg _, BitVec.eq_of_toNat_eq⟩
  have hwins : c.wins b td = true ↔ td > c.weightOf c.lastBlockHash ∨ c.tieBreakingGas = true ∧
      td = c.weightOf c.lastBlockHash ∧ b.info.gasUsed > (c.blockOf c.lastBlockHash).info.gasUsed := by
    unfold wins isBest
    rw [decide_eq_true_iff, hblock]
    simp [weightOf]
  unfold BlockChain.rank
  rw [hwins, hlt, heq, Prod.Lex.toLex_lt_toLex, hinsert.totalDifficulty_new hb h hsame, ← htd,
    hinsert.blockOf_new hb, hinsert.tieBreakingGas]
  apply or_congr_right
  cases c.tieBreakingGas with
  | true => simp [BitVec.lt_def]
  | false => simp

end Insertion

end

/-- The total difficulties are the sums, and the head is the first block of the highest rank. -/
structure Chosen (H : Hasher) (inserted : List H256) (c : BlockChain) : Prop where
  headed : Headed H c
  weighed : ∀ hash, c.Stored hash → (c.weightOf hash).toNat = c.totalDifficulty hash
  stored : ∀ hash ∈ inserted, c.Stored hash
  head : inserted.argmax c.rank = some c.lastBlockHash

namespace Chosen

theorem near (h : Chosen H inserted c) (hn : Near c c') : Chosen H inserted c' := by
  constructor
  · exact h.headed.near hn
  · rw [hn.stored, hn.weightOf, hn.totalDifficulty]
    exact h.weighed
  · rw [hn.stored]
    exact h.stored
  · rw [hn.rank, hn.lastBlockHash]
    exact h.head

variable (h : Chosen H inserted c) (hsound : Sound H c b)
include h hsound

theorem toNat_total (hb : Fits H c b) : (c.weightOf b.info.parentHash + b.info.difficulty).toNat =
    c.totalDifficulty b.info.parentHash + b.info.difficulty.toNat := by
  rw [BitVec.toNat_add, h.weighed _ hb.parent]
  exact Nat.mod_eq_of_lt hsound.total_lt

theorem insert (hb : Fits H c b) {receipts : List TransactionReceipt} {meanwhile : List ℕ}
    {route : ImportRoute} (hinsert : Insertion H b
      (c.weightOf b.info.parentHash + b.info.difficulty) receipts meanwhile c route c') :
    Chosen H (inserted ++ [b.info.hash H]) c' := by
  have hg := hinsert.grown hb
  have htd := h.toNat_total hsound hb
  have hrank {x : H256} (hs : c.Stored x) : c'.rank x = c.rank x :=
    hinsert.rank_old hb h.headed hsound.same hs
  constructor
  · exact hinsert.headed hb h.headed
  · intro x hx
    rw [hg.stored] at hx
    obtain ⟨hother, hnew⟩ := hinsert.weightOf_eq
    by_cases hxb : x = b.info.hash H
    · subst hxb
      rcases hnew with hnew | ⟨hs, hnew⟩
      · rw [hnew, htd, hinsert.totalDifficulty_new hb h.headed hsound.same]
      · rw [hnew, h.weighed _ hs, hinsert.totalDifficulty_old hb h.headed hsound.same hs]
    · have hs := hx.resolve_left hxb
      rw [hother x hxb, h.weighed x hs, hinsert.totalDifficulty_old hb h.headed hsound.same hs]
  · intro x hx
    rw [hg.stored]
    rcases mem_append.mp hx with hx | hx
    · exact .inr (h.stored x hx)
    · exact .inl (mem_singleton.mp hx)
  · have hold : inserted.argmax c'.rank = some c.lastBlockHash := by
      rw [← h.head]
      apply argmax_congr
      intro x hx
      exact hrank (h.stored x hx)
    have hwins := hinsert.wins_iff hb h.headed hsound.same htd (h.weighed _ h.headed.head.1)
    rw [argmax_concat, hold]
    dsimp only
    rw [hrank h.headed.head.1, hinsert.lastBlockHash, apply_ite some]
    simp only [hwins]

end Chosen

def Act.Sound (H : Hasher) (c : BlockChain) : Act → Prop
  | query _ => True
  | import_ _ _ _ _ b => BlockChain.Sound H c b
  | rewind _ _ => False

instance (a : Act) : Decidable (a.Sound H c) :=
  match a with
  | .query _ => inferInstanceAs (Decidable True)
  | .import_ _ _ _ _ b => inferInstanceAs (Decidable (Sound H c b))
  | .rewind _ _ => inferInstanceAs (Decidable False)

/-- What a chain comes to by imports and queries, with the hashes of the blocks that were
inserted. -/
inductive ChoiceRun (H : Hasher) (c₀ : BlockChain) : List H256 → BlockChain → Prop where
  | start : ChoiceRun H c₀ [c₀.genesisHash] c₀
  | step {inserted : List H256} {c c' : BlockChain} (a : Act) (h : ChoiceRun H c₀ inserted c)
    (ha : a.Sound H c) (hstep : (a.exec H).run c = .ok ((), c')) :
    ChoiceRun H c₀ (inserted ++ a.inserts H c) c'

theorem Act.chosen_exec (h : Chosen H inserted c) {a : Act} (ha : a.Sound H c) :
    Ends (a.exec H) c fun _ c' => Chosen H (inserted ++ a.inserts H c) c' := by
  cases a with
  | query i =>
    simp only [exec, ends_bind, ends_lift, ends_pure, inserts, append_nil]
    apply (numberHash_frame i).mono
    intro _ c' hframe
    exact h.near ⟨by rw [hframe], fun _ => by rw [hframe]; rfl,
      by rw [hframe]; exact h.headed.treelike.backed⟩
  | rewind newHead meanwhile => exact ha.elim
  | import_ enact utcTime mustBeNew meanwhile b =>
    simp only [exec, ends_bind, ends_pure]
    intro r c' hrun
    have hcases := (import_cases h.headed ha.toSane enact utcTime mustBeNew meanwhile).ends r c' hrun
    simp only [inserts, hrun]
    rcases hcases with ⟨⟨e, rfl, -⟩, hk⟩ | ⟨route, receipts, rfl, hb, -, hinsert⟩
    · rw [append_nil]
      exact h.near hk.toNear
    · exact h.insert ha hb hinsert

theorem chosen_run (h₀ : Chosen H [c₀.genesisHash] c₀) (hrun : ChoiceRun H c₀ inserted c) :
    Chosen H inserted c := by
  induction hrun with
  | start => exact h₀
  | step a _ ha hstep ih => exact Act.chosen_exec ih ha _ _ hstep

section
variable {genesisBlock : VerifiedBlock} {allowFutureBlocks tieBreakingGas : Bool}

theorem chosen_opened (hnumber : genesisBlock.info.number = 0) (hhash : genesisBlock.info.hash H ≠ 0) :
    Chosen H [genesisBlock.info.hash H] (opened H genesisBlock allowFutureBlocks tieBreakingGas) := by
  have hindexed : Indexed H 0 (opened H genesisBlock allowFutureBlocks tieBreakingGas) :=
    indexed_opened hnumber hhash
  have hself : (opened H genesisBlock allowFutureBlocks tieBreakingGas).ancestorOf
      (genesisBlock.info.hash H) 0 = genesisBlock.info.hash H := by
    unfold ancestorOf ancestor
    rw [numberOf_opened]
    rfl
  have hblock : (opened H genesisBlock allowFutureBlocks tieBreakingGas).blockOf
    (genesisBlock.info.hash H) = genesisBlock := by
    unfold blockOf block opened
    simp
  constructor
  · exact hindexed.headed
  · intro x hx
    obtain rfl := (stored_opened x).mp hx
    unfold weightOf totalDifficulty lineage
    rw [numberOf_opened, detailsOf_opened, if_pos rfl]
    simp [hself, hblock]
  · intro x hx
    exact (stored_opened x).mpr (mem_singleton.mp hx)
  · rfl

/-- From the genesis block on, by any imports and queries: the head is the first inserted block
among those of the highest total difficulty, or of the highest gas used among these. Each
further import returns, and its route leads from the canonical chain to the next one. -/
theorem head_argmax_rank (hnumber : genesisBlock.info.number = 0)
    (hhash : genesisBlock.info.hash H ≠ 0)
    (hrun : ChoiceRun H (opened H genesisBlock allowFutureBlocks tieBreakingGas) inserted c) :
    inserted.argmax c.rank = some c.lastBlockHash ∧
      ∀ enact utcTime mustBeNew meanwhile b, Sound H c b →
      ∃ r c', (import_ H enact utcTime mustBeNew meanwhile b).run c = .ok (r, c') ∧
        ∀ route, r = .ok route → ∃ keep, c.canonical = keep ++ route.deadBlocks.reverse ∧
        c'.canonical = keep ++ route.liveBlocks := by
  have h := chosen_run (chosen_opened hnumber hhash) hrun
  refine ⟨h.head, ?_⟩
  intro enact utcTime mustBeNew meanwhile b hsound
  obtain ⟨r, c', himport, hcases⟩ :=
    import_cases h.headed hsound.toSane enact utcTime mustBeNew meanwhile
  refine ⟨r, c', himport, ?_⟩
  rintro route rfl
  rcases hcases with ⟨⟨e, he, -⟩, -⟩ | ⟨route', receipts, heq, hb, -, hinsert⟩
  · cases he
  · obtain rfl := Except.ok.inj heq
    exact hinsert.canonical_eq hb h.headed

end

def exampleLateBlock (number : U256) (hash parentHash : H256) (difficulty : U256) : VerifiedBlock :=
  let b := exampleBlock number hash parentHash difficulty
  { b with info := { b.info with timestamp := BitVec.allOnes 256 } }

def exampleFuture : BlockChain := opened tailHasher (exampleBlock 0 100 0 1) true false

/-- Nothing is checked of a child of a block that looks invalid for its time, so the child may have
the number that stands for no block. If it is the head, the next head is returned as a dead
block. -/
theorem import_after_null_head :
    (∀ b ∈ [exampleBlock 0 100 0 1, exampleLateBlock 1 101 100 1,
      exampleBlock (2 ^ 32 - 1) 102 101 1, exampleBlock 1 201 100 5], b.info.hash tailHasher = tailHasher.hash (b.info.rlp true)) ∧
    (∃ r, ([.take (exampleLateBlock 1 101 100 1), .take (exampleBlock (2 ^ 32 - 1) 102 101 1)].forM
      (Act.exec tailHasher)).run
        exampleFuture = .ok r ∧ r.2.lastBlockHash = 102 ∧ r.2.passed 102 3 = [102, 101, 100]) ∧
    (∃ r, (do
        [Act.take (exampleLateBlock 1 101 100 1),
          Act.take (exampleBlock (2 ^ 32 - 1) 102 101 1)].forM (Act.exec tailHasher)
        import_ tailHasher (fun _ => .ok []) 1000 true [] (exampleBlock 1 201 100 5)).run
        exampleFuture = .ok r ∧
      r.1 = .ok ⟨[201], [], []⟩ ∧ r.2.lastBlockHash = 201 ∧ r.2.passed 201 2 = [201, 100]) := by
  refine ⟨by decide +kernel, ?_, ?_⟩
  · exact Except.exists_ok_and (by decide +kernel)
  · exact Except.exists_ok_and (by decide +kernel)

theorem ChoiceRun.after {a : Act} (h : ChoiceRun tailHasher c₀ inserted c)
    (ha : a.Sound tailHasher c) (hok : ((a.exec tailHasher).run c).toOption.isSome = true) :
    ChoiceRun tailHasher c₀ (inserted ++ a.inserts tailHasher c) (exampleAfter a c) :=
  .step a h ha (Except.eq_ok_getD ((), c) hok)

theorem head_argmax_rank_example :
    let c := exampleAfter (.take (exampleBlock 1 201 100 5))
      (exampleAfter (.take (exampleBlock 1 101 100 1)) exampleGenesis)
    c.lastBlockHash = 201 ∧ [100, 101, 201].argmax c.rank = some c.lastBlockHash := by
  have hstart : ChoiceRun tailHasher exampleGenesis [100] exampleGenesis := .start
  have hone := ChoiceRun.after (a := .take (exampleBlock 1 101 100 1)) hstart (by decide +kernel)
    (by decide +kernel)
  have htwo := ChoiceRun.after (a := .take (exampleBlock 1 201 100 5)) hone (by decide +kernel)
    (by decide +kernel)
  have hhead := head_argmax_rank (by decide) (by decide) htwo
  have hinserts : [100] ++ (Act.take (exampleBlock 1 101 100 1)).inserts tailHasher exampleGenesis ++
      (Act.take (exampleBlock 1 201 100 5)).inserts tailHasher
        (exampleAfter (.take (exampleBlock 1 101 100 1)) exampleGenesis) = [100, 101, 201] := by
    decide +kernel
  rw [hinserts] at hhead
  exact ⟨by decide +kernel, hhead.1⟩

end BlockChain
end Vapory
