import Vapory.Chain.Insertion

/-! What an insertion does to a chain in any state, up to the point where it writes to the
databases. -/
namespace Vapory.BlockChain
open Function

variable {H : Hasher} {c c' c₀ c₁ c₂ : BlockChain} {hash : H256}

/-- Only the caches differ, and the details that are read through theirs are the same. -/
structure Steady (c c' : BlockChain) : Prop where
  eq : c' = { c with
    details := c'.details
    blockHashes := c'.blockHashes
    blocksBlooms := c'.blocksBlooms
    transactionAddresses := c'.transactionAddresses }
  detailsOf : c'.detailsOf = c.detailsOf

namespace Steady

theorem refl (c : BlockChain) : Steady c c := ⟨rfl, rfl⟩

theorem trans (h₁ : Steady c c₁) (h₂ : Steady c₁ c₂) : Steady c c₂ where
  eq := by
    have h := h₂.eq
    rw [h₁.eq] at h
    exact h
  detailsOf := h₂.detailsOf.trans h₁.detailsOf

theorem get (h : Steady c c') {α : Type*} (f : BlockChain → α)
    (hf : ∀ details blockHashes blocksBlooms transactionAddresses,
    f { c with details, blockHashes, blocksBlooms, transactionAddresses } = f c) : f c' = f c := by
  rw [h.eq]
  exact hf _ _ _ _

end Steady

theorem Reads.steady (h : Reads c c') : Steady c c' := ⟨by rw [h.eq], h.detailsOf⟩

theorem steady_queryDetails (hash : H256) (h : Steady c₀ c) :
    Post (queryDetails hash) c fun _ c' => Steady c₀ c' :=
  (queryDetails_reads c hash).mono fun _ _ hquery => h.trans hquery.2.1.steady

theorem steady_numberHash (i : ℕ) (h : Steady c₀ c) :
    Post (numberHash i) c fun _ c' => Steady c₀ c' := by
  apply (numberHash_frame i).mono
  intro _ c' hframe
  apply h.trans
  rw [hframe]
  exact ⟨rfl, rfl⟩

theorem steady_askAll (numbers : List ℕ) (h : Steady c₀ c) :
    Post (askAll numbers) c fun _ c' => Steady c₀ c' := by
  change Steady c₀ (c.asked numbers)
  rw [asked_eq]
  exact h.trans ⟨rfl, rfl⟩

theorem steady_climb (keep : Bool) (n : ℕ) (hash : H256) (passed : List H256) (h : Steady c₀ c) :
    Post (climb keep n hash passed) c fun _ c' => Steady c₀ c' := by
  induction n generalizing c hash passed with
  | zero => exact h
  | succ n ih =>
    unfold climb
    rw [post_bind]
    exact (steady_queryDetails hash h).mono fun _ _ h' => ih _ _ h'

section
variable {pre post common : Bool}

theorem steady_meet (n : ℕ) (from_ to_ : H256) (ret back : List H256) (h : Steady c₀ c) :
    Ends (meet pre post common n from_ to_ ret back) c fun _ c' => Steady c₀ c' := by
  induction n generalizing c from_ to_ ret back with
  | zero => exact (ends_stop _).mpr trivial
  | succ n ih =>
    unfold meet
    simp only [ends_ite, ends_pure, ends_bind, ends_lift]
    by_cases hmet : from_ = to_
    · rwa [if_pos hmet]
    · rw [if_neg hmet]
      apply (steady_queryDetails from_ h).mono
      intro _ c₁ h₁
      exact (steady_queryDetails to_ h₁).mono fun _ _ h₂ => ih _ _ _ _ h₂

theorem steady_treeRoute (from_ to_ : H256) (h : Steady c₀ c) :
    Ends (treeRoute pre post common from_ to_) c fun _ c' => Steady c₀ c' := by
  unfold treeRoute
  simp only [ends_ite, ends_pure, ends_bind, ends_lift]
  by_cases hzero : from_ = 0 ∨ to_ = 0
  · rwa [if_pos hzero]
  · rw [if_neg hzero]
    apply (steady_queryDetails from_ h).mono
    intro fromDetails c₁ h₁
    apply (steady_queryDetails to_ h₁).mono
    intro toDetails c₂ h₂
    split_ifs
    · exact h₂
    · apply (steady_climb _ _ _ _ h₂).mono
      intro _ c₃ h₃
      apply (steady_climb _ _ _ _ h₃).mono
      intro _ c₄ h₄
      exact (steady_meet _ _ _ _ _ h₄).mono fun _ _ h₅ => h₅

end

theorem steady_clearCaches (firstInvalid : ℕ) (h : Steady c₀ c) :
    Post (clearCachesDuringChainReversion firstInvalid) c fun _ c' => Steady c₀ c' :=
  h.trans ⟨rfl, rfl⟩

theorem steady_chooseHead (b : VerifiedBlock) (last : H256) (h : Steady c₀ c) :
    Ends (chooseHead H b last) c fun _ c' => Steady c₀ c' := by
  have hblooms {c : BlockChain} (blocks : List VerifiedBlock) (h : Steady c₀ c) :
    Steady c₀ (addBlooms H blocks c) := by
    rw [addBlooms_eq]
    exact h.trans ⟨rfl, rfl⟩
  unfold chooseHead clearCachesAfter
  simp only [ends_bind, ends_lift, ends_pure, ends_get, ends_modify, post_ite, post_pure, post_bind]
  refine (steady_treeRoute last b.info.parentHash h).mono fun route c₁ h₁ => ?_
  split_ifs
  · exact hblooms _ h₁
  · apply (steady_queryDetails _ h₁).mono
    intro _ _ h₂
    exact (steady_clearCaches _ h₂).mono fun _ _ h₃ => hblooms _ h₃

theorem steady_rewind (newHead : ℕ) (meanwhile : List ℕ) :
    Post (rewind newHead meanwhile) c fun _ c' =>
    ∃ c₁ lastBlockHash lastBlockNumber, Steady c c₁ ∧
    c' = { c₁ with lastBlockHash, lastBlockNumber } := by
  unfold rewind
  simp only [post_bind, post_get, post_ite, post_pure, post_modify]
  split_ifs
  · exact ⟨c, _, _, .refl c, rfl⟩
  · refine (steady_clearCaches _ (.refl c)).mono fun _ c₁ h₁ => ?_
    refine (steady_askAll meanwhile h₁).mono fun _ c₂ h₂ => ?_
    exact (steady_numberHash newHead h₂).mono fun _ c₃ h₃ => ⟨c₃, _, _, h₃, rfl⟩

def withChild (H : Hasher) (c : BlockChain) (b : VerifiedBlock) : BlockDetails :=
  let d := (c.detailsOf b.info.parentHash).getD .null
  { d with children := d.children ++ [b.info.hash H] }

def addChild (H : Hasher) (c : BlockChain) (b : VerifiedBlock) : BlockChain :=
  { c with details := update c.details b.info.parentHash (some (c.withChild H b)) }

theorem detailsOf_addChild (b : VerifiedBlock) (hash : H256) : (c.addChild H b).detailsOf hash =
    if hash = b.info.parentHash then some (c.withChild H b) else c.detailsOf hash := by
  unfold addChild detailsOf
  dsimp only
  split_ifs with heq
  · rw [heq, update_self]
    rfl
  · rw [update_of_ne heq]

theorem Steady.withChild (h : Steady c c') (b : VerifiedBlock) :
    c'.withChild H b = c.withChild H b := by
  unfold BlockChain.withChild
  rw [h.detailsOf]

theorem Steady.addChild (h : Steady c c') (b : VerifiedBlock) :
    Steady (c.addChild H b) (c'.addChild H b) := by
  constructor
  · have heq := h.eq
    unfold BlockChain.addChild
    dsimp only
    rw [heq]
  · funext hash
    rw [detailsOf_addChild, detailsOf_addChild, h.withChild, h.detailsOf]

theorem addChild_reads (b : VerifiedBlock) (h : Steady c₀ c)
    (hcached : c.details b.info.parentHash = c.detailsOf b.info.parentHash) :
    { (c.details b.info.parentHash).getD .null with
      children := ((c.details b.info.parentHash).getD .null).children ++ [b.info.hash H] } =
        c₀.withChild H b := by
  rw [hcached, h.detailsOf]
  rfl

/-- A block on the way to the new head cannot be read. -/
def Unreadable (H : Hasher) (c : BlockChain) (b : VerifiedBlock) : Prop :=
  ∃ c₁, Steady (c.addChild H b) c₁ ∧ ∃ r c₂, (chooseHead H b c.lastBlockHash).run c₁ = .ok (r, c₂) ∧
    r.2.2 = none

/-- An insertion in any state: the child is added to the parent's details, in the cache, and then
all is written, or nothing if a block cannot be read. -/
theorem insertBlockAndExtras_steady (b : VerifiedBlock) (totalDifficulty : U256)
    (receipts : List TransactionReceipt) (meanwhile : List ℕ) (h : Steady c₀ c) :
    Ends (insertBlockAndExtras H b totalDifficulty receipts meanwhile) c fun r c' => ∃ c₁,
    Steady (c₀.addChild H b) c₁ ∧
      (r = .error .invalid ∧ c' = c₁ ∧ c₀.Unreadable H b ∨ ∃ route best blocks, r = .ok route ∧
        c' = write H b totalDifficulty receipts (c₀.withChild H b) best blocks c₁) := by
  unfold insertBlockAndExtras
  simp only [ends_bind, ends_lift, ends_get, ends_modify]
  apply (queryDetails_reads c b.info.parentHash).mono
  intro _ c₁ hquery
  obtain ⟨-, hread, hcached⟩ := hquery
  have h₁ := h.trans hread.steady
  rw [← hread.detailsOf] at hcached
  simp only [addChild_reads b h₁ hcached, update_self, Option.getD_some]
  have hadded : Steady (c₀.addChild H b)
    { c₁ with details := update c₁.details b.info.parentHash (some (c₀.withChild H b)) } := by
    have hsteady := h₁.addChild (H := H) b
    rw [BlockChain.addChild, BlockChain.addChild, h₁.withChild] at hsteady
    exact hsteady
  have hlast : c₁.lastBlockHash = c₀.lastBlockHash :=
    h₁.get BlockChain.lastBlockHash fun _ _ _ _ => rfl
  refine (steady_queryDetails _ hadded).mono fun last c₂ h₂ => ?_
  split_ifs
  · refine ends_bind.mpr fun x c₃ hchoose => ?_
    have h₃ := steady_chooseHead b _ h₂ x c₃ hchoose
    refine ends_bind.mpr (ends_lift.mpr ((steady_askAll meanwhile h₃).mono fun _ c₄ h₄ => ?_))
    obtain ⟨route, common, blocks⟩ := x
    cases blocks with
    | none =>
      rw [hlast] at hchoose
      exact (ends_pure _).mpr ⟨c₄, h₄, .inl ⟨rfl, rfl, c₂, h₂, _, c₃, hchoose, rfl⟩⟩
    | some blocks =>
      dsimp only
      rw [ends_bind, ends_modify, ends_pure]
      exact ⟨c₄, h₄, .inr ⟨_, _, _, rfl, rfl⟩⟩
  · rw [pure_bind]
    refine ends_bind.mpr (ends_lift.mpr ((steady_askAll meanwhile h₂).mono fun _ c₃ h₃ => ?_))
    rw [ends_bind, ends_modify, ends_pure]
    exact ⟨c₃, h₃, .inr ⟨_, _, _, rfl, rfl⟩⟩

end Vapory.BlockChain
