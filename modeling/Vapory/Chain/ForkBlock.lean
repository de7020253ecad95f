import Vapory.Chain.Canonical
import Vapory.Chain.QueueOrder
import Vapory.Chain.Steady

/-! A block whose parent is in the chain comes to the queue. -/
namespace Vapory.BlockChain
open Function

variable {H : Hasher} {c c' c₀ : BlockChain} {hash : H256}

/-- What can be found in `c` can be found in `c'`. -/
structure Extends (c c' : BlockChain) : Prop where
  genesisHash : c'.genesisHash = c.genesisHash
  blocks : ∀ hash, (c.blocks hash).isSome → (c'.blocks hash).isSome
  stored : ∀ hash, c.Stored hash → c'.Stored hash

namespace Extends

theorem refl (c : BlockChain) : Extends c c := ⟨rfl, fun _ h => h, fun _ h => h⟩

theorem trans {c₁ c₂ : BlockChain} (h : Extends c c₁) (h' : Extends c₁ c₂) : Extends c c₂ where
  genesisHash := h'.genesisHash.trans h.genesisHash
  blocks hash hb := h'.blocks hash (h.blocks hash hb)
  stored hash hs := h'.stored hash (h.stored hash hs)

theorem inserted (h : Extends c c') (hi : c.Inserted hash) : c'.Inserted hash := by
  rcases hi with hgenesis | ⟨hb, hs⟩
  · left
    rw [h.genesisHash, hgenesis]
  · right
    exact ⟨h.blocks hash hb, h.stored hash hs⟩

end Extends

theorem extends_details (c : BlockChain) (hash : H256) (d : BlockDetails) :
    Extends c { c with details := update c.details hash (some d) } := by
  constructor
  · rfl
  · exact fun _ h => h
  · intro x hx
    unfold Stored detailsOf at hx ⊢
    dsimp only
    by_cases hxh : x = hash
    · rw [hxh, update_self]
      rfl
    · rwa [update_of_ne hxh]

theorem Steady.extends (h : Steady c c') : Extends c c' := by
  constructor
  · rw [h.eq]
  · rw [h.eq]
    exact fun _ hb => hb
  · unfold Stored
    rw [h.detailsOf]
    exact fun _ hs => hs

theorem extends_write (b : VerifiedBlock) (totalDifficulty : U256) (receipts : List TransactionReceipt)
    (parentDetails : BlockDetails) (best : Bool) (blocks : List VerifiedBlock) (h : Extends c₀ c) :
    Extends c₀ (write H b totalDifficulty receipts parentDetails best blocks c) ∧
      (write H b totalDifficulty receipts parentDetails best blocks c).Inserted (b.info.hash H) := by
  have hupdate {α : Type} {f : H256 → Option α} {k x : H256} {v : α} (hx : (f x).isSome) :
      (update f k (some v) x).isSome := by
    by_cases hxk : x = k
    · rw [hxk, update_self]
      rfl
    · rwa [update_of_ne hxk]
  have hself {α : Type} {f : H256 → Option α} {k : H256} {v : α} : (update f k (some v) k).isSome := by
    rw [update_self]
    rfl
  refine ⟨⟨h.genesisHash, fun x hx => hupdate (h.blocks x hx), fun x hx => ?_⟩, .inr ⟨hself, ?_⟩⟩
  · have hold := h.stored x hx
    unfold Stored detailsOf at hold ⊢
    rw [Option.isSome_or, Bool.or_eq_true] at hold ⊢
    exact hold.imp_right fun hdb => hupdate (hupdate hdb)
  · unfold Stored detailsOf
    rw [Option.isSome_or, Bool.or_eq_true]
    exact .inr hself

theorem extends_addChild (b : VerifiedBlock) : Extends c (c.addChild H b) := extends_details c _ _

theorem insertBlockAndExtras_inserts (b : VerifiedBlock) (totalDifficulty : U256)
    (receipts : List TransactionReceipt) (meanwhile : List ℕ) (h : Steady c₀ c) :
    Ends (insertBlockAndExtras H b totalDifficulty receipts meanwhile) c fun r c' =>
      Extends c₀ c' ∧ (∀ route, r = .ok route → c'.Inserted (b.info.hash H)) ∧ ∀ e, r = .error e →
      e = .invalid := by
  refine (insertBlockAndExtras_steady b totalDifficulty receipts meanwhile h).mono
    fun r c' hcases => ?_
  obtain ⟨c₁, h₁, ⟨rfl, rfl, -⟩ | ⟨route, best, blocks, rfl, rfl⟩⟩ := hcases
  · refine ⟨(extends_addChild b).trans h₁.extends, fun _ hr => (by cases hr), fun _ he =>
      (Except.error.inj he).symm⟩
  · obtain ⟨hextends, hinserted⟩ :=
      extends_write (H := H) b totalDifficulty receipts (c₀.withChild H b) best blocks
      ((extends_addChild (H := H) b).trans h₁.extends)
    exact ⟨hextends, fun _ _ => hinserted, fun _ he => by cases he⟩

theorem import_outcome (enact : VerifiedBlock → Except EnactError (List TransactionReceipt))
    (utcTime : U256) (mustBeNew : Bool) (meanwhile : List ℕ) (b : VerifiedBlock) :
    Ends (import_ H enact utcTime mustBeNew meanwhile b) c fun r c' =>
      Extends c c' ∧ (∀ route, r = .ok route → c'.Inserted (b.info.hash H)) ∧
        ∀ e, r = .error e → Refused H enact utcTime c b e ∨ e = .invalid := by
  have herror {c₁ : BlockChain} (h₁ : Reads c c₁) (e : ImportError)
      (he : Refused H enact utcTime c b e) : Ends (pure (.error e)) c₁
      fun (r : Except ImportError ImportRoute) c' => Extends c c' ∧
        (∀ route, r = .ok route → c'.Inserted (b.info.hash H)) ∧
        ∀ e, r = .error e → Refused H enact utcTime c b e ∨ e = .invalid := by
    refine (ends_pure _).mpr ⟨h₁.steady.extends, fun _ hr => (by cases hr), ?_⟩
    rintro _ ⟨⟩
    exact .inl he
  have hnew : Post (alreadyHave mustBeNew (b.info.hash H)) c fun known c' => Reads c c' ∧
    (known = true → c.Inserted (b.info.hash H)) := by
    unfold alreadyHave
    rw [post_ite]
    split_ifs
    · exact (isKnown_reads c _ _).mono fun _ _ hk => ⟨hk.1, hk.2.1⟩
    · exact (post_pure _).mpr ⟨.refl c, fun hfalse => Bool.noConfusion hfalse⟩
  unfold import_
  simp only [ends_bind, ends_lift, ends_ite, ends_get]
  refine hnew.mono fun old c₁ hold => ?_
  obtain ⟨h₁, hinserted⟩ := hold
  by_cases hhave : old = true
  · rw [if_pos hhave]
    exact herror h₁ _ (.known (hinserted hhave))
  rw [if_neg hhave]
  refine (isKnown_reads c₁ b.info.parentHash false).mono fun known c₂ hknown => ?_
  obtain ⟨h₁₂, -, hno⟩ := hknown
  have h₂ := h₁.trans h₁₂
  rw [h₁.inserted] at hno
  by_cases hunknown : (!known) = true
  · rw [if_pos hunknown]
    exact herror h₂ _ (.orphan (hno rfl (by simpa using hunknown)))
  rw [if_neg hunknown]
  refine (queryDetails_reads c₂ b.info.parentHash).mono fun pd c₃ hquery => ?_
  have h₃ := h₂.trans hquery.2.1
  by_cases hnull : pd.isNull = true
  · rw [if_pos hnull]
    exact (ends_stop _).mpr trivial
  have hparams : c₃.allowFutureBlocks = c.allowFutureBlocks := by rw [h₃.eq]
  have hblock : c₃.block = c.block := by
    rw [h₃.eq]
    rfl
  rw [if_neg hnull, hparams, hblock]
  by_cases hfuture : b.info.timestamp > utcTime ∧ (!c.allowFutureBlocks) = true
  · rw [if_pos hfuture]
    exact herror h₃ _ (.future hfuture.1 (by simpa using hfuture.2))
  rw [if_neg hfuture]
  cases hparent : c.block b.info.parentHash with
  | none => exact herror h₃ _ (.absent hparent)
  | some parent =>
    dsimp only
    cases hverify : b.info.verify H .QuickNonce { parent.info with memo := b.info.parentHash } none with
    | error e => exact herror h₃ _ (.header hparent hverify)
    | ok u =>
      cases henact : enact b with
      | error e => exact herror h₃ _ (.enact henact)
      | ok receipts =>
        exact (insertBlockAndExtras_inserts b _ receipts meanwhile h₃.steady).mono fun _ _ h =>
          ⟨h.1, h.2.1, fun e he => .inr (h.2.2 e he)⟩

def Act.inserts (H : Hasher) : Act → BlockChain → List H256
  | import_ enact utcTime mustBeNew meanwhile b, c =>
    match (BlockChain.import_ H enact utcTime mustBeNew meanwhile b).run c with
    | .ok (.ok _, _) => [b.info.hash H]
    | _ => []
  | _, _ => []

/-- What a chain comes to by any operations, with the hashes of the blocks that were inserted. -/
inductive InsertRun (H : Hasher) (c₀ : BlockChain) : List H256 → BlockChain → Prop where
  | start : InsertRun H c₀ [c₀.genesisHash] c₀
  | step {inserted : List H256} {c c' : BlockChain} (a : Act) (h : InsertRun H c₀ inserted c)
    (hstep : (a.exec H).run c = .ok ((), c')) : InsertRun H c₀ (inserted ++ a.inserts H c) c'

theorem Act.inserts_exec (a : Act) :
    Ends (a.exec H) c fun _ c' => Extends c c' ∧ ∀ hash ∈ a.inserts H c, c'.Inserted hash := by
  have hnone {c' : BlockChain} (h : Extends c c') : Extends c c' ∧ ∀ hash ∈ [], c'.Inserted hash :=
    ⟨h, fun _ hh => absurd hh List.not_mem_nil⟩
  cases a with
  | query i =>
    simp only [exec, ends_bind, ends_lift, ends_pure]
    exact (steady_numberHash i (.refl c)).mono fun _ _ h => hnone h.extends
  | rewind newHead meanwhile =>
    simp only [exec, ends_lift]
    apply (steady_rewind newHead meanwhile).mono
    intro _ c' hrewind
    obtain ⟨c₁, _, _, h₁, rfl⟩ := hrewind
    have hextends := h₁.extends
    exact hnone ⟨hextends.genesisHash, hextends.blocks, hextends.stored⟩
  | import_ enact utcTime mustBeNew meanwhile b =>
    simp only [exec, ends_bind, ends_pure]
    intro r c' hrun
    obtain ⟨hextends, hinserted, -⟩ := import_outcome (H := H) enact utcTime mustBeNew meanwhile b r c' hrun
    simp only [inserts, hrun]
    cases r with
    | error e => exact hnone hextends
    | ok route =>
      refine ⟨hextends, fun hash hh => ?_⟩
      rw [List.mem_singleton.mp hh]
      exact hinserted route rfl

theorem inserted_run {inserted : List H256} (h : InsertRun H c₀ inserted c) :
    ∀ hash ∈ inserted, c.Inserted hash := by
  induction h with
  | start =>
    intro hash hh
    exact .inl (List.mem_singleton.mp hh)
  | step a _ hstep ih =>
    obtain ⟨hextends, hnew⟩ := a.inserts_exec _ _ hstep
    intro hash hh
    rcases List.mem_append.mp hh with hh | hh
    · exact hextends.inserted (ih hash hh)
    · exact hnew hash hh

/-- `isKnown` as the queue calls it. -/
def knows (c : BlockChain) (hash : H256) : Bool := ((isKnown hash true).run c).1

theorem knows_iff (hi : c.Inserted hash) :
    c.knows hash = true ↔ hash = c.genesisHash ∨ c.numberOf hash ≤ c.lastBlockNumber := by
  have hvalue : Post (isKnown hash true) c fun known _ => known = true ↔ hash = c.genesisHash ∨
    c.numberOf hash ≤ c.lastBlockNumber := by
    unfold isKnown
    simp only [post_bind, post_get, post_ite, post_pure]
    by_cases hgenesis : hash = c.genesisHash
    · rw [if_pos hgenesis]
      simp [hgenesis]
    · obtain ⟨hblock, hstored⟩ := hi.resolve_left hgenesis
      have hfound : ¬ ((c.details hash).isNone = true ∧ (c.detailsDB hash).isNone = true) := by
        intro hnone
        unfold Stored detailsOf at hstored
        simp [Option.isNone_iff_eq_none.mp hnone.1, Option.isNone_iff_eq_none.mp hnone.2] at hstored
      rw [if_neg hgenesis, if_neg (by simp [Option.isSome_iff_ne_none.mp hblock]), if_neg hfound,
        if_neg (by simp)]
      apply (queryDetails_reads c hash).mono
      intro d c' hquery
      rw [hquery.1]
      simp [hgenesis, numberOf]
  exact hvalue

end Vapory.BlockChain

namespace Vapory.BlockQueue
variable {H : Hasher} {R : BlockReader H} {q : BlockQueue} {c c₀ : BlockChain}

theorem import_new {isKnown : H256 → Bool} {utcTime : ℕ} {block : Bytes} {isOurs : Bool}
    {bi : BlockHeader}
    (hread : R.verifyBlock .PostGenesis block = some bi) (hnew : q.New (R.headerHashFromBlock block))
    (hchain : isKnown (R.headerHashFromBlock block) = false)
    (htime : bi.timestamp.toNat ≤ utcTime ∨ isOurs = true) (hbad : bi.parentHash ∉ q.knownBad) :
    ((import_ R isKnown utcTime block isOurs q).1 ≠ .UnknownParent ∧
      ⟨R.headerHashFromBlock block, bi.parentHash, block⟩ ∈ (import_ R isKnown utcTime block isOurs
        q).2.unverified) ↔
    q.parentUnknown isKnown bi = false := by
  have hold : ¬ (R.headerHashFromBlock block ∈ q.readySet ∨ R.headerHashFromBlock block ∈ q.drainingSet ∨
      R.headerHashFromBlock block ∈ q.unknownSet ∨ R.headerHashFromBlock block ∈ q.knownBad) := by
    simpa only [New, not_or] using hnew
  have hfuture : ¬ (bi.timestamp.toNat > utcTime ∧ (!isOurs) = true) := by
    rcases htime with htime | htime
    · omega
    · simp [htime]
  unfold import_
  simp only [if_neg hold, hread, hchain, if_neg hfuture, if_neg hbad, Bool.false_eq_true, if_false]
  cases hunknown : q.parentUnknown isKnown bi with
  | true => simp
  | false =>
    have hrefl : Grows
        { q with
          unverified := q.unverified ++ [⟨R.headerHashFromBlock block, bi.parentHash, block⟩]
          readySet := insert (R.headerHashFromBlock block) q.readySet
          difficulty := q.difficulty + bi.difficulty } _ := ⟨rfl, rfl, [], (List.append_nil _).symm⟩
    obtain ⟨new, hnew⟩ := (grows_noteReady (R.headerHashFromBlock block) hrefl).unverified
    simp [hnew]

variable {inserted : List H256}

/-- After any operations on the chain, and with any queue: a block whose parent was inserted comes
to be verified exactly if the parent is not above the head, or is in the queue. -/
theorem import_after_insert (hrun : BlockChain.InsertRun H c₀ inserted c) {utcTime : ℕ}
    {block : Bytes} {isOurs : Bool} {bi : BlockHeader} (hparent : bi.parentHash ∈ inserted)
    (hread : R.verifyBlock .PostGenesis block = some bi) (hnew : q.New (R.headerHashFromBlock block))
    (hchain : c.knows (R.headerHashFromBlock block) = false)
    (htime : bi.timestamp.toNat ≤ utcTime ∨ isOurs = true) (hbad : bi.parentHash ∉ q.knownBad) :
    ((import_ R c.knows utcTime block isOurs q).1 ≠ .UnknownParent ∧
      ⟨R.headerHashFromBlock block, bi.parentHash, block⟩ ∈
        (import_ R c.knows utcTime block isOurs q).2.unverified) ↔
    c.numberOf bi.parentHash ≤ c.lastBlockNumber ∨ bi.parentHash = c.genesisHash ∨
      bi.parentHash ∈ q.readySet ∨ bi.parentHash ∈ q.drainingSet := by
  have hinserted := BlockChain.inserted_run hrun bi.parentHash hparent
  have hknows := BlockChain.knows_iff hinserted
  rw [import_new hread hnew hchain htime hbad]
  unfold parentUnknown
  rw [decide_eq_false_iff_not, Bool.not_eq_true']
  constructor
  · intro hknown
    by_contra hnone
    simp only [not_or] at hnone
    have hfalse : c.knows bi.parentHash = false := by
      apply Bool.eq_false_of_not_eq_true
      intro htrue
      exact (hknows.mp htrue).elim hnone.2.1 hnone.1
    exact hknown ⟨hnone.2.2.1, hnone.2.2.2, hfalse⟩
  · intro hwhen hunknown
    obtain ⟨hready, hdraining, hfalse⟩ := hunknown
    have htrue : c.knows bi.parentHash = true := by
      rcases hwhen with hnumber | hgenesis | hmem | hmem
      · exact hknows.mpr (.inr hnumber)
      · exact hknows.mpr (.inl hgenesis)
      · exact absurd hmem hready
      · exact absurd hmem hdraining
    rw [hfalse] at htrue
    cases htrue

def childReader : BlockReader BlockChain.tailHasher :=
  byteReader (fun _ => 102) (fun _ => 1) (fun _ => 0) (fun _ => true) BlockChain.tailHasher

open BlockChain in
theorem InsertRun.after {a : BlockChain.Act} (h : InsertRun tailHasher c₀ inserted c)
    (hok : ((a.exec tailHasher).run c).toOption.isSome = true) :
    InsertRun tailHasher c₀ (inserted ++ a.inserts tailHasher c) (exampleAfter a c) :=
  .step a h (Except.eq_ok_getD ((), c) hok)

open BlockChain in
theorem import_after_insert_example :
    (import_ childReader (exampleAfter (.take (BlockChain.exampleBlock 2 102 101 1))
      (exampleAfter (.take (BlockChain.exampleBlock 1 101 100 1)) exampleGenesis)).knows 10 [3] false
      empty).1 ≠ .UnknownParent := by
  have hstart : InsertRun tailHasher exampleGenesis _ exampleGenesis := .start
  have hone := InsertRun.after (a := .take (BlockChain.exampleBlock 1 101 100 1)) hstart
    (by decide +kernel)
  have htwo := InsertRun.after (a := .take (BlockChain.exampleBlock 2 102 101 1)) hone
    (by decide +kernel)
  have hread : childReader.verifyBlock .PostGenesis [3] =
    some (byteHeader (fun _ => 102) (fun _ => 1) (fun _ => 0) 3) := rfl
  have hnew : empty.New 3 := by
    simp [New, empty]
  apply ((import_after_insert htwo _ hread hnew _ _ _).mpr _).1
  · decide +kernel
  · decide +kernel
  · left
    decide
  · exact Finset.notMem_empty _
  · left
    decide +kernel

open BlockChain in
/-- After a heavier chain that is shorter became canonical, the parent 102 is still in the chain,
but a child of it is taken for one without a parent. -/
theorem import_child_of_shorter :
    ∃ r, ([.take (BlockChain.exampleBlock 1 101 100 1), .take (BlockChain.exampleBlock 2 102 101 1),
      .take (BlockChain.exampleBlock 1 201 100 5)].forM (BlockChain.Act.exec tailHasher)).run exampleGenesis =
        .ok r ∧
    (r.2.blocks 102).isSome ∧ (r.2.detailsOf 102).isSome ∧
    (import_ childReader r.2.knows 10 [3] false empty).1 = .UnknownParent := by
  exact Except.exists_ok_and (by decide +kernel)

end Vapory.BlockQueue
