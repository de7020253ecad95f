import Vapory.Chain.Sync
import Vapory.Chain.TransactionAddress
import Vapory.Transaction.TransactionQueue

/-! The route that `sync` returns for a batch, and what the client does with it. -/
namespace Vapory
open List

/-- Routes one after the other, as `sync` returns them. -/
def ImportRoute.append (r r' : ImportRoute) : ImportRoute :=
  ⟨r.deadBlocks ++ r'.deadBlocks, r.liveBlocks ++ r'.liveBlocks, r.goodTranactions ++
    r'.goodTranactions⟩

namespace BlockChain
variable {H : Hasher} {c c' c₀ : BlockChain} {b : VerifiedBlock} {turns : ℕ → Turn} {i : ℕ}
  {o : Outcome} {os : List Outcome} {r : ImportRoute}

/-- A route from the canonical chain of `c` to that of `c'`, with the transactions of the blocks
that came in. -/
structure Net (c c' : BlockChain) (r : ImportRoute) : Prop where
  live : ∀ x, x ∈ r.liveBlocks ↔ x ∈ c'.canonical ∧ x ∉ c.canonical
  dead : ∀ x, x ∈ r.deadBlocks ↔ x ∈ c.canonical ∧ x ∉ c'.canonical
  good : r.goodTranactions = r.liveBlocks.flatMap fun x => (c'.blockOf x).transactions

/-- The blocks that leave the canonical chain when `b` becomes the head were in that of `c₀`, and
those that come into it were not. -/
def Onward (H : Hasher) (c₀ c : BlockChain) (b : VerifiedBlock) : Prop :=
  c.wins b (c.weightOf b.info.parentHash + b.info.difficulty) = true →
    (∀ x ∈ c.canonical, x ∉ c.lineage b.info.parentHash → x ∈ c₀.canonical) ∧
      ∀ x ∈ c.lineage b.info.parentHash ++ [b.info.hash H], x ∉ c.canonical → x ∉ c₀.canonical

theorem Onward.refl (c : BlockChain) (b : VerifiedBlock) : Onward H c c b :=
  fun _ => ⟨fun _ hx _ => hx, fun _ _ hx => hx⟩

/-- Only `b` itself has transactions among the blocks that become canonical with it, and none if it
does not. -/
def Plain (c : BlockChain) (b : VerifiedBlock) : Prop :=
  if c.wins b (c.weightOf b.info.parentHash + b.info.difficulty) = true then
    ∀ x ∈ c.lineage b.info.parentHash, x ∉ c.canonical → (c.blockOf x).transactions = []
  else b.transactions = []

section
variable {td : U256} {receipts : List TransactionReceipt} {meanwhile : List ℕ} {route : ImportRoute}
  (hinsert : Insertion H b td receipts meanwhile c route c') (hb : Fits H c b) (h : Headed H c)
  (hnew : b.info.hash H ∉ c.canonical)
include hinsert hb h hnew

theorem Insertion.notMem_canonical {x : H256} (hx : x ∈ route.liveBlocks) : x ∉ c.canonical := by
  cases hinsert with
  | side hkin hparent hbest => cases hx
  | head hkin hparent hbest hroute =>
    rcases mem_append.mp hx with hpassed | hlast
    · exact ((hroute.mem_passed_iff h hb.parent).mp (mem_reverse.mp hpassed)).2
    · rwa [mem_singleton.mp hlast]

theorem Insertion.mem_liveBlocks {x : H256} :
    x ∈ route.liveBlocks ↔ x ∈ c'.canonical ∧ x ∉ c.canonical := by
  obtain ⟨keep, hbefore, hafter⟩ := hinsert.canonical_eq hb h
  constructor
  · intro hx
    rw [hafter]
    exact ⟨mem_append_right _ hx, hinsert.notMem_canonical hb h hnew hx⟩
  · intro hx
    obtain ⟨hin, hnot⟩ := hx
    rw [hafter] at hin
    rw [hbefore] at hnot
    exact (mem_append.mp hin).resolve_left fun hkeep => hnot (mem_append_left _ hkeep)

theorem Insertion.mem_deadBlocks {x : H256} :
    x ∈ route.deadBlocks ↔ x ∈ c.canonical ∧ x ∉ c'.canonical := by
  obtain ⟨keep, hbefore, hafter⟩ := hinsert.canonical_eq hb h
  have hnodup := h.canonical_nodup
  rw [hbefore] at hnodup
  constructor
  · intro hx
    have hin : x ∈ c.canonical := by
      rw [hbefore]
      exact mem_append_right _ (mem_reverse.mpr hx)
    refine ⟨hin, fun hmem => ?_⟩
    rw [hafter] at hmem
    rcases mem_append.mp hmem with hkeep | hlive
    · exact disjoint_of_nodup_append hnodup hkeep (mem_reverse.mpr hx)
    · exact hinsert.notMem_canonical hb h hnew hlive hin
  · intro hx
    obtain ⟨hin, hnot⟩ := hx
    rw [hbefore] at hin
    rw [hafter] at hnot
    rcases mem_append.mp hin with hkeep | hdead
    · exact absurd (mem_append_left _ hkeep) hnot
    · exact mem_reverse.mp hdead

end

/-- Two changes one after the other, from `p` over `q` to `s`, where the second takes nothing of the
first back. -/
theorem change_iff {p q s : Prop} (hleave : q ∧ ¬ s → p) (hcome : s ∧ ¬ q → ¬ p) :
    q ∧ ¬ p ∨ s ∧ ¬ q ↔ s ∧ ¬ p := by
  by_cases hq : q
  · have hs : ¬ p → s := fun hp => not_not.mp fun hs => hp (hleave ⟨hq, hs⟩)
    simpa [hq] using hs
  · simpa [hq] using hcome

section
variable {receipts : List TransactionReceipt} {meanwhile : List ℕ} {route : ImportRoute}
  (hinsert : Insertion H b (c.weightOf b.info.parentHash + b.info.difficulty) receipts meanwhile c
    route c') (hb : Fits H c b)
  (h : Headed H c)
include hinsert hb h

theorem Insertion.onward_iff (hnew : b.info.hash H ∉ c.canonical) : Onward H c₀ c b ↔
    ∀ x, (x ∈ c.canonical ∧ x ∉ c'.canonical → x ∈ c₀.canonical) ∧
    (x ∈ c'.canonical ∧ x ∉ c.canonical → x ∉ c₀.canonical) := by
  unfold Onward
  by_cases hbest : c.wins b (c.weightOf b.info.parentHash + b.info.difficulty) = true
  · rw [hinsert.canonical_head hb h hbest]
    constructor
    · intro honward x
      obtain ⟨hleave, hcome⟩ := honward hbest
      refine ⟨fun hx => hleave x hx.1 fun hlineage => hx.2 (mem_append_left _ hlineage), fun hx =>
        hcome x hx.1 hx.2⟩
    · intro hall _
      refine ⟨fun x hx hnot => (hall x).1 ⟨hx, fun hmem => ?_⟩, fun x hx hnot => (hall x).2 ⟨hx, hnot⟩⟩
      rcases mem_append.mp hmem with hlineage | hlast
      · exact hnot hlineage
      · rw [mem_singleton.mp hlast] at hx
        exact hnew hx
  · have hcanonical : c'.canonical = c.canonical := by
      unfold canonical
      rw [hinsert.lastBlockHash, if_neg hbest, hinsert.lineage_old hb h h.head.1]
    rw [hcanonical]
    exact iff_of_true (fun hwins => absurd hwins hbest) fun x =>
      ⟨fun hx => absurd hx.1 hx.2, fun hx => absurd hx.1 hx.2⟩

theorem Insertion.plain_iff (hsame : Same H c b) :
    route.goodTranactions = (route.liveBlocks.flatMap fun x => (c'.blockOf x).transactions) ↔
    Plain c b := by
  have hblock : c'.blockOf (b.info.hash H) = b := hinsert.blockOf_new hb
  have hold (x : H256) (hx : x ∈ c.lineage b.info.parentHash) : c'.blockOf x = c.blockOf x :=
    hinsert.blockOf_old hb h hsame (h.treelike.stored_of_mem_lineage hb.parent hx)
  unfold Plain
  cases hinsert with
  | side hkin hparent hbest =>
    rw [hbest, if_neg Bool.false_ne_true]
    rfl
  | head hkin hparent hbest hroute =>
    rw [if_pos hbest]
    dsimp only
    rw [flatMap_append, flatMap_singleton, hblock, self_eq_append_left, flatMap_eq_nil_iff]
    constructor
    · intro hall x hlineage hnot
      rw [← hold x hlineage]
      exact hall x (mem_reverse.mpr ((hroute.mem_passed_iff h hb.parent).mpr ⟨hlineage, hnot⟩))
    · intro hall x hx
      obtain ⟨hlineage, hnot⟩ := (hroute.mem_passed_iff h hb.parent).mp (mem_reverse.mp hx)
      rw [hold x hlineage]
      exact hall x hlineage hnot

/-- The route stays the net change exactly if the insertion goes on from what was there before the
batch. -/
theorem Net.insert_iff (hnet : Net c₀ c r) (hsame : Same H c b) (hnew : b.info.hash H ∉ c.canonical) :
    Net c₀ c' (r.append route) ↔ Onward H c₀ c b ∧ Plain c b := by
  have hlive (x : H256) : x ∈ (r.append route).liveBlocks ↔ (x ∈ c.canonical ∧ x ∉ c₀.canonical) ∨
    x ∈ c'.canonical ∧ x ∉ c.canonical := by
    change x ∈ r.liveBlocks ++ route.liveBlocks ↔ _
    rw [mem_append, hnet.live, hinsert.mem_liveBlocks hb h hnew]
  have hdead (x : H256) : x ∈ (r.append route).deadBlocks ↔ (x ∈ c₀.canonical ∧ x ∉ c.canonical) ∨
    x ∈ c.canonical ∧ x ∉ c'.canonical := by
    change x ∈ r.deadBlocks ++ route.deadBlocks ↔ _
    rw [mem_append, hnet.dead, hinsert.mem_deadBlocks hb h hnew]
  have hgood : (r.append route).goodTranactions =
    ((r.append route).liveBlocks.flatMap fun x => (c'.blockOf x).transactions) ↔ Plain c b := by
    have hold : (r.liveBlocks.flatMap fun x => (c'.blockOf x).transactions) = r.goodTranactions := by
      rw [hnet.good]
      apply flatMap_congr
      intro x hx
      have hstored := h.treelike.stored_of_mem_lineage h.head.1 ((hnet.live x).mp hx).1
      rw [hinsert.blockOf_old hb h hsame hstored]
    change r.goodTranactions ++ route.goodTranactions = (r.liveBlocks ++ route.liveBlocks).flatMap _ ↔ _
    rw [flatMap_append, hold, append_cancel_left_eq]
    exact hinsert.plain_iff hb h hsame
  rw [hinsert.onward_iff hb h hnew]
  constructor
  · intro hnet'
    refine ⟨fun x => ⟨fun hx => ?_, fun hx => ?_⟩, hgood.mp hnet'.good⟩
    · exact ((hnet'.dead x).mp ((hdead x).mpr (.inr hx))).1
    · exact ((hnet'.live x).mp ((hlive x).mpr (.inr hx))).2
  · intro hcond
    obtain ⟨honward, hplain⟩ := hcond
    refine ⟨fun x => ?_, fun x => ?_, hgood.mpr hplain⟩
    · rw [hlive]
      exact change_iff (honward x).1 (honward x).2
    · rw [hdead, or_comm]
      exact change_iff (fun hx => not_not.mp fun hnot => hx.2 ((honward x).1 ⟨hx.1, hnot⟩))
        fun hx hmem => (honward x).2 ⟨hmem, hx.2⟩ hx.1

end

theorem Near.net (hn : Near c c') (hnet : Net c₀ c r) : Net c₀ c' r := by
  obtain ⟨hlive, hdead, hgood⟩ := hnet
  refine ⟨?_, ?_, ?_⟩
  · rwa [hn.canonical]
  · rwa [hn.canonical]
  · rwa [hn.blockOf]

theorem knows_of_import (enact : VerifiedBlock → Except EnactError (List TransactionReceipt))
    (utcTime : U256) (meanwhile : List ℕ) :
    Ends (import_ H enact utcTime true meanwhile b) c fun r _ => ∀ route, r = .ok route →
    c.knows (b.info.hash H) = false := by
  cases hknows : c.knows (b.info.hash H) with
  | false => exact fun _ _ _ _ _ => rfl
  | true =>
    unfold import_ alreadyHave
    rw [ends_bind, ends_lift, if_pos rfl]
    change Ends (if c.knows (b.info.hash H) = true then _ else _) _ _
    rw [if_pos hknows]
    refine (ends_pure _).mpr fun route hr => ?_
    cases hr

theorem Headed.knows_canonical (h : Headed H c) {x : H256} (hx : x ∈ c.canonical) :
    c.knows x = true := by
  have hstored := h.treelike.stored_of_mem_lineage h.head.1 hx
  obtain ⟨n, hn, rfl⟩ := mem_map.mp hx
  have hle : n ≤ c.numberOf c.lastBlockHash := Nat.le_of_lt_succ (mem_range.mp hn)
  have hnumber : c.numberOf (c.ancestorOf c.lastBlockHash n) = n :=
    h.treelike.rooted.height_ancestor h.head.1 hle
  have hinserted : c.Inserted (c.ancestorOf c.lastBlockHash n) := by
    by_cases hgenesis : c.ancestorOf c.lastBlockHash n = c.genesisHash
    · exact .inl hgenesis
    · obtain ⟨b', hb', -⟩ := h.treelike.block _ hstored hgenesis
      right
      rw [hb']
      exact ⟨rfl, hstored⟩
  rw [knows_iff hinserted, hnumber, ← h.head.2]
  exact .inr hle

theorem Turn.notMem_canonical (h : Headed H c) (t : Turn) {route : ImportRoute}
    (hrun : (t.import_ H b).run c = .ok (.ok route, c')) : b.info.hash H ∉ c.canonical := by
  intro hmem
  have hfalse := knows_of_import t.enact t.utcTime t.meanwhile _ _ hrun route rfl
  rw [h.knows_canonical hmem] at hfalse
  cases hfalse

/-- The import was accepted, so it has to go on from what was there before the batch. -/
def Outcome.Continues (H : Hasher) (c₀ : BlockChain) (o : Outcome) : Prop :=
  ∀ route, o.result = .ok route → Onward H c₀ o.before o.block ∧ Plain o.before o.block

/-- The route of what `sync` has gathered. -/
def Gathered.route (g : Gathered) : ImportRoute := ⟨g.dead, g.fresh, g.goodTransactions⟩

theorem Gathered.route_add_error (g : Gathered) (e : ImportError) :
    (g.add H b (.error e)).route = g.route := by
  cases e <;> rfl

theorem Gathered.route_add_ok (g : Gathered) (route : ImportRoute) :
    (g.add H b (.ok route)).route = g.route.append route := rfl

namespace Batch

theorem orderly (hbatch : Batch H turns i c os c') (h : Headed H c) {rest : List VerifiedBlock}
    (ho : Orderly H c (os.map (·.block) ++ rest)) : Headed H c' ∧ Orderly H c' rest := by
  induction hbatch with
  | nil => exact ⟨h, ho⟩
  | cons hrun _ ih =>
    obtain ⟨h₁, ho₁, -⟩ := (Turn.import_spec h ho (turns _)).ends _ _ hrun
    exact ih h₁ ho₁

theorem net (hbatch : Batch H turns i c os c') (h : Headed H c)
    (ho : Orderly H c (os.map (·.block))) {g : Gathered} (hnet : Net c₀ c g.route)
    (hall : ∀ o ∈ os, o.Continues H c₀) : Net c₀ c' (g.addAll H os).route := by
  induction hbatch generalizing g with
  | nil => exact hnet
  | cons hrun _ ih =>
    rename_i r _ _
    obtain ⟨h₁, ho₁, hcases⟩ := (Turn.import_spec h ho (turns _)).ends _ _ hrun
    apply ih h₁ ho₁ (g := g.add H _ r) _ fun o ho => hall o (mem_cons_of_mem _ ho)
    rcases hcases with ⟨⟨e, rfl⟩, hk⟩ | ⟨route, receipts, rfl, hfits, hinsert⟩
    · rw [Gathered.route_add_error]
      exact hk.toNear.net hnet
    · rw [Gathered.route_add_ok]
      have hnew := Turn.notMem_canonical h _ hrun
      have hcontinues := hall _ mem_cons_self route rfl
      exact (hnet.insert_iff hinsert hfits h (ho.same _ mem_cons_self) hnew).mpr hcontinues

theorem net_iff (hbatch : Batch H turns i c (os ++ [o]) c') (h : Headed H c)
    (ho : Orderly H c (os.map (·.block) ++ [o.block])) {g : Gathered} (hnet : Net c₀ c g.route)
    (hall : ∀ p ∈ os, p.Continues H c₀) : Net c₀ c' (g.addAll H (os ++ [o])).route ↔
    o.Continues H c₀ := by
  obtain ⟨hbefore, j, c₁, hrun, hrest⟩ := hbatch.split
  cases hrest with
  | nil =>
    obtain ⟨hb, ho'⟩ := hbefore.orderly h ho
    have hnet' := hbefore.net h (ho.left) hnet hall
    have hadd : g.addAll H (os ++ [o]) = (g.addAll H os).add H o.block o.result := foldl_append
    obtain ⟨-, -, hcases⟩ := (Turn.import_spec hb ho' o.turn).ends _ _ hrun
    rw [hadd]
    rcases hcases with ⟨⟨e, he⟩, hk⟩ | ⟨route, receipts, hr, hfits, hinsert⟩
    · rw [he, Gathered.route_add_error]
      apply iff_of_true (hk.toNear.net hnet')
      intro route hr
      rw [he] at hr
      cases hr
    · rw [hr] at hrun ⊢
      have hnew := Turn.notMem_canonical hb _ hrun
      rw [Gathered.route_add_ok, hnet'.insert_iff hinsert hfits hb (ho'.same _ mem_cons_self) hnew]
      constructor
      · intro hcond _ _
        exact hcond
      · intro hcontinues
        exact hcontinues route hr

end Batch

theorem Net.refl (c : BlockChain) : Net c c ⟨[], [], []⟩ := by
  refine ⟨fun x => ?_, fun x => ?_, rfl⟩
  · exact iff_of_false not_mem_nil fun hx => hx.2 hx.1
  · exact iff_of_false not_mem_nil fun hx => hx.2 hx.1

/-- `Client::onChainChanged`: what is done with the queue of transactions. -/
def onChainChanged (c : BlockChain) (ir : ImportRoute) : List TransactionQueue.Op :=
  (ir.deadBlocks.flatMap fun hash => (c.blockOf hash).transactionData.map fun t =>
    .importRLP t .Retry) ++ ir.goodTranactions.map .dropGood

theorem Net.dropGood (hnet : Net c c' r) {t : TransactionBase}
    (ht : .dropGood t ∈ onChainChanged c' r) :
    ∃ x ∈ c'.canonical, t ∈ (c'.blockOf x).transactions := by
  rcases mem_append.mp ht with hdead | hgood
  · obtain ⟨x, -, hx⟩ := mem_flatMap.mp hdead
    obtain ⟨data, -, hdata⟩ := mem_map.mp hx
    cases hdata
  · obtain ⟨t', hmem, heq⟩ := mem_map.mp hgood
    cases heq
    rw [hnet.good] at hmem
    obtain ⟨x, hx, htx⟩ := mem_flatMap.mp hmem
    exact ⟨x, ((hnet.live x).mp hx).1, htx⟩

section
variable (read : Bytes → BlockBody) (turns : ℕ → Turn) (others : BlockQueue → BlockQueue)
  (threads : ℕ → List ℕ) (max : ℕ) (q : BlockQueue)

/-- The route of a batch whose imports all go on from what was there before it is the net change,
and only transactions of canonical blocks are dropped. With one more import it is if and only if
that one goes on, too. -/
theorem sync_route_net (h : Headed H c) (ho : Orderly H c ((q.drain H max).1.map (·.verified read))) :
    ∃ r c' os, (sync H read turns others threads max q).run c = .ok (r, c') ∧ Batch H turns 0 c os c' ∧
      os.map (·.block) = (q.drain H max).1.map (·.verified read) ∧
      ((∀ o ∈ os, o.Continues H c) → Net c c' r.route ∧
        ∀ t, .dropGood t ∈ onChainChanged c' r.route → ∃ x ∈ c'.canonical, t ∈ (c'.blockOf x).transactions) ∧
      ∀ l o, os = l ++ [o] → (∀ p ∈ l, p.Continues H c) → (Net c c' r.route ↔ o.Continues H c) := by
  obtain ⟨r, c', hrun⟩ := sync_returns read turns others threads max q h ho
  obtain ⟨os, hbatch, hblocks, hroute, -⟩ := sync_spec read turns others threads max q r c' hrun
  refine ⟨r, c', os, hrun, hbatch, hblocks, fun hall => ?_, ?_⟩
  · rw [← hblocks] at ho
    have hnet : Net c c' r.route := by
      rw [hroute]
      exact hbatch.net h ho (g := {}) (Net.refl c) hall
    exact ⟨hnet, fun t ht => hnet.dropGood ht⟩
  · rintro l o rfl hall
    rw [← hblocks, map_append] at ho
    rw [hroute]
    exact hbatch.net_iff h ho (g := {}) (Net.refl c) hall

end

def callBody (data : Bytes) : BlockBody :=
  if data = [1] then ⟨[exampleCall], [exampleCallData], []⟩ else ⟨[], [], []⟩

def verifiedQueue (blocks : List (VerifiedBlock × Bytes)) : BlockQueue :=
  { BlockQueue.empty with
    verified := blocks.map fun b => ⟨b.1.info, b.2⟩
    readySet := (blocks.map fun b => b.1.info.hash tailHasher).toFinset
    difficulty := (blocks.map fun b => b.1.info.difficulty).sum }

def exampleTurn : Turn := ⟨fun _ => .ok [], 1000, []⟩

def routeSync (blocks : List (VerifiedBlock × Bytes)) : Process BlockChain Synced :=
  sync tailHasher callBody (fun _ => exampleTurn) id (fun _ => []) 10 (verifiedQueue blocks)

/-- A block extends the chain, and a heavier sibling in the same batch takes its place: it is
returned as live and as dead, though it is canonical neither before nor after, and its transaction
is dropped, though it is in no canonical block. -/
theorem sync_route_transient :
    ∃ r, (routeSync [(exampleBlock 1 101 100 1, [1]), (exampleBlock 1 201 100 5, [2])]).run
    exampleGenesis = .ok r ∧ exampleGenesis.canonical = [100] ∧ r.2.canonical = [100, 201] ∧
    r.1.route = ⟨[101], [101, 201], [exampleCall]⟩ ∧
    (r.2.canonical.flatMap fun x => (r.2.blockOf x).transactions) = [] := by
  exact Except.exists_ok_and (by decide +kernel)

theorem exampleGenesis_headed : Headed tailHasher exampleGenesis :=
  (indexed_opened rfl (by decide)).headed

def calledBlock : VerifiedBlock :=
  ⟨(exampleBlock 1 101 100 1).info, [exampleCall], [exampleCallData], []⟩

theorem sync_route_net_example : ∃ r c',
    (routeSync [(exampleBlock 1 101 100 1, [1]), (exampleBlock 2 102 101 1, [2])]).run exampleGenesis =
      .ok (r, c') ∧ Net exampleGenesis c' r.route ∧ r.route.liveBlocks = [101, 102] := by
  obtain ⟨⟨r₁, c₁⟩, hfirst, hcanonical, hlineage⟩ :
      ∃ a, (exampleTurn.import_ tailHasher calledBlock).run exampleGenesis = .ok a ∧
        a.2.canonical = [100, 101] ∧ a.2.lineage 101 = [100, 101] :=
    Except.exists_ok_and (by decide +kernel)
  have horderly : Orderly tailHasher exampleGenesis [calledBlock, exampleBlock 2 102 101 1] := by
    constructor <;> decide +kernel
  obtain ⟨r, c', os, hrun, hbatch, hblocks, hnet, -⟩ :=
    sync_route_net callBody (fun _ => exampleTurn) id (fun _ => []) 10
      (verifiedQueue [(exampleBlock 1 101 100 1, [1]), (exampleBlock 2 102 101 1, [2])])
      exampleGenesis_headed horderly
  have hroute : ((routeSync [(exampleBlock 1 101 100 1, [1]), (exampleBlock 2 102 101 1, [2])]).run
      exampleGenesis).toOption.map (·.1.route.liveBlocks) = some [101, 102] := by
    decide +kernel
  refine ⟨r, c', hrun, (hnet ?_).1, ?_⟩
  · have htwo : os.map (·.block) = [calledBlock, exampleBlock 2 102 101 1] := hblocks
    cases hbatch with
    | nil => cases htwo
    | cons hrun₁ hrest =>
      obtain ⟨rfl, hone⟩ := cons_eq_cons.mp htwo
      cases hrest with
      | nil => cases hone
      | cons hrun₂ hrest =>
        obtain ⟨rfl, hnone⟩ := cons_eq_cons.mp hone
        obtain ⟨rfl, rfl⟩ := Prod.mk.inj (Except.ok.inj (hfirst.symm.trans hrun₁))
        obtain rfl := map_eq_nil_iff.mp hnone
        have hsame : c₁.lineage 101 = c₁.canonical := hlineage.trans hcanonical.symm
        have hin (x : H256) (hx : x ∈ c₁.lineage 101) (hnot : x ∉ c₁.canonical) : False :=
          hnot (hsame ▸ hx)
        refine forall_mem_cons.mpr ⟨fun _ _ => ⟨.refl _ _, ?_⟩,
          forall_mem_singleton.mpr fun _ _ => ⟨fun _ => ⟨?_, ?_⟩, ?_⟩⟩
        · change Plain exampleGenesis calledBlock
          unfold Plain
          rw [if_pos (by decide +kernel)]
          exact fun x hx hnot => absurd hx hnot
        · exact fun x hx hnot => absurd (hsame ▸ hx) hnot
        · intro x hx hnot
          rcases mem_append.mp hx with hx | hx
          · exact (hin x hx hnot).elim
          · rw [mem_singleton.mp hx]
            change 102 ∉ exampleGenesis.canonical
            decide +kernel
        · unfold Plain
          split_ifs
          · exact fun x hx hnot => (hin x hx hnot).elim
          · rfl
  · rw [routeSync, hrun] at hroute
    exact Option.some.inj hroute

end BlockChain
end Vapory
