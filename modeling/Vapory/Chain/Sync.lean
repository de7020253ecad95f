import Vapory.Chain.ForkBlock
import Vapory.Chain.Lineage

/-! `BlockChain::sync`: the blocks of a batch go from the queue to the chain, and those that are bad
are reported to the queue. -/
namespace Vapory
open List

/-- What the bytes of a block have besides its header. -/
structure BlockBody where
  transactions : List TransactionBase
  transactionData : List Bytes
  uncles : List BlockHeader

/-- `verified` of a block in the queue. -/
def QueuedBlock.verified (read : Bytes → BlockBody) (b : QueuedBlock) : VerifiedBlock :=
  let body := read b.blockData
  ⟨b.info, body.transactions, body.transactionData, body.uncles⟩

namespace BlockChain

/-- What an import in `sync` depends on besides the chain and the block. -/
structure Turn where
  enact : VerifiedBlock → Except EnactError (List TransactionReceipt)
  utcTime : U256
  meanwhile : List ℕ

/-- What `sync` gathers from the imports. -/
structure Gathered where
  fresh : List H256 := []
  dead : List H256 := []
  badBlocks : List H256 := []
  goodTransactions : List TransactionBase := []
  count : ℕ := 0

/-- What `sync` returns, and the queue after it. -/
structure Synced where
  route : ImportRoute
  more : Bool
  count : ℕ
  queue : BlockQueue

section
variable (H : Hasher)

/-- The part of a turn in `sync` after the import. Where the source says `continue`, it leaves the
`do` around the turn, whose condition is `false`, so the block is not tried again. -/
def Gathered.add (block : VerifiedBlock) (g : Gathered) : Except ImportError ImportRoute → Gathered
  | .ok r =>
    { g with
      fresh := g.fresh ++ r.liveBlocks
      dead := g.dead ++ r.deadBlocks
      goodTransactions := g.goodTransactions ++ r.goodTranactions
      count := (g.count + 1) % 2 ^ 32 }
  | .error .AlreadyHaveBlock => g
  | .error .FutureTime => g
  | .error .TransientError => g
  | .error _ => { g with badBlocks := g.badBlocks ++ [block.info.hash H] }

/-- The import of a block in `sync`. -/
def Turn.import_ (t : Turn) (block : VerifiedBlock) :
    Process BlockChain (Except ImportError ImportRoute) :=
  BlockChain.import_ H t.enact t.utcTime true t.meanwhile block

/-- The loop of `sync`. -/
def syncLoop (turns : ℕ → Turn) : ℕ → List VerifiedBlock → Gathered → Process BlockChain Gathered
  | _, [], g => return g
  | i, block :: blocks, g => do
    let r ← (turns i).import_ H block
    syncLoop turns (i + 1) blocks (g.add H block r)

/-- `sync`. Before `doneDrain` others may have done something with the queue. -/
def sync (read : Bytes → BlockBody) (turns : ℕ → Turn) (others : BlockQueue → BlockQueue)
    (threads : ℕ → List ℕ) (max : ℕ) (q : BlockQueue) : Process BlockChain Synced := do
  let (blocks, q) := q.drain H max
  let g ← syncLoop H turns 0 (blocks.map (·.verified read)) {}
  let q := (others q).doneDrain H (g.badBlocks.zipIdx.map fun bad => (bad.1, threads bad.2))
  return ⟨⟨g.dead, g.fresh, g.goodTransactions⟩, decide (q.readySet ≠ ∅), g.count, q⟩

end

structure Outcome where
  block : VerifiedBlock
  turn : Turn
  before : BlockChain
  result : Except ImportError ImportRoute

inductive Batch (H : Hasher) (turns : ℕ → Turn) : ℕ → BlockChain → List Outcome → BlockChain →
    Prop where
  | nil {i : ℕ} {c : BlockChain} : Batch H turns i c [] c
  | cons {i : ℕ} {c c₁ c' : BlockChain} {b : VerifiedBlock} {r : Except ImportError ImportRoute}
    {rest : List Outcome}
    (hrun : ((turns i).import_ H b).run c = .ok (r, c₁)) (hrest : Batch H turns (i + 1) c₁ rest c') :
    Batch H turns i c (⟨b, turns i, c, r⟩ :: rest) c'

variable {H : Hasher} {c c' c₁ : BlockChain} {b : VerifiedBlock} {turns : ℕ → Turn} {i : ℕ}
  {o : Outcome} {os l l' : List Outcome}

def Gathered.addAll (H : Hasher) (g : Gathered) (os : List Outcome) : Gathered :=
  os.foldl (fun g o => g.add H o.block o.result) g

theorem syncLoop_spec (i : ℕ) (blocks : List VerifiedBlock) (g : Gathered) :
    Ends (syncLoop H turns i blocks g) c fun g' c' =>
    ∃ os, Batch H turns i c os c' ∧ os.map (·.block) = blocks ∧ g' = g.addAll H os := by
  induction blocks generalizing i c g with
  | nil => exact (ends_pure _).mpr ⟨[], .nil, rfl, rfl⟩
  | cons b blocks ih =>
    unfold syncLoop
    rw [ends_bind]
    intro r c₁ hrun
    refine (ih (i + 1) (g.add H b r)).mono fun g' c' hrest => ?_
    obtain ⟨os, hbatch, rfl, rfl⟩ := hrest
    exact ⟨_, .cons hrun hbatch, rfl, rfl⟩

namespace Outcome

def reported (o : Outcome) : Bool :=
  match o.result with
  | .ok _ => false
  | .error .AlreadyHaveBlock => false
  | .error .FutureTime => false
  | .error .TransientError => false
  | .error _ => true

def deferred (o : Outcome) : Bool :=
  match o.result with
  | .error .FutureTime => true
  | .error .TransientError => true
  | _ => false

/-- The time of the block is in the future, or the state of its parent is missing. -/
def Postponed (o : Outcome) : Prop :=
  o.block.info.timestamp > o.turn.utcTime ∧ o.before.allowFutureBlocks = false ∨
    o.turn.enact o.block = .error .BadRoot

/-- The import failed, and not because the parent was unknown. -/
def OwnFault (o : Outcome) : Prop :=
  o.reported = true ∧ (o.result = .error .UnknownParent → o.turn.enact o.block = .error .UnknownParent)

end Outcome

/-- The parent of the block was in the chain `c` before the batch, or is among the blocks before
it. -/
def Attached (H : Hasher) (c : BlockChain) (earlier : List Outcome) (o : Outcome) : Prop :=
  c.Inserted o.block.info.parentHash ∨
    ∃ p ∈ earlier, p.block.info.hash H = o.block.info.parentHash

/-- A block failed by itself, or its parent is one of those before it and is to blame. -/
inductive Blamed (H : Hasher) : List Outcome → Outcome → Prop where
  | own {earlier : List Outcome} {o : Outcome} (h : o.OwnFault) : Blamed H earlier o
  | child {l l' : List Outcome} {p o : Outcome} (hp : p.block.info.hash H = o.block.info.parentHash)
    (h : Blamed H l p) : Blamed H (l ++ p :: l') o

theorem badBlocks_addAll (g : Gathered) (os : List Outcome) :
    (g.addAll H os).badBlocks = g.badBlocks ++ (os.filter (·.reported)).map (·.block.info.hash H) := by
  unfold Gathered.addAll
  induction os generalizing g with
  | nil => simp
  | cons o os ih =>
    have hadd : (g.add H o.block o.result).badBlocks =
        g.badBlocks ++ if o.reported = true then [o.block.info.hash H] else [] := by
      unfold Gathered.add Outcome.reported
      split <;> simp
    rw [foldl_cons, ih, hadd, filter_cons]
    split_ifs <;> simp

theorem Refused.reasons {enact : VerifiedBlock → Except EnactError (List TransactionReceipt)}
    {utcTime : U256} {e : ImportError} (h : Refused H enact utcTime c b e) :
    (e = .AlreadyHaveBlock → c.Inserted (b.info.hash H)) ∧
      (e = .UnknownParent → ¬ c.Inserted b.info.parentHash ∨ enact b = .error .UnknownParent) ∧
      (e = .FutureTime → b.info.timestamp > utcTime ∧ c.allowFutureBlocks = false) ∧
      (e = .TransientError → enact b = .error .BadRoot) := by
  cases h with
  | known h => simp [h]
  | orphan h => simp [h]
  | future h hparams => simp [h, hparams]
  | absent h => simp
  | header hparent h => simp
  | enact h =>
    rename_i e
    cases e <;> simp [EnactError.toImportError, h]

theorem Turn.import_outcome (t : Turn) {r : Except ImportError ImportRoute}
    (hrun : (t.import_ H b).run c = .ok (r, c')) : Extends c c' ∧
      ((⟨b, t, c, r⟩ : Outcome).reported = false → (⟨b, t, c, r⟩ : Outcome).deferred = false →
        c'.Inserted (b.info.hash H)) ∧
      ((⟨b, t, c, r⟩ : Outcome).deferred = true → (⟨b, t, c, r⟩ : Outcome).Postponed) ∧
      (r = .error .UnknownParent → ¬ c.Inserted b.info.parentHash ∨ t.enact b = .error .UnknownParent) := by
  obtain ⟨hextends, hok, herror⟩ :=
    BlockChain.import_outcome (H := H) t.enact t.utcTime true t.meanwhile b r c' hrun
  have hreasons (e : ImportError) (he : r = .error e) (hne : e ≠ .invalid) :=
    ((herror e he).resolve_right hne).reasons
  refine ⟨hextends, fun hreported hdeferred => ?_, fun hdeferred => ?_, fun hunknown => ?_⟩
  · cases r with
    | ok route => exact hok route rfl
    | error e =>
      cases e with
      | AlreadyHaveBlock => exact hextends.inserted ((hreasons _ rfl (by decide)).1 rfl)
      | FutureTime => cases hdeferred
      | TransientError => cases hdeferred
      | UnknownParent => cases hreported
      | InvalidParentHash => cases hreported
      | header e => cases hreported
      | invalid => cases hreported
  · cases r with
    | ok route => cases hdeferred
    | error e =>
      cases e with
      | FutureTime => exact .inl ((hreasons _ rfl (by decide)).2.2.1 rfl)
      | TransientError => exact .inr ((hreasons _ rfl (by decide)).2.2.2 rfl)
      | AlreadyHaveBlock => cases hdeferred
      | UnknownParent => cases hdeferred
      | InvalidParentHash => cases hdeferred
      | header e => cases hdeferred
      | invalid => cases hdeferred
  · exact (hreasons _ hunknown (by decide)).2.1 rfl

theorem Batch.extends (h : Batch H turns i c os c') : Extends c c' := by
  induction h with
  | nil => exact .refl _
  | cons hrun _ ih => exact ((Turn.import_outcome _ hrun).1).trans ih

namespace Batch

theorem split (h : Batch H turns i c (l ++ o :: l') c') : Batch H turns i c l o.before ∧
    ∃ j c₁, (o.turn.import_ H o.block).run o.before = .ok (o.result, c₁) ∧
    Batch H turns j c₁ l' c' := by
  induction l generalizing i c with
  | nil =>
    cases h with
    | cons hrun hrest => exact ⟨.nil, _, _, hrun, hrest⟩
  | cons p l ih =>
    cases h with
    | cons hrun hrest =>
      obtain ⟨hbatch, htail⟩ := ih hrest
      exact ⟨.cons hrun hbatch, htail⟩

theorem inserted (h : Batch H turns i c os c') (ho : o ∈ os) (hreported : o.reported = false)
    (hdeferred : o.deferred = false) : c'.Inserted (o.block.info.hash H) := by
  obtain ⟨l, l', rfl⟩ := mem_iff_append.mp ho
  obtain ⟨-, j, c₁, hrun, hrest⟩ := h.split
  exact hrest.extends.inserted ((o.turn.import_outcome hrun).2.1 hreported hdeferred)

theorem deferred_eq_false (h : Batch H turns i c os c') (ho : o ∈ os) (hpostponed : ¬ o.Postponed) :
    o.deferred = false := by
  obtain ⟨l, l', rfl⟩ := mem_iff_append.mp ho
  obtain ⟨-, j, c₁, hrun, -⟩ := h.split
  by_contra hdeferred
  exact hpostponed ((o.turn.import_outcome hrun).2.2.1 (by simpa using hdeferred))

/-- A block that is reported is to blame. The induction goes back from the block to its parent. -/
theorem blamed (h : Batch H turns i c (l ++ o :: l') c') (hpostponed : ∀ p ∈ l, ¬ p.Postponed)
    (hattached : ∀ l₁ p l₂, l ++ [o] = l₁ ++ p :: l₂ → Attached H c l₁ p)
    (hreported : o.reported = true) : Blamed H l o := by
  induction hn : l.length using Nat.strongRecOn generalizing l o l' with
  | ind n ih =>
    obtain ⟨hbefore, j, c₁, hrun, -⟩ := h.split
    by_cases hunknown : o.result = .error .UnknownParent
    · rcases (o.turn.import_outcome hrun).2.2.2 hunknown with hparent | henact
      · rcases hattached l o [] rfl with hinserted | ⟨p, hp, hhash⟩
        · exact absurd (hbefore.extends.inserted hinserted) hparent
        · have hbad : p.reported = true := by
            by_contra hfalse
            have hinserted := hbefore.inserted hp (by simpa using hfalse)
              (hbefore.deferred_eq_false hp (hpostponed p hp))
            rw [hhash] at hinserted
            exact hparent hinserted
          obtain ⟨l₁, l₂, rfl⟩ := mem_iff_append.mp hp
          apply Blamed.child hhash
          rw [append_assoc] at h
          apply ih l₁.length _ h (fun p' hp' => hpostponed p' (mem_append_left _ hp')) _ hbad rfl
          · rw [← hn, length_append, length_cons]
            omega
          · intro l₃ p' l₄ hsplit
            apply hattached l₃ p' (l₄ ++ (l₂ ++ [o]))
            rw [← cons_append, ← append_assoc, ← hsplit]
            simp
      · exact .own ⟨hreported, fun _ => henact⟩
    · exact .own ⟨hreported, fun heq => absurd heq hunknown⟩

end Batch

/-- The blocks of a batch, with those of a chain: a hash is one of one block, no number is the one
that stands for no block, and no time the one of a header that is not valid. -/
structure Orderly (H : Hasher) (c : BlockChain) (blocks : List VerifiedBlock) : Prop where
  ne_zero : ∀ b ∈ blocks, b.info.hash H ≠ 0
  number_ne : ∀ b ∈ blocks, b.info.number.toNat ≠ 2 ^ 32 - 1
  valid : ∀ b ∈ blocks, b.info.isValid ∧ ∀ parent ∈ c.block b.info.parentHash, parent.info.isValid
  same : ∀ b ∈ blocks, Same H c b
  unique : ∀ b ∈ blocks, ∀ b' ∈ blocks, b.info.hash H = b'.info.hash H → b = b'

namespace Orderly
variable {blocks : List VerifiedBlock}

theorem sane (h : Orderly H c blocks) (hb : b ∈ blocks) : Sane H c b := by
  constructor
  · exact h.ne_zero b hb
  · intro b' hb'
    rw [h.same b hb b' hb']
    exact ⟨rfl, rfl⟩
  · exact h.number_ne b hb
  · exact (h.valid b hb).2

theorem left {rest : List VerifiedBlock} (h : Orderly H c (blocks ++ rest)) : Orderly H c blocks := by
  have hmem {b : VerifiedBlock} (hb : b ∈ blocks) : b ∈ blocks ++ rest := mem_append_left _ hb
  constructor
  · exact fun b hb => h.ne_zero b (hmem hb)
  · exact fun b hb => h.number_ne b (hmem hb)
  · exact fun b hb => h.valid b (hmem hb)
  · exact fun b hb => h.same b (hmem hb)
  · exact fun b hb b' hb' => h.unique b (hmem hb) b' (hmem hb')

theorem tail (h : Orderly H c (b :: blocks))
    (hblock : ∀ x b', c'.block x = some b' → c.block x = some b' ∨ x = b.info.hash H ∧ b' = b) :
    Orderly H c' blocks := by
  constructor
  · exact fun b' hb' => h.ne_zero b' (mem_cons_of_mem _ hb')
  · exact fun b' hb' => h.number_ne b' (mem_cons_of_mem _ hb')
  · intro b' hb'
    obtain ⟨hvalid, hparent⟩ := h.valid b' (mem_cons_of_mem _ hb')
    refine ⟨hvalid, fun parent hmem => ?_⟩
    rcases hblock _ _ hmem with hold | ⟨-, rfl⟩
    · exact hparent parent hold
    · exact (h.valid parent mem_cons_self).1
  · intro b' hb' b'' hmem
    rcases hblock _ _ hmem with hold | ⟨hhash, rfl⟩
    · exact h.same b' (mem_cons_of_mem _ hb') b'' hold
    · exact h.unique b'' mem_cons_self b' (mem_cons_of_mem _ hb') hhash.symm
  · exact fun b' hb' b'' hb'' => h.unique b' (mem_cons_of_mem _ hb') b'' (mem_cons_of_mem _ hb'')

end Orderly

variable {receipts : List TransactionReceipt} {meanwhile : List ℕ}

theorem Insertion.block_cases {td : U256} {route : ImportRoute}
    (hinsert : Insertion H b td receipts meanwhile c route c') {x : H256} {b' : VerifiedBlock}
    (hb' : c'.block x = some b') : c.block x = some b' ∨ x = b.info.hash H ∧ b' = b := by
  rw [hinsert.block_eq] at hb'
  unfold block
  split_ifs at hb' ⊢ with hgenesis
  · exact .inl hb'
  · by_cases hx : x = b.info.hash H
    · rw [hx, Function.update_self] at hb'
      exact .inr ⟨hx, (Option.some.inj hb').symm⟩
    · rw [Function.update_of_ne hx] at hb'
      exact .inl hb'

theorem Turn.import_spec (h : Headed H c) {blocks : List VerifiedBlock}
    (ho : Orderly H c (b :: blocks)) (t : Turn) :
    Returns (t.import_ H b) c fun r c' => Headed H c' ∧ Orderly H c' blocks ∧
      ((∃ e, r = .error e) ∧ Kin c c' ∨ ∃ route receipts, r = .ok route ∧ Fits H c b ∧
        Insertion H b (c.weightOf b.info.parentHash + b.info.difficulty) receipts t.meanwhile c
        route c') := by
  apply (import_cases h (ho.sane mem_cons_self) t.enact t.utcTime true t.meanwhile).mono
  intro r c' hcases
  rcases hcases with ⟨⟨e, he, -⟩, hk⟩ | ⟨route, receipts, hr, hfits, -, hinsert⟩
  · refine ⟨h.near hk.toNear, ho.tail fun x b' hb' => ?_, .inl ⟨⟨e, he⟩, hk⟩⟩
    rw [hk.block] at hb'
    exact .inl hb'
  · exact ⟨hinsert.headed hfits h, ho.tail fun x b' hb' => hinsert.block_cases hb',
      .inr ⟨route, receipts, hr, hfits, hinsert⟩⟩

theorem Insertion.inserted_cases {td : U256} {route : ImportRoute}
    (hinsert : Insertion H b td receipts meanwhile c route c') (hfits : Fits H c b) {x : H256}
    (hx : c'.Inserted x) : c.Inserted x ∨ x = b.info.hash H := by
  by_cases hnew : x = b.info.hash H
  · exact .inr hnew
  left
  obtain ⟨c₀, d, blocks, hn, -, rfl⟩ := hinsert.written
  have hgrown := hinsert.grown hfits
  rcases hx with hgenesis | ⟨hblock, hstored⟩
  · left
    rw [hgenesis, ← hn.genesisHash]
    rfl
  · right
    rw [hgrown.stored] at hstored
    refine ⟨?_, hstored.resolve_left hnew⟩
    rw [← hn.blocks]
    change (Function.update c₀.blocks _ _ x).isSome at hblock
    rwa [Function.update_of_ne hnew] at hblock

theorem Batch.inserted_cases (hbatch : Batch H turns i c os c') (h : Headed H c)
    (ho : Orderly H c (os.map (·.block))) {x : H256} (hx : c'.Inserted x) : c.Inserted x ∨
    ∃ o ∈ os, o.block.info.hash H = x := by
  induction hbatch with
  | nil => exact .inl hx
  | cons hrun _ ih =>
    obtain ⟨h₁, ho₁, hcases⟩ := (Turn.import_spec h ho (turns _)).ends _ _ hrun
    rcases ih h₁ ho₁ hx with hinserted | ⟨p, hp, hhash⟩
    · rcases hcases with ⟨-, hk⟩ | ⟨route, receipts, -, hfits, hinsert⟩
      · left
        rwa [hk.inserted] at hinserted
      · rcases hinsert.inserted_cases hfits hinserted with hold | rfl
        · exact .inl hold
        · exact .inr ⟨_, mem_cons_self, rfl⟩
    · exact .inr ⟨p, mem_cons_of_mem _ hp, hhash⟩

/-- A deferred block is lost, unless it was known before or is there twice. -/
theorem Batch.not_inserted (hbatch : Batch H turns i c os c') (h : Headed H c)
    (horderly : Orderly H c (os.map (·.block))) (hnodup : (os.map (·.block.info.hash H)).Nodup)
    (ho : o ∈ os) (hdeferred : o.deferred = true)
    (hnew : ¬ o.before.Inserted (o.block.info.hash H)) : ¬ c'.Inserted (o.block.info.hash H) := by
  induction hbatch with
  | nil => cases ho
  | cons hrun hrest ih =>
    obtain ⟨h₁, ho₁, hcases⟩ := (Turn.import_spec h horderly (turns _)).ends _ _ hrun
    obtain ⟨hhead, htail⟩ := nodup_cons.mp hnodup
    rcases mem_cons.mp ho with rfl | ho
    · intro hinserted
      rcases hrest.inserted_cases h₁ ho₁ hinserted with hold | ⟨p, hp, hhash⟩
      · rcases hcases with ⟨-, hk⟩ | ⟨route, receipts, rfl, -⟩
        · rw [hk.inserted] at hold
          exact hnew hold
        · cases hdeferred
      · exact hhead (mem_map.mpr ⟨p, hp, hhash⟩)
    · exact ih h₁ ho₁ htail ho

theorem Outcome.reported_of_deferred (h : o.deferred = true) : o.reported = false := by
  unfold deferred at h
  unfold reported
  split at h <;> simp_all

/-- Each block of a batch is known or reported after it exactly if those that are deferred were
known before. -/
theorem Batch.accounts_iff (hbatch : Batch H turns i c os c') (h : Headed H c)
    (horderly : Orderly H c (os.map (·.block))) (hnodup : (os.map (·.block.info.hash H)).Nodup) :
    (∀ o ∈ os, c'.Inserted (o.block.info.hash H) ∨
      o.block.info.hash H ∈ (os.filter (·.reported)).map (·.block.info.hash H)) ↔
      ∀ o ∈ os, o.deferred = true → o.before.Inserted (o.block.info.hash H) := by
  constructor
  · intro hall o ho hdeferred
    by_contra hnew
    rcases hall o ho with hinserted | hbad
    · exact hbatch.not_inserted h horderly hnodup ho hdeferred hnew hinserted
    · obtain ⟨p, hp, hhash⟩ := mem_map.mp hbad
      obtain ⟨hp, hreported⟩ := mem_filter.mp hp
      obtain rfl := inj_on_of_nodup_map hnodup hp ho hhash
      rw [Outcome.reported_of_deferred hdeferred] at hreported
      cases hreported
  · intro hall o ho
    by_cases hreported : o.reported = true
    · exact .inr (mem_map_of_mem (mem_filter.mpr ⟨ho, hreported⟩))
    · left
      by_cases hdeferred : o.deferred = true
      · obtain ⟨l, l', rfl⟩ := mem_iff_append.mp ho
        obtain ⟨-, j, c₁, hrun, hrest⟩ := hbatch.split
        exact hrest.extends.inserted ((o.turn.import_outcome hrun).1.inserted (hall o ho hdeferred))
      · exact hbatch.inserted ho (by simpa using hreported) (by simpa using hdeferred)

theorem syncLoop_returns (h : Headed H c) {blocks : List VerifiedBlock} (ho : Orderly H c blocks)
    (i : ℕ) (g : Gathered) : Returns (syncLoop H turns i blocks g) c fun _ _ => True := by
  induction blocks generalizing i c g with
  | nil => exact (returns_pure _).mpr trivial
  | cons b blocks ih =>
    unfold syncLoop
    rw [returns_bind]
    refine (Turn.import_spec h ho (turns i)).mono fun r c₁ hstep => ?_
    exact ih hstep.1 hstep.2.1 (i + 1) _

section
variable (read : Bytes → BlockBody) (turns : ℕ → Turn) (others : BlockQueue → BlockQueue)
  (threads : ℕ → List ℕ) (max : ℕ) (q : BlockQueue)

theorem sync_spec : Ends (sync H read turns others threads max q) c fun r c' =>
    ∃ os, Batch H turns 0 c os c' ∧ os.map (·.block) = (q.drain H max).1.map (·.verified read) ∧
      r.route = ⟨(Gathered.addAll H {} os).dead, (Gathered.addAll H {} os).fresh,
        (Gathered.addAll H {} os).goodTransactions⟩ ∧
      r.queue = (others (q.drain H max).2).doneDrain H
        (((os.filter (·.reported)).map (·.block.info.hash H)).zipIdx.map fun bad =>
          (bad.1, threads bad.2)) := by
  unfold sync
  rw [ends_bind]
  refine (syncLoop_spec 0 _ _).mono fun g c' hloop => ?_
  obtain ⟨os, hbatch, hblocks, rfl⟩ := hloop
  refine (ends_pure _).mpr ⟨os, hbatch, hblocks, rfl, ?_⟩
  rw [badBlocks_addAll]
  rfl

theorem sync_returns (h : Headed H c) (ho : Orderly H c ((q.drain H max).1.map (·.verified read))) :
    ∃ r c', (sync H read turns others threads max q).run c = .ok (r, c') := by
  have hsync : Returns (sync H read turns others threads max q) c fun _ _ => True := by
    unfold sync
    rw [returns_bind]
    have hloop : Returns (syncLoop H turns 0 _ {}) c fun _ _ => True := syncLoop_returns h ho 0 {}
    obtain ⟨g, c', hrun, -⟩ := hloop
    exact ⟨g, c', hrun, (returns_pure _).mpr trivial⟩
  obtain ⟨r, c', hrun, -⟩ := hsync
  exact ⟨r, c', hrun⟩

/-- If no import of the batch is postponed and no block is without its parent, each drained block is
in the chain after `sync` or is reported to `doneDrain`, and each that is reported is to blame. With
orderly blocks `sync` returns, and if none is there twice, each is in the chain or reported exactly
if those that are deferred were known. -/
theorem sync_accounts : (Headed H c → Orderly H c ((q.drain H max).1.map (·.verified read)) →
      ∃ r c', (sync H read turns others threads max q).run c = .ok (r, c')) ∧
    Ends (sync H read turns others threads max q) c fun r c' =>
      ∃ os, Batch H turns 0 c os c' ∧
        os.map (·.block) = (q.drain H max).1.map (·.verified read) ∧
        r.queue = (others (q.drain H max).2).doneDrain H
          (((os.filter (·.reported)).map (·.block.info.hash H)).zipIdx.map
            fun bad => (bad.1, threads bad.2)) ∧
        ((∀ o ∈ os, ¬ o.Postponed) → (∀ l o l', os = l ++ o :: l' → Attached H c l o) →
          (∀ o ∈ os, c'.Inserted (o.block.info.hash H) ∨
            o.block.info.hash H ∈ (os.filter (·.reported)).map (·.block.info.hash H)) ∧
          ∀ l o l', os = l ++ o :: l' → o.reported = true → Blamed H l o) ∧
        (Headed H c → Orderly H c (os.map (·.block)) → (os.map (·.block.info.hash H)).Nodup →
          ((∀ o ∈ os, c'.Inserted (o.block.info.hash H) ∨
            o.block.info.hash H ∈ (os.filter (·.reported)).map (·.block.info.hash H)) ↔
            ∀ o ∈ os, o.deferred = true → o.before.Inserted (o.block.info.hash H))) := by
  constructor
  · exact sync_returns read turns others threads max q
  · refine (sync_spec read turns others threads max q).mono fun r c' hspec => ?_
    obtain ⟨os, hbatch, hblocks, -, hqueue⟩ := hspec
    refine ⟨os, hbatch, hblocks, hqueue, fun hpostponed hattached => ⟨fun o ho => ?_, ?_⟩,
      hbatch.accounts_iff⟩
    · by_cases hreported : o.reported = true
      · exact .inr (mem_map_of_mem (mem_filter.mpr ⟨ho, hreported⟩))
      · exact .inl (hbatch.inserted ho (by simpa using hreported)
          (hbatch.deferred_eq_false ho (hpostponed o ho)))
    · rintro l o l' rfl hreported
      apply hbatch.blamed (fun p hp => hpostponed p (mem_append_left _ hp)) _ hreported
      intro l₁ p l₂ hsplit
      apply hattached l₁ p (l₂ ++ l')
      rw [← cons_append, ← append_assoc, ← hsplit, append_assoc]
      rfl

end

def pairHeader : Bytes → Option BlockHeader
  | [1] => some (exampleBlock 1 101 100 1).info
  | [2] => some (exampleBlock 2 102 101 1).info
  | _ => none

theorem pairHeader_eq_some {d : Bytes} {h : BlockHeader} (hread : pairHeader d = some h) :
    d = [1] ∧ h = (exampleBlock 1 101 100 1).info ∨ d = [2] ∧ h = (exampleBlock 2 102 101 1).info := by
  unfold pairHeader at hread
  split at hread
  · exact .inl ⟨rfl, (Option.some.inj hread).symm⟩
  · exact .inr ⟨rfl, (Option.some.inj hread).symm⟩
  · cases hread

def pairReader : BlockReader tailHasher where
  headerHashFromBlock d := if d = [1] then 101 else if d = [2] then 102 else 1
  verifyBlock _ := pairHeader
  verifyBlock_nil _ := rfl
  hash_eq hread := by
    rcases pairHeader_eq_some hread with ⟨rfl, rfl⟩ | ⟨rfl, rfl⟩ <;> decide
  unique hread hread' heq := by
    rcases pairHeader_eq_some hread with ⟨rfl, rfl⟩ | ⟨rfl, rfl⟩ <;>
      rcases pairHeader_eq_some hread' with ⟨rfl, rfl⟩ | ⟨rfl, rfl⟩ <;>
      first | rfl | exact absurd heq (by decide)
  sha3Uncles_ne hread d' := by
    have hne : (0 : H256) ≠ if d' = [1] then 101 else if d' = [2] then 102 else 1 := by
      split_ifs <;> decide
    rcases pairHeader_eq_some hread with ⟨rfl, rfl⟩ | ⟨rfl, rfl⟩ <;> exact hne

def pairQueue : BlockQueue := BlockQueue.execAll pairReader
  [.import_ (· == 100) 1000 [1] false, .import_ (· == 100) 1000 [2] false, .verifierTakes 0,
    .verifierEnds 0, .verifierTakes 0, .verifierEnds 0]

def Gone (q : BlockQueue) (hash : H256) : Prop :=
  hash ∉ q.readySet ∧ hash ∉ q.drainingSet ∧ hash ∉ q.unknownSet ∧ hash ∉ q.knownBad ∧
    q.verified.length = 0 ∧ q.verifying.length = 0 ∧
    q.unverified = [] ∧ q.unknown = [] ∧ q.future = []

instance (q : BlockQueue) (hash : H256) : Decidable (Gone q hash) :=
  inferInstanceAs (Decidable (_ ∧ _))

instance (c : BlockChain) (hash : H256) : Decidable (c.Inserted hash) :=
  inferInstanceAs (Decidable (_ ∨ (_ = true) ∧ (_ = true)))

def failFirst (b : VerifiedBlock) : Except EnactError (List TransactionReceipt) :=
  if b.info.number = 1 then .error .invalid else .ok []

def exampleSync (turn : Turn) : Process BlockChain Synced :=
  sync tailHasher (fun _ => ⟨[], [], []⟩) (fun _ => turn) id (fun _ => []) 10 pairQueue

/-- Block 101 fails by itself, and its child with it. -/
theorem sync_accounts_example : ∃ os : List Outcome,
    (∀ hash ∈ [101, 102], hash ∈ (os.filter (·.reported)).map (·.block.info.hash tailHasher)) ∧
    ∀ l o l', os = l ++ o :: l' → o.reported = true → Blamed tailHasher l o := by
  have hrun : ∃ r, (exampleSync ⟨failFirst, 1000, []⟩).run exampleGenesis = .ok r ∧
      ¬ r.2.Inserted 101 ∧ ¬ r.2.Inserted 102 := Except.exists_ok_and (by decide +kernel)
  obtain ⟨⟨r, c'⟩, hrun, hfirst, hsecond⟩ := hrun
  obtain ⟨os, hbatch, hblocks, -, haccounts, -⟩ := (sync_accounts (fun _ => ⟨[], [], []⟩)
    (fun _ => ⟨failFirst, 1000, []⟩) id (fun _ => []) 10 pairQueue).2 r c' hrun
  have hdrained : (pairQueue.drain tailHasher 10).1.map (·.verified fun _ => ⟨[], [], []⟩) =
      [exampleBlock 1 101 100 1, exampleBlock 2 102 101 1] := by decide +kernel
  obtain ⟨o₁, rest, rfl, hone, hrest⟩ := map_eq_cons_iff.mp (hblocks.trans hdrained)
  obtain ⟨o₂, rfl, htwo⟩ := map_eq_singleton_iff.mp hrest
  have hroot (b : VerifiedBlock) : failFirst b ≠ .error .BadRoot := by
    unfold failFirst
    split_ifs <;> simp
  have hpostponed : ∀ o ∈ [o₁, o₂], ¬ o.Postponed := by
    cases hbatch with
    | cons _ hbatch =>
      cases hbatch with
      | cons =>
        obtain rfl : _ = exampleBlock 1 101 100 1 := hone
        obtain rfl : _ = exampleBlock 2 102 101 1 := htwo
        simp only [forall_mem_cons, Outcome.Postponed, not_or, not_and_or]
        exact ⟨⟨.inl (by decide), hroot _⟩, ⟨.inl (by decide), hroot _⟩,
          fun _ h => absurd h not_mem_nil⟩
  have hattached : ∀ l o l', [o₁, o₂] = l ++ o :: l' → Attached tailHasher exampleGenesis l o := by
    intro l o l' hsplit
    cases l with
    | nil =>
      obtain rfl : o₁ = o := (List.cons.inj hsplit).1
      exact .inl (hone ▸ by decide +kernel)
    | cons p l =>
      obtain ⟨rfl, htail⟩ := List.cons.inj hsplit
      cases l with
      | nil =>
        obtain rfl : o₂ = o := (List.cons.inj htail).1
        exact .inr ⟨o₁, mem_cons_self, hone ▸ htwo ▸ by decide +kernel⟩
      | cons p' l => simp at htail
  obtain ⟨hknown, hblamed⟩ := haccounts hpostponed hattached
  refine ⟨_, ?_, hblamed⟩
  have hall := fun o ho => (hknown o ho).resolve_left
  simp only [forall_mem_cons, hone, htwo] at hall
  exact forall_mem_cons.mpr ⟨hall.1 hfirst, forall_mem_singleton.mpr (hall.2.1 hsecond)⟩

/-- The state of the parent of block 101 is missing, or the clock is behind: the block is lost, and
its child is reported as bad, though nothing else is wrong with it. -/
theorem sync_loses :
    pairQueue.verified.map (·.info.hash tailHasher) = [101, 102] ∧
    (∀ turn ∈ [⟨fun b => if b.info.number = 1 then .error .BadRoot else .ok [], 1000, []⟩,
      ⟨fun _ => .ok [], 0, []⟩], ∃ r, (exampleSync turn).run exampleGenesis = .ok r ∧
      ¬ r.2.Inserted 101 ∧ Gone r.1.queue 101 ∧ 102 ∈ r.1.queue.knownBad) := by
  refine ⟨by decide +kernel, ?_⟩
  intro turn hturn
  rcases mem_cons.mp hturn with rfl | hturn
  · exact Except.exists_ok_and (by decide +kernel)
  · obtain rfl := mem_singleton.mp hturn
    exact Except.exists_ok_and (by decide +kernel)

end BlockChain
end Vapory
