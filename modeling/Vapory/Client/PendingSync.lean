import Vapory.Block.GasUsed
import Vapory.Client.Watches

/-! `Block::sync` with the transaction queue and `Client::syncTransactionQueue`: how new pending
transactions reach the filters. -/
namespace Vapory
open List

/-- What a sync takes from outside: the chain, the hash of a transaction, the price that is asked,
and the state that a transaction leaves that is refused. -/
structure SyncContext where
  node : Node
  lastHashes : H256 → List H256
  sha3 : Transaction → H256
  ask : Block → U256
  refused : Block → Transaction → State

structure SyncProgress where
  block : Block
  receipts : List TransactionReceipt := []
  goodTxs : ℕ

def maxSyncTransactions : ℕ := 1024

namespace SyncContext
variable (x : SyncContext)

/-- One transaction of the queue. What the queue drops or puts off shows in the transactions that it
gives to a later sync. -/
def attempt (s : SyncProgress) (t : Transaction) : SyncProgress :=
  if s.block.transactions.any fun u => x.sha3 u = x.sha3 t then s
  else if x.ask s.block ≤ t.gasPrice then
    match (Block.execute x.node x.lastHashes t .Committed).run s.block with
    | .ok (_, b) =>
      { block := b, receipts := s.receipts ++ b.receipts.getLast?.toList, goodTxs := s.goodTxs + 1 }
    | .error _ => { s with block := { s.block.uncommitToSeal with state := x.refused s.block t } }
  else s

/-- The rounds over the transactions. In `rounds` of them the clock is still before the deadline. -/
def syncLoop (ts : List Transaction) (rounds : ℕ) (s : SyncProgress) : SyncProgress × Bool :=
  if s.goodTxs < ts.length then
    let s := ts.foldl x.attempt { s with goodTxs := 0 }
    match rounds with
    | 0 => (s, true)
    | rounds + 1 => syncLoop ts rounds s
  else (s, false)

/-- `sync` on the top transactions `ts` of the queue: the new receipts, and whether there is more to
do. -/
def sync (ts : List Transaction) (rounds : ℕ) (b : Block) :
    Option (Block × List TransactionReceipt × Bool) :=
  if b.isSealed then none
  else
    let r := x.syncLoop ts rounds { block := b, goodTxs := ts.length - 1 }
    some (r.1.block, r.1.receipts, ts.length = maxSyncTransactions || r.2)

end SyncContext

/-- The part of `Client` that is about pending transactions. -/
structure PendingClient where
  working : Block
  postSeal : Block
  syncTransactionQueue : Bool
  base : ClientBase

namespace PendingClient

/-- `appendFromNewPending` on each receipt with a hash. -/
def appendAll (H : Hasher) (past : LogEntry → H256) (base : ClientBase)
    (reports : List (TransactionReceipt × H256)) : (H256 → Bool) × ClientBase :=
  reports.foldl (fun r report => r.2.appendFromNewPending H past report.1 r.1 report.2)
    (fun _ => false, base)

/-- `syncTransactionQueue` while the chain stays as it is. The second result are the receipts with
the hashes that go to the filters: the receipt of index `i` goes with the pending transaction of
index `i`. -/
def syncTransactions (x : SyncContext) (past : LogEntry → H256) (ts : List Transaction) (rounds : ℕ)
    (c : PendingClient) : PendingClient × List (TransactionReceipt × H256) :=
  match x.sync ts rounds c.working with
  | none => (c, [])
  | some (working, receipts, more) =>
    if receipts = [] then ({ c with working := working, syncTransactionQueue := more }, [])
    else
      let reports := receipts.zip (working.transactions.map x.sha3)
      let r := appendAll x.node.H past c.base reports
      ({ working := working, postSeal := working, syncTransactionQueue := more,
         base := r.2.noteChanged r.1 }, reports)

end PendingClient

namespace SyncContext
variable {x : SyncContext} {b : Block} {s : SyncProgress} {t : Transaction}

/-- The transaction becomes pending: it is not pending yet, pays the price and is not refused. -/
def Takes (x : SyncContext) (b : Block) (t : Transaction) : Prop :=
  (b.transactions.any fun u => x.sha3 u = x.sha3 t) = false ∧ x.ask b ≤ t.gasPrice ∧
    ∃ r, (Block.execute x.node x.lastHashes t .Committed).run b = .ok r

/-- The block after a transaction that it does not take. -/
def passed (x : SyncContext) (b : Block) (t : Transaction) : Block :=
  if b.transactions.any fun u => x.sha3 u = x.sha3 t then b
  else if x.ask b ≤ t.gasPrice then { b.uncommitToSeal with state := x.refused b t }
  else b

def Passes (x : SyncContext) : List Transaction → Block → Prop
  | [], _ => True
  | t :: ts, b => ¬ Takes x b t ∧ Passes x ts (x.passed b t)

/-- None of the transactions becomes pending in a sync, in any of its rounds over them. -/
def Idle (x : SyncContext) (ts : List Transaction) (rounds : ℕ) (b : Block) : Prop :=
  b.isSealed = true ∨ Passes x (List.replicate (rounds + 1) ts).flatten b

theorem attempt_of_takes (h : Takes x s.block t) : ∃ b receipt,
    x.attempt s t = ⟨b, s.receipts ++ [receipt], s.goodTxs + 1⟩ ∧
    b.transactions = s.block.transactions ++ [t] ∧ b.receipts = s.block.receipts ++ [receipt] := by
  obtain ⟨hnew, hask, ⟨e, b⟩, hrun⟩ := h
  obtain ⟨receipt, -, htook⟩ :=
    Block.execute_took (Q := fun _ _ => True) (fun _ _ _ => trivial) e b hrun
  have hreceipts : b.receipts = s.block.receipts ++ [receipt] := htook.receipts
  refine ⟨b, receipt, ?_, htook.transactions, hreceipts⟩
  rw [attempt, if_neg (Bool.eq_false_iff.mp hnew), if_pos hask, hrun]
  simp [hreceipts]

theorem attempt_of_not_takes (h : ¬ Takes x s.block t) :
    x.attempt s t = { s with block := x.passed s.block t } := by
  unfold attempt passed
  by_cases hmem : (s.block.transactions.any fun u => x.sha3 u = x.sha3 t) = true
  · rw [if_pos hmem, if_pos hmem]
  rw [if_neg hmem, if_neg hmem]
  by_cases hask : x.ask s.block ≤ t.gasPrice
  · rw [if_pos hask, if_pos hask]
    cases hrun : (Block.execute x.node x.lastHashes t .Committed).run s.block with
    | ok r => exact absurd ⟨Bool.eq_false_iff.mpr hmem, hask, r, hrun⟩ h
    | error e => rfl
  · rw [if_neg hask, if_neg hask]

theorem passed_transactions (b : Block) (t : Transaction) :
    (x.passed b t).transactions = b.transactions := by
  unfold passed
  split_ifs
  · rfl
  · exact b.uncommitToSeal_transactions
  · rfl

theorem passed_receipts (b : Block) (t : Transaction) : (x.passed b t).receipts = b.receipts := by
  unfold passed
  split_ifs
  · rfl
  · exact b.uncommitToSeal_receipts
  · rfl

/-- What a round that begins and a transaction preserve, a whole sync preserves. -/
theorem syncLoop_keeps {P : SyncProgress → Prop} (hround : ∀ s, P s → P { s with goodTxs := 0 })
    (hattempt : ∀ s t, P s → P (x.attempt s t)) (h : P s) (ts : List Transaction) (rounds : ℕ) :
    P (x.syncLoop ts rounds s).1 := by
  have hfold (s : SyncProgress) (hs : P s) : P (ts.foldl x.attempt { s with goodTxs := 0 }) :=
    List.foldlRecOn ts x.attempt (hround s hs) fun s hs t _ => hattempt s t hs
  induction rounds generalizing s with
  | zero =>
    rw [syncLoop]
    split_ifs
    · exact hfold s h
    · exact h
  | succ rounds ih =>
    rw [syncLoop]
    split_ifs
    · exact ih (hfold s h)
    · exact h

theorem prefix_attempt (s : SyncProgress) (t : Transaction) :
    s.block.transactions <+: (x.attempt s t).block.transactions := by
  by_cases ht : Takes x s.block t
  · obtain ⟨b, receipt, heq, htxs, -⟩ := attempt_of_takes ht
    rw [heq, htxs]
    exact prefix_append ..
  · rw [attempt_of_not_takes ht, passed_transactions]

theorem prefix_foldl (ts : List Transaction) (s : SyncProgress) :
    s.block.transactions <+: (ts.foldl x.attempt s).block.transactions := by
  induction ts generalizing s with
  | nil => exact prefix_refl _
  | cons t ts ih => exact (prefix_attempt s t).trans (ih _)

theorem passes_append (ts us : List Transaction) (b : Block) :
    Passes x (ts ++ us) b ↔ Passes x ts b ∧ Passes x us (ts.foldl x.passed b) := by
  induction ts generalizing b with
  | nil => simp [Passes]
  | cons t ts ih => simp [Passes, ih, and_assoc]

variable {ts : List Transaction}

theorem foldl_of_passes (h : Passes x ts s.block) :
    ts.foldl x.attempt s = { s with block := ts.foldl x.passed s.block } := by
  induction ts generalizing s with
  | nil => rfl
  | cons t ts ih =>
    rw [foldl_cons, foldl_cons, attempt_of_not_takes h.1, ih h.2]

theorem passed_foldl_transactions (ts : List Transaction) (b : Block) :
    (ts.foldl x.passed b).transactions = b.transactions := by
  induction ts generalizing b with
  | nil => rfl
  | cons t ts ih => rw [foldl_cons, ih, passed_transactions]

theorem foldl_transactions_iff (ts : List Transaction) (s : SyncProgress) :
    (ts.foldl x.attempt s).block.transactions = s.block.transactions ↔ Passes x ts s.block := by
  constructor
  · intro h
    induction ts generalizing s with
    | nil => exact trivial
    | cons t ts ih =>
      have hprefix : (x.attempt s t).block.transactions <+: s.block.transactions := by
        rw [← h, foldl_cons]
        exact prefix_foldl ..
      by_cases ht : Takes x s.block t
      · obtain ⟨b, receipt, heq, htxs, -⟩ := attempt_of_takes ht
        rw [heq, htxs] at hprefix
        have hlen := hprefix.length_le
        simp at hlen
      · rw [foldl_cons, attempt_of_not_takes ht] at h
        exact ⟨ht, ih { s with block := x.passed s.block t } (h.trans (passed_transactions ..).symm)⟩
  · intro h
    rw [foldl_of_passes h]
    exact passed_foldl_transactions ts s.block

theorem syncLoop_transactions_iff (ts : List Transaction) (rounds : ℕ)
    (hgood : ts ≠ [] → s.goodTxs < ts.length) :
    (x.syncLoop ts rounds s).1.block.transactions = s.block.transactions ↔
      Passes x (List.replicate (rounds + 1) ts).flatten s.block := by
  by_cases hts : ts = []
  · subst hts
    cases rounds <;> simp [syncLoop, Passes]
  have hiff := foldl_transactions_iff (x := x) ts { s with goodTxs := 0 }
  rw [replicate_succ, flatten_cons, passes_append]
  induction rounds generalizing s with
  | zero =>
    rw [syncLoop, if_pos (hgood hts)]
    simpa [Passes] using hiff
  | succ rounds ih =>
    rw [syncLoop, if_pos (hgood hts), replicate_succ, flatten_cons, passes_append]
    by_cases hpass : Passes x ts s.block
    · have hfold := foldl_of_passes (s := { s with goodTxs := 0 }) hpass
      have hrest := @ih { s with goodTxs := 0, block := ts.foldl x.passed s.block }
        (fun _ => length_pos_iff.mpr hts) (foldl_transactions_iff ..)
      rw [passed_foldl_transactions] at hrest
      rw [hfold, and_iff_right hpass]
      exact hrest
    · refine iff_of_false (fun h => hpass (hiff.mp ?_)) fun h => hpass h.1
      -- what the first round has added stays
      have hkeep := syncLoop_keeps (x := x)
        (P := fun s' => (ts.foldl x.attempt { s with goodTxs := 0 }).block.transactions <+:
        s'.block.transactions)
        (fun _ hs => hs) (fun s t hs => hs.trans (prefix_attempt s t)) (prefix_refl _) ts rounds
      rw [h] at hkeep
      exact hkeep.eq_of_length_le (prefix_foldl ts { s with goodTxs := 0 }).length_le

/-- A sync that started from `b` has added as many transactions as it has new receipts, and no
transaction is there twice. -/
structure Grew (x : SyncContext) (b : Block) (s : SyncProgress) : Prop where
  transactions : ∃ ts, s.block.transactions = b.transactions ++ ts ∧ ts.length = s.receipts.length
  receipts : s.block.receipts = b.receipts ++ s.receipts
  nodup : (s.block.transactions.map x.sha3).Nodup

theorem Grew.attempt (h : Grew x b s) (t : Transaction) : Grew x b (x.attempt s t) := by
  obtain ⟨ts, hts, hlen⟩ := h.transactions
  by_cases ht : Takes x s.block t
  · obtain ⟨b', receipt, heq, htxs, hreceipts⟩ := attempt_of_takes ht
    rw [heq]
    constructor
    · refine ⟨ts ++ [t], by rw [htxs, hts, append_assoc], ?_⟩
      rw [length_append, length_append, hlen]
      rfl
    · rw [hreceipts, h.receipts, append_assoc]
    · rw [htxs, map_append, map_singleton]
      refine nodup_append.mpr ⟨h.nodup, nodup_singleton _, ?_⟩
      rintro a ha _ hb rfl
      obtain ⟨u, hu, rfl⟩ := mem_map.mp ha
      have hnew := any_eq_false.mp ht.1 u hu
      exact hnew (decide_eq_true (mem_singleton.mp hb))
  · rw [attempt_of_not_takes ht]
    have htxs := passed_transactions (x := x) s.block t
    exact ⟨⟨ts, htxs.trans hts, hlen⟩, (passed_receipts ..).trans h.receipts, by rw [htxs]; exact h.nodup⟩

theorem grew_of_sync {rounds : ℕ} {b' : Block} {receipts : List TransactionReceipt} {more : Bool}
    (hb : (b.transactions.map x.sha3).Nodup) (h : x.sync ts rounds b = some (b', receipts, more)) :
    ∃ n, Grew x b ⟨b', receipts, n⟩ := by
  rw [sync] at h
  by_cases hsealed : b.isSealed = true
  · rw [if_pos hsealed] at h
    cases h
  · rw [if_neg hsealed] at h
    have hstart : Grew x b { block := b, goodTxs := ts.length - 1 } := ⟨⟨[], by simp⟩, by simp, hb⟩
    have hgrew := syncLoop_keeps (P := Grew x b) (fun _ h => ⟨h.transactions, h.receipts, h.nodup⟩)
      (fun _ t h => h.attempt t) hstart ts rounds
    obtain ⟨rfl, rfl, -⟩ : _ ∧ _ ∧ _ := by simpa using h
    exact ⟨_, hgrew⟩

end SyncContext

namespace PendingClient
variable {x : SyncContext} {past : LogEntry → H256} {c : PendingClient}

structure Sound (x : SyncContext) (c : PendingClient) : Prop where
  receipts : c.working.receipts.length = c.working.transactions.length
  nodup : (c.working.transactions.map x.sha3).Nodup

/-- The transactions that are pending in `c'` and were not in `c`: their receipts and their
hashes. -/
def added (x : SyncContext) (c c' : PendingClient) : List (TransactionReceipt × H256) :=
  (c'.working.receipts.drop c.working.transactions.length).zip
    ((c'.working.transactions.drop c.working.transactions.length).map x.sha3)

/-- Hashes from the front are those of what follows only if there is nothing at the front or nothing
follows. -/
theorem zip_eq_zip_drop_iff {α : Type} {rs : List α} {hs us : List H256}
    (hlen : us.length = rs.length) (hnodup : (hs ++ us).Nodup) : rs.zip (hs ++ us) = rs.zip us ↔
    hs = [] ∨ rs = [] := by
  constructor
  · intro heq
    by_contra hne
    rw [not_or] at hne
    obtain ⟨a, hs, rfl⟩ := exists_cons_of_ne_nil hne.1
    obtain ⟨r, rs, rfl⟩ := exists_cons_of_ne_nil hne.2
    cases us with
    | nil => cases hlen
    | cons u us =>
      rw [cons_append, zip_cons_cons, zip_cons_cons, List.cons.injEq, Prod.mk.injEq] at heq
      rw [cons_append, nodup_cons] at hnodup
      apply hnodup.1
      rw [heq.1.2]
      simp
  · rintro (rfl | rfl)
    · rfl
    · rw [zip_nil_left, zip_nil_left]

theorem Sound.eq_added (h : c.Sound x) {c' : PendingClient} {ts : List Transaction}
    {receipts : List TransactionReceipt}
    (hts : c'.working.transactions = c.working.transactions ++ ts)
    (hr : c'.working.receipts = c.working.receipts ++ receipts) :
    added x c c' = receipts.zip (ts.map x.sha3) := by
  rw [added, hts, hr, drop_left, drop_left' h.receipts]

theorem Sound.grew (h : c.Sound x) {c' : PendingClient} {receipts : List TransactionReceipt} {n : ℕ}
    (hg : SyncContext.Grew x c.working ⟨c'.working, receipts, n⟩) :
    c'.Sound x ∧ (receipts.zip (c'.working.transactions.map x.sha3) = added x c c' ↔
      c.working.transactions = [] ∨ c'.working.transactions = c.working.transactions) := by
  obtain ⟨ts, hts, hlen⟩ := hg.transactions
  have htxs : c'.working.transactions = c.working.transactions ++ ts := hts
  have hrs : c'.working.receipts = c.working.receipts ++ receipts := hg.receipts
  have hnodup : (c'.working.transactions.map x.sha3).Nodup := hg.nodup
  refine ⟨⟨?_, hnodup⟩, ?_⟩
  · rw [htxs, hrs, length_append, length_append, h.receipts, hlen]
  · rw [htxs, map_append] at hnodup
    have hempty : receipts = [] ↔ ts = [] := by
      rw [← length_eq_zero_iff, ← length_eq_zero_iff, hlen]
    rw [h.eq_added htxs hrs, htxs, map_append,
      zip_eq_zip_drop_iff (by rw [length_map, hlen]) hnodup, map_eq_nil_iff, hempty,
      append_right_eq_self]

theorem syncTransactions_transactions_iff (past : LogEntry → H256) (ts : List Transaction)
    (rounds : ℕ) : (c.syncTransactions x past ts rounds).1.working.transactions =
      c.working.transactions ↔ x.Idle ts rounds c.working := by
  rw [PendingClient.syncTransactions, SyncContext.sync, SyncContext.Idle]
  by_cases hsealed : c.working.isSealed = true
  · rw [if_pos hsealed]
    exact iff_of_true rfl (.inl hsealed)
  · have hiff := SyncContext.syncLoop_transactions_iff (x := x) ts rounds
      (s := { block := c.working, goodTxs := ts.length - 1 }) fun hts =>
        Nat.sub_one_lt (length_pos_iff.mpr hts).ne'
    rw [if_neg hsealed, or_iff_right hsealed, ← hiff]
    dsimp only
    split_ifs <;> rfl

theorem Sound.syncTransactions (h : c.Sound x) (past : LogEntry → H256) (ts : List Transaction)
    (rounds : ℕ) : (c.syncTransactions x past ts rounds).1.Sound x ∧
      ((c.syncTransactions x past ts rounds).2 = added x c (c.syncTransactions x past ts rounds).1 ↔
        c.working.transactions = [] ∨ x.Idle ts rounds c.working) := by
  rw [← syncTransactions_transactions_iff past ts rounds]
  cases hsync : x.sync ts rounds c.working with
  | none =>
    have hr : c.syncTransactions x past ts rounds = (c, []) := by
      rw [PendingClient.syncTransactions, hsync]
    have hg : SyncContext.Grew x c.working ⟨c.working, [], 0⟩ := ⟨⟨[], by simp⟩, by simp, h.nodup⟩
    rw [hr]
    exact h.grew hg
  | some res =>
    obtain ⟨b, receipts, more⟩ := res
    obtain ⟨n, hg⟩ := SyncContext.grew_of_sync h.nodup hsync
    by_cases hempty : receipts = []
    · have hr : c.syncTransactions x past ts rounds =
          ({ c with working := b, syncTransactionQueue := more }, []) := by
        rw [PendingClient.syncTransactions, hsync]
        exact if_pos hempty
      rw [hempty] at hg
      rw [hr]
      exact @Sound.grew x c h { c with working := b, syncTransactionQueue := more } [] n hg
    · obtain ⟨base, hr⟩ : ∃ base, c.syncTransactions x past ts rounds =
          (⟨b, b, more, base⟩, receipts.zip (b.transactions.map x.sha3)) := by
        rw [PendingClient.syncTransactions, hsync]
        exact ⟨_, if_neg hempty⟩
      rw [hr]
      exact @Sound.grew x c h ⟨b, b, more, base⟩ receipts n hg

theorem specialFilters_appendAll (H : Hasher) (past : LogEntry → H256) (base : ClientBase)
    (reports : List (TransactionReceipt × H256)) :
    (appendAll H past base reports).2.specialFilters pendingChangedFilter =
      (base.specialFilters pendingChangedFilter).map (· ++ reports.map Prod.snd) := by
  rw [appendAll]
  generalize (fun _ => false : H256 → Bool) = changed
  induction reports generalizing base changed with
  | nil => simp
  | cons report reports ih =>
    rw [foldl_cons, ih, map_cons]
    have hone (l : List H256) :
      l ++ report.2 :: reports.map Prod.snd = l ++ [report.2] ++ reports.map Prod.snd := by simp
    simp only [hone, ClientBase.appendFromNewPending, ClientBase.appendNews, ClientBase.noteSpecial,
      Function.update_self, Option.map_map]
    rfl

structure SyncStep where
  before : PendingClient
  ts : List Transaction
  rounds : ℕ
  after : PendingClient
  reports : List (TransactionReceipt × H256)

/-- Syncs one after another, each with the transactions and the rounds that it gets. -/
def syncs (x : SyncContext) (past : LogEntry → H256) :
    List (List Transaction × ℕ) → PendingClient → List SyncStep
  | [], _ => []
  | (ts, rounds) :: rest, c =>
    let r := c.syncTransactions x past ts rounds
    ⟨c, ts, rounds, r.1, r.2⟩ :: syncs x past rest r.1

/-- In every run of syncs no transaction is pending twice, the pending filter gets the hashes that
are reported, and those are the hashes of the new transactions next to their receipts exactly if
none was pending before the sync or the sync takes none of the queue's. -/
theorem syncs_iff (h : c.Sound x) (past : LogEntry → H256) (args : List (List Transaction × ℕ)) :
    ∀ s ∈ syncs x past args c,
    (s.after.working.transactions.map x.sha3).Nodup ∧
    (appendAll x.node.H past s.before.base s.reports).2.specialFilters pendingChangedFilter =
      (s.before.base.specialFilters pendingChangedFilter).map (· ++ s.reports.map Prod.snd) ∧
    (s.reports = added x s.before s.after ↔
      s.before.working.transactions = [] ∨ x.Idle s.ts s.rounds s.before.working) := by
  induction args generalizing c with
  | nil => simp [syncs]
  | cons a rest ih =>
    obtain ⟨ts, rounds⟩ := a
    obtain ⟨hafter, hiff⟩ := h.syncTransactions past ts rounds
    intro s hs
    rcases mem_cons.mp hs with rfl | hs
    · exact ⟨hafter.nodup, specialFilters_appendAll _ _ _ _, hiff⟩
    · exact ih hafter s hs

/-- A queue whose transactions have their nonces as hashes, and a client with the example block. -/
def exampleContext : SyncContext where
  node := exampleNode
  lastHashes _ := []
  sha3 t := t.nonce
  ask _ := 0
  refused b _ := b.state

def exampleClient : PendingClient := ⟨exampleBlock [0], exampleBlock [0], false, {}⟩

theorem sound_exampleClient : exampleClient.Sound exampleContext := ⟨rfl, nodup_nil⟩

/-- A sync that gets two transactions at once reports both. -/
theorem syncs_iff_together :
    let ts := [exampleTransaction 30000, { exampleTransaction 30000 with nonce := 4 }]
    let r := exampleClient.syncTransactions exampleContext (fun _ => 0) ts 0
    r.2 = added exampleContext exampleClient r.1 := by
  intro ts r
  have hs : (⟨exampleClient, ts, 0, r.1, r.2⟩ : SyncStep) ∈ syncs exampleContext (fun _ => 0)
    [(ts, 0)] exampleClient :=
    mem_cons_self
  generalize r = r' at hs
  have hiff := (syncs_iff sound_exampleClient (fun _ => 0) [(ts, 0)] _ hs).2.2
  exact hiff.mpr (.inl rfl)

/-- A transaction that comes with the second sync is not reported; the first one is reported again,
with its receipt. -/
theorem syncs_report_twice :
    (syncs exampleContext (fun _ => 0)
      [([exampleTransaction 30000], 0), ([{ exampleTransaction 30000 with nonce := 4 }], 0)]
      exampleClient).map (fun s =>
        (s.reports.map fun r => (r.1.gasUsed, r.2),
          (added exampleContext s.before s.after).map fun r => (r.1.gasUsed, r.2))) =
      [([(21000, 3)], [(21000, 3)]), ([(42000, 3)], [(42000, 4)])] := by
  decide +kernel

end PendingClient
end Vapory
