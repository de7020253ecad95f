import Vapory.Transaction.QueueHeld
import Vapory.Transaction.RoundTrip

/-! Whole runs of the queue. -/
namespace Vapory
open List

namespace TransactionQueue
variable {H : Hasher} {C : Crypto} {q q' : TransactionQueue} {env : Containers} {S : Set H256}
  {c : Prop}

theorem Inv.stepped (h : Inv S q) (hc : ¬ c) : Stepped S c q q :=
  ⟨⟨S, h, fun _ => subset_rfl, fun hf => absurd hf hc⟩, ⟨rfl, rfl⟩, fun hle _ => hle⟩

/-- The import of `t` gets as far as the containers, and loses a future transaction there. -/
def ImportForgets (H : Hasher) (C : Crypto) (q : TransactionQueue) (t : TransactionBase)
    (ik : IfDropped) : Prop :=
  t.hasZeroSignature = false ∧
    ∃ v, VerifiedTransaction.ofTransaction H C t = .ok v ∧ q.check v.sha3 ik = .Success ∧ q.Forgets v

variable {t : TransactionBase} {R : TransactionQueue → Prop} {v : VerifiedTransaction}
  {ik : IfDropped}

theorem notMem_known_of_check {g : H256} (h : q.check g ik = .Success) : g ∉ q.known := by
  intro hg
  rw [check, if_pos hg] at h
  cases h

/-- The queue takes up `v`, which is the transaction `t`. -/
structure Imports (H : Hasher) (C : Crypto) (q : TransactionQueue) (t : TransactionBase)
    (ik : IfDropped) (v : VerifiedTransaction) : Prop where
  signed : t.hasZeroSignature = false
  ofTransaction : VerifiedTransaction.ofTransaction H C t = .ok v
  check : q.check v.sha3 ik = .Success

theorem importTransaction_rule
    (hnone : (∀ v, ¬ Imports H C q t ik v) → R q)
    (hsome : ∀ v, Imports H C q t ik v → PostE (tryImport env v) q (fun _ q' => R q') fun _ => False) :
    PostE (importTransaction H C env t ik) q (fun _ q' => R q') R := by
  simp only [importTransaction, postE_ite, postE_pure]
  split_ifs with hz
  · refine hnone fun v hv => ?_
    have := hv.signed
    rw [hz] at this
    cases this
  cases hv : VerifiedTransaction.ofTransaction H C t with
  | error e =>
    simp only [postE_throw]
    refine hnone fun v hv' => ?_
    rw [hv'.ofTransaction] at hv
    cases hv
  | ok v =>
    simp only [postE_bind, postE_get, postE_ite, postE_pure]
    split_ifs with hcheck
    · refine hnone fun u hu => hcheck ?_
      have heq := hu.ofTransaction
      rw [hv] at heq
      cases heq
      exact hu.check
    · have himp : Imports H C q t ik v := ⟨Bool.eq_false_iff.mpr hz, hv, not_not.mp hcheck⟩
      exact (hsome v himp).tryCatch fun _ _ hf => hf.elim

theorem Inv.ends_importTransaction (h : Inv S q) (t : TransactionBase) (ik : IfDropped)
    (hrec : ∀ v, VerifiedTransaction.ofTransaction H C t = .ok v → v.sender ≠ none) :
    PostE (importTransaction H C env t ik) q (fun _ q' => Stepped S (q.ImportForgets H C t ik) q q')
      fun q' => Stepped S (q.ImportForgets H C t ik) q q' := by
  apply importTransaction_rule
  · intro hnone
    refine h.stepped ?_
    rintro ⟨hz, v, hv, hcheck, -⟩
    exact hnone v ⟨hz, hv, hcheck⟩
  · intro v hv
    have hforgets : q.ImportForgets H C t ik ↔ q.Forgets v := by
      constructor
      · rintro ⟨-, u, hu, -, hf⟩
        rw [hv.ofTransaction] at hu
        cases hu
        exact hf
      · intro hf
        exact ⟨hv.signed, v, hv.ofTransaction, hv.check, hf⟩
    rw [hforgets]
    exact h.ends_tryImport (hrec v hv.ofTransaction) (notMem_known_of_check hv.check)

theorem ofTransaction_sender
    (hv : VerifiedTransaction.ofTransaction H C t = .ok v) :
    v.sender = (t.sender H C).toOption.map Prod.fst := by
  obtain ⟨g, -, hv⟩ := Except.bind_eq_ok.mp hv
  cases hv
  rfl

theorem sender_ne_none_of_ofRLP {data : Bytes}
    (ht : TransactionBase.ofRLP H C data .Everything = .ok t)
    (hv : VerifiedTransaction.ofTransaction H C t = .ok v) : v.sender ≠ none := by
  obtain ⟨r, hr⟩ := TransactionBase.sender_of_ofRLP ht
  rw [ofTransaction_sender hv, hr]
  exact Option.some_ne_none _

theorem importRLP_rule {data : Bytes}
    (herr : (∀ t, TransactionBase.ofRLP H C data .Everything ≠ .ok t) → R q)
    (hok : ∀ t, TransactionBase.ofRLP H C data .Everything = .ok t →
      PostE (importTransaction H C env t ik) q (fun _ q' => R q') R) :
    PostE (importRLP H C env data ik) q (fun _ q' => R q') R := by
  rw [importRLP]
  cases ht : TransactionBase.ofRLP H C data .Everything with
  | error e =>
    rw [postE_pure]
    refine herr fun t ht' => ?_
    rw [ht] at ht'
    cases ht'
  | ok t =>
    refine (hok t ht).tryCatch ?_
    intro e q' hq'
    cases e with
    | transaction e => exact hq'
    | undefined => exact hq'

theorem Inv.ends_importRLP (h : Inv S q) (data : Bytes) (ik : IfDropped) :
    PostE (importRLP H C env data ik) q
      (fun _ q' => Stepped S (∃ t, TransactionBase.ofRLP H C data .Everything = .ok t ∧
        q.ImportForgets H C t ik) q q')
      fun q' => Stepped S (∃ t, TransactionBase.ofRLP H C data .Everything = .ok t ∧
        q.ImportForgets H C t ik) q q' := by
  apply importRLP_rule
  · intro herr
    refine h.stepped ?_
    rintro ⟨t, ht, -⟩
    exact herr t ht
  · intro t ht
    have hforgets : (∃ u, TransactionBase.ofRLP H C data .Everything = .ok u ∧
        q.ImportForgets H C u ik) ↔ q.ImportForgets H C t ik := by
      constructor
      · rintro ⟨u, hu, hf⟩
        rw [ht] at hu
        cases hu
        exact hf
      · intro hf
        exact ⟨t, ht, hf⟩
    rw [hforgets]
    exact h.ends_importTransaction t ik fun v hv => sender_ne_none_of_ofRLP ht hv

theorem Inv.ends_dropGood (h : Inv S q) (t : TransactionBase) :
    PostE (dropGood H C env t) q
      (fun _ q' => Stepped S (q.Overflows (((t.sender H C).toOption.map Prod.fst).getD 0) t.nonce) q q')
      fun q' => Stepped S (q.Overflows (((t.sender H C).toOption.map Prod.fst).getD 0) t.nonce) q q' := by
  simp only [dropGood, postE_bind]
  refine (h.toConsistent.ends_makeCurrent _ t.nonce).mono ?_ fun _ hf => hf.elim
  rintro _ q₁ ⟨lost, h₁⟩
  have hinv := h.lose _ h₁.consistent h₁.perm h₁.frame.known
  have hlen := h₁.perm.length_eq
  rw [length_append] at hlen
  have hstep {q' : TransactionQueue} (h' : Inv (S ∪ forgotten lost) q')
      (hle : q'.held.length ≤ q₁.held.length) (hlimit : q'.limit = q₁.limit)
      (hfutureLimit : q'.futureLimit = q₁.futureLimit) :
      Stepped S (q.Overflows (((t.sender H C).toOption.map Prod.fst).getD 0) t.nonce) q q' := by
    refine ⟨⟨_, h', fun hc => ?_, fun hc => ?_⟩,
      ⟨hlimit.trans h₁.frame.limit, hfutureLimit.trans h₁.frame.futureLimit⟩, fun hb _ => by omega⟩
    · rw [h₁.lost_iff.mpr (Nat.not_lt.mp hc), forgotten_nil, Set.union_empty]
    · exact forgotten_nonempty fun hnil => absurd hc (Nat.not_lt.mpr (h₁.lost_iff.mp hnil))
  cases t.sha3 H .WithSignature with
  | error e => exact hstep hinv le_rfl rfl rfl
  | ok g =>
    simp only [postE_bind, postE_get, postE_ite, postE_pure]
    split_ifs
    · refine (hinv.ends_remove g.1).mono ?_ fun _ hf => hf.elim
      rintro _ q' ⟨h', hle, hlimit, hfutureLimit⟩
      exact hstep h' hle hlimit hfutureLimit
    · exact hstep hinv le_rfl rfl rfl

theorem Inv.insertDropped (h : Inv S q) (g : H256) : Inv S { q with dropped := insert g q.dropped } :=
  ⟨⟨⟨h.indexed.nodes, h.indexed.fresh, h.indexed.byHash, h.indexed.byNonce⟩, h.keys, h.hashes,
    h.senders, h.futureSize⟩, ⟨h.iff, h.disjoint⟩⟩

theorem Inv.ends_drop (h : Inv S q) (g : H256) :
    PostE (drop g) q (fun _ q' => Stepped S False q q') fun q' => Stepped S False q q' := by
  simp only [drop, postE_bind, postE_get, postE_ite, postE_pure, postE_set]
  split_ifs
  · refine ((h.insertDropped g).ends_remove g).mono ?_ fun _ hf => hf.elim
    rintro _ q' ⟨h', hle, hlimit, hfutureLimit⟩
    exact ⟨⟨S, h', fun _ => subset_rfl, False.elim⟩, ⟨hlimit, hfutureLimit⟩, fun hb _ => hle.trans hb⟩
  · exact h.stepped id

theorem Inv.ends_setFuture (h : Inv S q) (g : H256) :
    PostE (setFuture g) q (fun _ q' => Stepped S False q q') fun q' => Stepped S False q q' := by
  refine (h.toConsistent.ends_setFuture g).mono ?_ fun _ hf => hf.elim
  rintro _ q' ⟨h', hp, hframe, -⟩
  have hinv := h.lose [] h' hp hframe.known
  rw [forgotten_nil, Set.union_empty] at hinv
  exact ⟨⟨S, hinv, fun _ => subset_rfl, False.elim⟩, ⟨hframe.limit, hframe.futureLimit⟩, fun hb _ =>
    hp.length_eq ▸ hb⟩

theorem inv_clear (q : TransactionQueue) : Inv ∅ q.clear where
  indexed := by constructor <;> simp [clear]
  keys := by simp [clear, held]
  hashes := by simp [clear, held]
  senders := by simp [clear, held]
  futureSize := rfl
  iff := by simp [clear, held]
  disjoint := by simp [clear, held]

/-- The sender of a transaction to be imported can be found, if its hash can. -/
def Op.Recoverable (H : Hasher) (C : Crypto) : Op → Prop
  | .importTransaction t _ => ∀ v, VerifiedTransaction.ofTransaction H C t = .ok v → v.sender ≠ none
  | _ => True

/-- An operation loses future transactions whose hashes stay known. -/
def Op.Forgets (H : Hasher) (C : Crypto) (q : TransactionQueue) : Op → Prop
  | .importTransaction t ik => q.ImportForgets H C t ik
  | .importRLP data ik =>
    ∃ t, TransactionBase.ofRLP H C data .Everything = .ok t ∧ q.ImportForgets H C t ik
  | .dropGood t => q.Overflows (((t.sender H C).toOption.map Prod.fst).getD 0) t.nonce
  | _ => False

theorem Inv.ends_exec (h : Inv S q) {op : Op} (hrec : op.Recoverable H C) :
    PostE (op.exec H C env) q (fun _ q' => Stepped S (op.Forgets H C q) q q') fun q' =>
    Stepped S (op.Forgets H C q) q q' := by
  cases op with
  | importTransaction t ik =>
    simp only [Op.exec, postE_bind, postE_pure]
    exact h.ends_importTransaction t ik hrec
  | importRLP data ik =>
    simp only [Op.exec, postE_bind, postE_pure]
    exact h.ends_importRLP data ik
  | setFuture g => exact h.ends_setFuture g
  | drop g => exact h.ends_drop g
  | dropGood t => exact h.ends_dropGood t
  | clear =>
    simp only [Op.exec, postE_modify]
    exact ⟨⟨∅, inv_clear q, fun _ => Set.empty_subset S, False.elim⟩, ⟨rfl, rfl⟩, fun _ _ => Nat.zero_le _⟩

variable {ops : List (Containers × Op)} {op : Containers × Op}

theorem step_of_postE
    (h : PostE (op.2.exec H C op.1) q (fun _ q' => R q') R) : R (q.step H C op) := by
  unfold PostE Post at h
  rw [step]
  generalize (op.2.exec H C op.1).run.run q = r at h
  obtain ⟨e | a, q'⟩ := r
  · exact h
  · exact h

theorem Inv.step (h : Inv S q) (hrec : op.2.Recoverable H C) :
    Stepped S (op.2.Forgets H C q) q (q.step H C op) := step_of_postE (h.ends_exec hrec)

theorem run_append (q : TransactionQueue) (ops ops' : List (Containers × Op)) :
    q.run H C (ops ++ ops') = (q.run H C ops).run H C ops' := foldl_append

theorem inv_run (q : TransactionQueue) (hrec : ∀ op ∈ ops, op.2.Recoverable H C) :
    (∃ S, Inv S (q.clear.run H C ops)) ∧ (q.clear.run H C ops).limit = q.limit ∧
      (q.clear.run H C ops).futureLimit = q.futureLimit ∧
      (q.limit + q.futureLimit < 2 ^ 32 → (q.clear.run H C ops).held.length ≤ q.limit + q.futureLimit) := by
  induction ops using List.reverseRecOn with
  | nil => exact ⟨⟨∅, inv_clear q⟩, rfl, rfl, fun _ => Nat.zero_le _⟩
  | append_singleton ops op ih =>
    obtain ⟨⟨S, h⟩, hlimit, hfutureLimit, hbound⟩ := ih fun o ho => hrec o (mem_append_left _ ho)
    have hstep := h.step (hrec op (by simp))
    obtain ⟨S', h', -⟩ := hstep.inv
    rw [run_append]
    refine ⟨⟨S', h'⟩, hstep.limits.1.trans hlimit, hstep.limits.2.trans hfutureLimit, fun hlt => ?_⟩
    have hle := hstep.bounded
    rw [hlimit, hfutureLimit] at hle
    exact hle (hbound hlt) hlt

/-- In every run of a queue without transactions, in which the senders of all transactions can be
found, the three containers of current transactions have the same ones, no sender and nonce occur
twice, and the future transactions are counted. -/
theorem run_indices_agree (q : TransactionQueue) (hrec : ∀ op ∈ ops, op.2.Recoverable H C)
    (hlimits : q.limit + q.futureLimit < 2 ^ 32) :
    let r := q.clear.run H C ops
    (r.current.map Prod.fst).Nodup ∧
      (∀ h i, r.currentByHash h = some i ↔ ∃ t, (i, t) ∈ r.current ∧ t.sha3 = h) ∧
      (∀ a n v, r.currentByAddressAndNonce.lookup (a, n) = some v ↔
        ∃ i t, v = some i ∧ (i, t) ∈ r.current ∧ t.sender = some a ∧ t.nonce = n) ∧
      ((r.current.map Prod.snd ++ r.future).map fun t => (t.sender, t.nonce)).Nodup ∧
      r.futureSize = r.future.length := by
  obtain ⟨⟨S, h⟩, hlimit, hfutureLimit, hbound⟩ := inv_run q hrec
  have hsender {t : VerifiedTransaction} (ht : t ∈ (q.clear.run H C ops).held) :
    t.sender = some t.safeSender := by
    obtain ⟨a, ha⟩ := Option.ne_none_iff_exists'.mp (h.senders t ht)
    rw [VerifiedTransaction.safeSender, ha]
    rfl
  refine ⟨h.indexed.nodes, h.indexed.byHash, ?_, ?_, ?_⟩
  · intro a n v
    rw [h.indexed.byNonce]
    apply exists_congr
    intro i
    apply exists_congr
    intro t
    apply and_congr_right
    intro _
    apply and_congr_right
    intro hm
    rw [hsender (mem_append_left _ (mem_map_of_mem hm)), VerifiedTransaction.key, Prod.mk.injEq,
      Option.some.injEq]
  · apply List.Nodup.of_map (fun k : Option Address × U256 => (k.1.getD 0, k.2))
    rw [map_map]
    exact h.keys
  · have hle := hbound hlimits
    rw [held, length_append] at hle
    rw [h.futureSize, Nat.mod_eq_of_lt (by omega)]

def exampleTransaction (sender : Address) (nonce gasPrice : U256) (size : ℕ) : TransactionBase :=
  { type := .MessageCall
    nonce, gasPrice
    receiveAddress := 1
    data := List.replicate size 0
    vrs := some ⟨1, 1, 0⟩
    cachedSender := sender }

/-- A multiset that is searched from the back, and a map whose first entry is the oldest. -/
def exampleContainers : Containers where
  placement := .fromBack
  front l := l.headD 0
  front_mem {l} h := by
    cases l with
    | nil => exact absurd rfl h
    | cons a l => exact mem_cons_self

def exampleQueue : TransactionQueue := { limit := 1024, futureLimit := 1024 }

theorem ofTransaction_sender_ne_none (ht : t.cachedSender ≠ 0)
    (hv : VerifiedTransaction.ofTransaction H C t = .ok v) : v.sender ≠ none := by
  rw [ofTransaction_sender hv, TransactionBase.sender, if_pos ht]
  exact Option.some_ne_none _

/-- Two transactions of one sender, and one of another. -/
def exampleImports : List (Containers × Op) :=
  [exampleTransaction 1 0 1 0, exampleTransaction 1 1 2 2, exampleTransaction 2 0 1 4].map fun t =>
    (exampleContainers, .importTransaction t .Ignore)

theorem recoverable_exampleImports : ∀ op ∈ exampleImports, op.2.Recoverable H C := by
  have hsenders : ∀ t ∈ [exampleTransaction 1 0 1 0, exampleTransaction 1 1 2 2,
      exampleTransaction 2 0 1 4], t.cachedSender ≠ 0 := by
    decide
  intro op hop
  obtain ⟨t, ht, rfl⟩ := mem_map.mp hop
  exact fun v => ofTransaction_sender_ne_none (hsenders t ht)

theorem run_indices_agree_example :
    let r := exampleQueue.clear.run State.lengthHasher TransactionBase.exampleCrypto exampleImports
    r.current.length = 3 ∧ (r.current.map Prod.fst).Nodup ∧
      (∀ h i, r.currentByHash h = some i ↔ ∃ t, (i, t) ∈ r.current ∧ t.sha3 = h) ∧
      (∀ a n v, r.currentByAddressAndNonce.lookup (a, n) = some v ↔
        ∃ i t, v = some i ∧ (i, t) ∈ r.current ∧ t.sender = some a ∧ t.nonce = n) ∧
      ((r.current.map Prod.snd ++ r.future).map fun t => (t.sender, t.nonce)).Nodup ∧
      r.futureSize = r.future.length :=
  ⟨by decide +kernel, run_indices_agree exampleQueue recoverable_exampleImports (by decide)⟩

/-- A key is found for the signatures with `r = 1` only. -/
def examplePartialCrypto : Crypto := ⟨fun _ _ => ⟨1, 1, 0⟩, fun vrs _ => if vrs.r = 1 then 1 else 0⟩

/-- A signature in range that no key has made is not noticed before the transaction is compared, and
leaves an entry that leads nowhere. -/
theorem import_leaves_entry :
    let bad : TransactionBase := { exampleTransaction 0 256 1 0 with vrs := some ⟨2, 1, 0⟩ }
    let r := exampleQueue.run State.lengthHasher examplePartialCrypto
      [(exampleContainers, .importTransaction (exampleTransaction 1 0 1 0) .Ignore),
        (exampleContainers, .importTransaction bad .Ignore)]
    TransactionBase.SignatureStruct.isValid ⟨2, 1, 0⟩ = true ∧
      r.currentByAddressAndNonce.lookup (0, 256) = some none ∧
      r.current.length = 1 ∧ (∀ e ∈ r.current, e.2.key ≠ (0, 256)) := by
  decide +kernel

section Known

def Remembers (H : Hasher) (C : Crypto) : TransactionQueue → List (Containers × Op) → Prop
  | _, [] => True
  | q, op :: ops => ¬ op.2.Forgets H C q ∧ Remembers H C (q.step H C op) ops

variable {ops : List (Containers × Op)} {op : Containers × Op}

theorem Inv.step_exact (h : Inv ∅ q) (hrec : op.2.Recoverable H C)
    (hf : ¬ op.2.Forgets H C q) : Inv ∅ (q.step H C op) := by
  obtain ⟨S', h', hsub, -⟩ := (h.step hrec).inv
  rwa [Set.subset_empty_iff.mp (hsub hf)] at h'

theorem Inv.run_exact (h : Inv ∅ q) (hrec : ∀ op ∈ ops, op.2.Recoverable H C)
    (hrem : Remembers H C q ops) : Inv ∅ (q.run H C ops) := by
  induction ops generalizing q with
  | nil => exact h
  | cons op ops ih =>
    have hstep := h.step_exact (hrec op mem_cons_self) hrem.1
    exact ih hstep (fun o ho => hrec o (mem_cons_of_mem op ho)) hrem.2

/-- The queue knows the hashes of its transactions, and no others. -/
def Exact (q : TransactionQueue) : Prop := ∀ g, g ∈ q.known ↔ ∃ t ∈ q.held, t.sha3 = g

theorem Inv.exact_iff (h : Inv S q) : q.Exact ↔ S = ∅ := by
  constructor
  · intro hexact
    apply Set.eq_empty_of_forall_notMem
    intro g hg
    obtain ⟨t, ht, rfl⟩ := (hexact g).mp ((h.iff g).mpr (.inr hg))
    exact h.disjoint t ht hg
  · rintro rfl g
    rw [h.iff]
    simp

/-- As long as no future transaction is replaced by one with the same nonce or dropped as one too
many, the known hashes are those of the transactions, and a transaction is already known only if it
is there. The first operation that loses one ends this. -/
theorem known_exact_iff (q : TransactionQueue)
    (hrec : ∀ o ∈ ops ++ [op], o.2.Recoverable H C) (hrem : Remembers H C q.clear ops) :
    let r := q.clear.run H C (ops ++ [op])
    (r.Exact ∧ ∀ g ik, r.check g ik = .AlreadyKnown → ∃ t ∈ r.held, t.sha3 = g) ↔
      ¬ op.2.Forgets H C (q.clear.run H C ops) := by
  have h := (inv_clear q).run_exact (fun o ho => hrec o (mem_append_left _ ho)) hrem
  have hop : op.2.Recoverable H C := hrec op (mem_append_right ops mem_cons_self)
  obtain ⟨S', h', hsub, hne⟩ := (h.step hop).inv
  have hrun : q.clear.run H C (ops ++ [op]) = (q.clear.run H C ops).step H C op := run_append _ _ _
  rw [hrun]
  constructor
  · rintro ⟨hexact, -⟩ hf
    obtain ⟨g, hg⟩ := hne hf
    rw [h'.exact_iff.mp hexact] at hg
    exact hg
  · intro hf
    have hexact := h'.exact_iff.mpr (Set.subset_empty_iff.mp (hsub hf))
    refine ⟨hexact, fun g ik hcheck => (hexact g).mp ?_⟩
    rw [check] at hcheck
    split_ifs at hcheck with hg
    exact hg

theorem not_importForgets (h : q.future = []) : ¬ q.ImportForgets H C t ik := by
  rintro ⟨-, v, -, -, -, ⟨u, hu, -⟩ | hover⟩
  · rw [h] at hu
    cases hu
  · rw [Overflows, staying, h] at hover
    exact Nat.not_lt_zero _ hover

theorem known_exact_iff_example :
    let r := exampleQueue.clear.run State.lengthHasher TransactionBase.exampleCrypto
      (exampleImports ++ [(exampleContainers, .importTransaction (exampleTransaction 2 1 1 6) .Ignore)])
    r.held.length = 4 ∧ r.Exact ∧ ∀ g ik, r.check g ik = .AlreadyKnown → ∃ t ∈ r.held, t.sha3 = g := by
  refine ⟨by decide +kernel, (known_exact_iff exampleQueue ?_ ?_).mpr ?_⟩
  · intro op hop
    rcases mem_append.mp hop with hop | hop
    · exact recoverable_exampleImports op hop
    · rw [mem_singleton.mp hop]
      exact fun v => ofTransaction_sender_ne_none (by decide)
  · exact ⟨not_importForgets rfl, not_importForgets (by decide +kernel),
      not_importForgets (by decide +kernel), trivial⟩
  · exact not_importForgets (by decide +kernel)

def exampleHash (t : TransactionBase) : H256 :=
  ((VerifiedTransaction.ofTransaction State.lengthHasher TransactionBase.exampleCrypto
    t).toOption.map (·.sha3)).getD 0

/-- A future transaction that is replaced stays known, and cannot be imported again. -/
theorem known_keeps_replaced :
    let r := exampleQueue.run State.lengthHasher TransactionBase.exampleCrypto
      [(exampleContainers, .importTransaction (exampleTransaction 1 0 1 0) .Ignore),
        (exampleContainers, .setFuture (exampleHash (exampleTransaction 1 0 1 0))),
        (exampleContainers, .importTransaction (exampleTransaction 1 0 2 2) .Ignore)]
    r.held.map VerifiedTransaction.sha3 = [exampleHash (exampleTransaction 1 0 2 2)] ∧
      exampleHash (exampleTransaction 1 0 2 2) ≠ exampleHash (exampleTransaction 1 0 1 0) ∧
      r.check (exampleHash (exampleTransaction 1 0 1 0)) .Retry = .AlreadyKnown := by
  decide +kernel

end Known

end TransactionQueue
end Vapory
