import Vapory.Transaction.QueueRun

/-! The limits of the queue. Imports keep to both of them; `setFuture` and `dropGood` move
transactions from one set to the other and do not look at the limit of the set that grows. -/
namespace Vapory
open List

namespace TransactionQueue
variable {H : Hasher} {C : Crypto} {q q' : TransactionQueue} {env : Containers} {S : Set H256}
  {g : H256}

def Within (q : TransactionQueue) : Prop :=
  q.current.length ≤ q.limit ∧ q.future.length ≤ q.futureLimit

/-- The current transactions with those that `dropGood` of `t` moves to them, and without `t`. -/
def currentAfter (H : Hasher) (C : Crypto) (q : TransactionQueue) (t : TransactionBase) :
    List VerifiedTransaction :=
  (q.current.map Prod.snd ++
    chain q.future (((t.sender H C).toOption.map Prod.fst).getD 0) q.future.length
    (t.nonce + 1)).filter
    fun u => (t.sha3 H .WithSignature).toOption.map Prod.fst ≠ some u.sha3

/-- There is room in the set that the operation moves transactions to. -/
def Op.HasRoom (H : Hasher) (C : Crypto) (q : TransactionQueue) : Op → Prop
  | .setFuture g => ∀ st ∈ q.current, st.2.sha3 = g →
      q.future.length + (q.current.filter fun e => From st.2 e.2).length ≤ q.futureLimit
  | .dropGood t => (q.currentAfter H C t).length ≤ q.limit
  | _ => True

theorem Inv.within_tryImport (h : Inv S q) (hw : Within q) {t : VerifiedTransaction}
    (hsender : t.sender ≠ none)
    (hnew : t.sha3 ∉ q.known) : PostE (tryImport env t) q (fun _ q' => Within q') fun _ => False := by
  refine h.toConsistent.tryImport_rule (fun _ => hw) fun q₁ hq₁ => ?_
  obtain ⟨-, hkey⟩ := h.toConsistent.cleared hq₁
  obtain ⟨S₁, h₁, hnew₁, hlimits, hfuture⟩ := h.cleared hq₁ hnew
  have hle : q₁.future.length ≤ q.future.length := by
    rcases hfuture with ⟨-, -, hle⟩ | ⟨-, -, heq⟩
    · exact hle
    · exact heq ▸ le_rfl
  refine (h₁.ends_insertAndTrim hsender hkey hnew₁).mono ?_ fun _ hf => hf
  rintro _ q' ⟨-, -, -, hlimits', hcurrent, hlen, -⟩
  rw [Within, hlimits'.1, hlimits'.2]
  refine ⟨hcurrent, hlen.trans (hle.trans ?_)⟩
  rw [hlimits.2]
  exact hw.2

theorem Inv.within_importTransaction (h : Inv S q) (hw : Within q) {t : TransactionBase} (ik : IfDropped)
    (hrec : ∀ v, VerifiedTransaction.ofTransaction H C t = .ok v → v.sender ≠ none) :
    PostE (importTransaction H C env t ik) q (fun _ q' => Within q') Within := by
  refine importTransaction_rule (fun _ => hw) fun v hv => ?_
  exact h.within_tryImport hw (hrec v hv.ofTransaction) (notMem_known_of_check hv.check)

theorem Consistent.ends_remove_current (h : Consistent q) (g : H256) : PostE (remove g) q (fun _ q' =>
    (q'.current.map Prod.snd).Perm ((q.current.map Prod.snd).filter (·.sha3 ≠ g)) ∧
    q'.future = q.future ∧
      q'.limit = q.limit ∧ q'.futureLimit = q.futureLimit) fun _ => False := by
  refine (h.ends_remove g).mono ?_ fun _ hf => hf
  rintro _ q' (⟨hnone, rfl⟩ | ⟨i, u, hm, rfl, rfl⟩)
  · refine ⟨?_, rfl, rfl, rfl⟩
    rw [filter_eq_self.mpr]
    intro u hu
    obtain ⟨e, he, rfl⟩ := mem_map.mp hu
    exact decide_eq_true (hnone e he)
  · refine ⟨?_, rfl, rfl, rfl⟩
    show ((q.current.filter (·.1 ≠ i)).map Prod.snd).Perm _
    rw [filter_map]
    apply List.Perm.of_eq
    congr 1
    apply filter_congr
    intro e he
    rw [Function.comp_apply, decide_eq_decide, not_iff_not]
    constructor
    · rintro rfl
      rw [h.indexed.unique he hm]
    · exact h.indexed.node_of_sha3 hm he

theorem Inv.within_drop (h : Inv S q) (hw : Within q) (g : H256) :
    PostE (drop g) q (fun _ q' => Within q') Within := by
  simp only [drop, postE_bind, postE_get, postE_ite, postE_pure, postE_set]
  split_ifs
  · refine ((h.insertDropped g).toConsistent.ends_remove_current g).mono ?_ fun _ hf => hf.elim
    rintro _ q' ⟨hp, hfuture, hlimit, hfutureLimit⟩
    have hlen := hp.length_eq.trans_le (length_filter_le _ _)
    rw [length_map, length_map] at hlen
    rw [Within, hfuture, hlimit, hfutureLimit]
    exact ⟨hlen.trans hw.1, hw.2⟩
  · exact hw

theorem Consistent.within_setFuture (h : Consistent q) (hw : Within q) (g : H256) :
    PostE (setFuture g) q (fun _ q' => Within q' ↔ Op.HasRoom H C q (.setFuture g)) fun _ =>
    False := by
  refine (h.ends_setFuture g).mono ?_ fun _ hf => hf
  rintro _ q' ⟨-, hp, hframe, hcases⟩
  rcases hcases with ⟨hnone, rfl⟩ | ⟨st, hst, hg, hcurrent⟩
  · exact iff_of_true hw fun st hst hg => absurd hg (hnone st hst)
  · have hlen := hp.length_eq
    rw [held, held, length_append, length_append, length_map, length_map, hcurrent] at hlen
    have hsplit := q.current.length_eq_length_filter_add fun e => decide (From st.2 e.2)
    have hnot : (q.current.filter fun e => ¬ From st.2 e.2).length =
        (q.current.filter fun e => !decide (From st.2 e.2)).length := by simp only [decide_not]
    have hfuture : q'.future.length =
      q.future.length + (q.current.filter fun e => From st.2 e.2).length := by omega
    have hle : q'.current.length ≤ q.limit := by
      rw [hcurrent]
      exact (length_filter_le _ _).trans hw.1
    rw [Within, hframe.limit, hframe.futureLimit, hfuture]
    constructor
    · rintro ⟨-, hroom⟩ st' hst' hg'
      have hsame := h.indexed.node_of_sha3 hst hst' (hg'.trans hg.symm)
      have heq : st'.2 = st.2 := h.indexed.unique hst' (hsame ▸ hst)
      rw [heq]
      exact hroom
    · intro hroom
      exact ⟨hle, hroom st hst hg⟩

theorem Inv.within_dropGood (h : Inv S q) (hw : Within q) (t : TransactionBase) :
    PostE (dropGood H C env t) q (fun _ q' => Within q' ↔ Op.HasRoom H C q (.dropGood t))
      fun q' => Within q' ↔ Op.HasRoom H C q (.dropGood t) := by
  simp only [dropGood, postE_bind]
  refine (h.toConsistent.ends_makeCurrent _ t.nonce).mono ?_ fun _ hf => hf.elim
  rintro _ q₁ ⟨lost, h₁⟩
  have hinv := h.lose _ h₁.consistent h₁.perm h₁.frame.known
  have hstep {q' : TransactionQueue} (hp : (q'.current.map Prod.snd).Perm (q.currentAfter H C t))
      (hfuture : q'.future = q₁.future) (hlimit : q'.limit = q₁.limit)
      (hfutureLimit : q'.futureLimit = q₁.futureLimit) :
      Within q' ↔ Op.HasRoom H C q (.dropGood t) := by
    have hlen := hp.length_eq
    rw [length_map] at hlen
    rw [Within, Op.HasRoom, hlen, hfuture, hlimit, hfutureLimit, h₁.frame.limit, h₁.frame.futureLimit]
    exact and_iff_left (h₁.future.trans hw.2)
  cases ht : t.sha3 H .WithSignature with
  | error e =>
    rw [postE_throw]
    refine hstep ?_ rfl rfl rfl
    have hself := filter_eq_self.mpr fun u (_ : u ∈ q.current.map Prod.snd ++ chain q.future
        (((t.sender H C).toOption.map Prod.fst).getD 0) q.future.length (t.nonce + 1)) =>
      decide_eq_true (Option.some_ne_none u.sha3).symm
    rw [currentAfter, ht]
    exact h₁.current.trans (List.Perm.of_eq hself.symm)
  | ok k =>
    have hafter : q.currentAfter H C t = (q.current.map Prod.snd ++
        chain q.future (((t.sender H C).toOption.map Prod.fst).getD 0) q.future.length (t.nonce + 1)).filter
        (·.sha3 ≠ k.1) := by
      rw [currentAfter, ht]
      apply filter_congr
      intro u _
      rw [decide_eq_decide, not_iff_not]
      exact ⟨fun heq => (Option.some.inj heq).symm, fun heq => congrArg some heq.symm⟩
    have hfilter := h₁.current.filter fun u => decide (u.sha3 ≠ k.1)
    rw [← hafter] at hfilter
    simp only [postE_bind, postE_get, postE_ite, postE_pure]
    split_ifs with hk
    · refine (h₁.consistent.ends_remove_current k.1).mono ?_ fun _ hf => hf.elim
      rintro _ q' ⟨hp, hfuture, hlimit, hfutureLimit⟩
      exact hstep (hp.trans hfilter) hfuture hlimit hfutureLimit
    · refine hstep (.trans ?_ hfilter) rfl rfl rfl
      rw [filter_eq_self.mpr]
      intro u hu
      refine decide_eq_true fun heq => hk ?_
      exact (hinv.iff k.1).mpr (.inl ⟨u, mem_append_left _ hu, heq⟩)

/-- An operation on a queue within its limits leaves it there, if there is room for what it
moves. -/
theorem Inv.within_step_iff (h : Inv S q) (hw : Within q) {op : Containers × Op}
    (hrec : op.2.Recoverable H C) : Within (q.step H C op) ↔ op.2.HasRoom H C q := by
  obtain ⟨env, op⟩ := op
  refine step_of_postE (R := fun q' => Within q' ↔ op.HasRoom H C q) ?_
  have hkept {m : Action Unit} (hm : PostE m q (fun _ q' => Within q') Within) (hroom : op.HasRoom H C q) :
      PostE m q (fun _ q' => Within q' ↔ op.HasRoom H C q) fun q' => Within q' ↔ op.HasRoom H C q :=
    hm.mono (fun _ _ hq' => iff_of_true hq' hroom) fun _ hq' => iff_of_true hq' hroom
  cases op with
  | importTransaction t ik =>
    refine hkept ?_ trivial
    simp only [Op.exec, postE_bind, postE_pure]
    exact h.within_importTransaction hw ik hrec
  | importRLP data ik =>
    refine hkept ?_ trivial
    simp only [Op.exec, postE_bind, postE_pure]
    refine importRLP_rule (fun _ => hw) fun t ht => ?_
    exact h.within_importTransaction hw ik fun v hv => sender_ne_none_of_ofRLP ht hv
  | setFuture g =>
    exact (h.toConsistent.within_setFuture hw g).mono (fun _ _ hq' => hq') fun _ hf => hf.elim
  | drop g => exact hkept (h.within_drop hw g) trivial
  | dropGood t => exact h.within_dropGood hw t
  | clear => exact iff_of_true ⟨Nat.zero_le _, Nat.zero_le _⟩ trivial

def Roomy (H : Hasher) (C : Crypto) : TransactionQueue → List (Containers × Op) → Prop
  | _, [] => True
  | q, op :: ops => op.2.HasRoom H C q ∧ Roomy H C (q.step H C op) ops

variable {ops : List (Containers × Op)}

theorem Inv.within_run_iff (h : Inv S q) (hw : Within q)
    (hrec : ∀ op ∈ ops, op.2.Recoverable H C) : (∀ ops', ops' <+: ops → Within (q.run H C ops')) ↔
    Roomy H C q ops := by
  induction ops generalizing q S with
  | nil =>
    refine iff_of_true (fun ops' hops' => ?_) trivial
    rw [prefix_nil.mp hops']
    exact hw
  | cons op ops ih =>
    have hop := hrec op mem_cons_self
    have hrest (o : Containers × Op) (ho : o ∈ ops) : o.2.Recoverable H C := hrec o (mem_cons_of_mem op ho)
    have hiff := h.within_step_iff hw hop
    obtain ⟨S', h', -⟩ := (h.step hop).inv
    constructor
    · intro hall
      have hw' : Within (q.step H C op) := hall [op] ((prefix_cons_inj op).mpr nil_prefix)
      refine ⟨hiff.mp hw', (ih h' hw' hrest).mp fun ops' hops' => ?_⟩
      exact hall (op :: ops') ((prefix_cons_inj op).mpr hops')
    · rintro ⟨hroom, hroomy⟩ ops' hops'
      cases ops' with
      | nil => exact hw
      | cons op' ops' =>
        obtain ⟨rfl, hrun⟩ := cons_prefix_cons.mp hops'
        exact (ih h' (hiff.mpr hroom) hrest).mpr hroomy ops' hrun

/-- In a run from a queue without transactions, in which the senders of all transactions can be
found, both sets are within their limits after every operation if and only if each `setFuture` finds
room among the future transactions for those that it moves there, and each `dropGood` among the
current ones. -/
theorem limits_hold_iff (q : TransactionQueue) (hrec : ∀ op ∈ ops, op.2.Recoverable H C) :
    (∀ ops', ops' <+: ops → (q.clear.run H C ops').current.length ≤ q.limit ∧
      (q.clear.run H C ops').future.length ≤ q.futureLimit) ↔ Roomy H C q.clear ops := by
  rw [← (inv_clear q).within_run_iff ⟨Nat.zero_le _, Nat.zero_le _⟩ hrec]
  refine forall_congr' fun ops' => forall_congr' fun hops' => ?_
  obtain ⟨-, hlimit, hfutureLimit, -⟩ := inv_run q fun op hop => hrec op (hops'.subset hop)
  rw [Within, hlimit, hfutureLimit]

theorem limits_hold_iff_example :
    let ops : List (Containers × Op) :=
  [(exampleContainers, .importTransaction (exampleTransaction 1 0 1 0) .Ignore),
      (exampleContainers, .setFuture (exampleHash (exampleTransaction 1 0 1 0)))]
    ∀ ops', ops' <+: ops →
      (exampleQueue.clear.run State.lengthHasher TransactionBase.exampleCrypto ops').current.length ≤ 1024 ∧
      (exampleQueue.clear.run State.lengthHasher TransactionBase.exampleCrypto ops').future.length ≤
        1024 := by
  refine (limits_hold_iff exampleQueue ?_).mpr ?_
  · intro op hop
    rcases mem_pair.mp hop with rfl | rfl
    · exact fun v => ofTransaction_sender_ne_none (by decide)
    · trivial
  · refine ⟨trivial, ?_, trivial⟩
    show ∀ st ∈ _, _
    decide +kernel

/-- Two transactions of one sender are moved to a future set that takes one. When the transaction
before them has come in a block, both are moved to a current set that takes one. -/
theorem limits_exceeded :
    let q : TransactionQueue := { limit := 1, futureLimit := 1 }
    let first := exampleTransaction 1 1 1 0
    let second := exampleTransaction 1 2 1 2
    let ops : List (Containers × Op) := [(exampleContainers, .importTransaction first .Ignore),
      (exampleContainers, .setFuture (exampleHash first)),
      (exampleContainers, .importTransaction second .Ignore)]
    let r := q.run State.lengthHasher TransactionBase.exampleCrypto ops
    r.current.length = 1 ∧ r.future.length = 1 ∧
      (r.step State.lengthHasher TransactionBase.exampleCrypto
        (exampleContainers, .setFuture (exampleHash second))).future.length = 2 ∧
      (r.step State.lengthHasher TransactionBase.exampleCrypto
        (exampleContainers, .dropGood (exampleTransaction 1 0 1 4))).current.length = 2 := by
  decide +kernel

end TransactionQueue
end Vapory
