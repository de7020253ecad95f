import Vapory.Transaction.QueueRun

/-! What `drop` takes out of the queue, and whether it comes back. -/
namespace Vapory
open List

namespace TransactionQueue
variable {H : Hasher} {C : Crypto} {q q' : TransactionQueue} {env : Containers} {S : Set H256}
  {g : H256} {t : VerifiedTransaction}

/-- No transaction of the queue has the hash `g`. -/
structure Lacks (g : H256) (q : TransactionQueue) : Prop where
  current : ∀ e ∈ q.current, e.2.sha3 ≠ g
  future : ∀ t ∈ q.future, t.sha3 ≠ g

theorem Lacks.mono (h : Lacks g q) (hcurrent : q'.current ⊆ q.current)
    (hfuture : q'.future ⊆ q.future) : Lacks g q' :=
  ⟨fun e he => h.current e (hcurrent he), fun u hu => h.future u (hfuture hu)⟩

section Keeps

theorem keeps_emplace (env : Containers) (ht : t.sha3 ≠ g) : KeepsE (Lacks g) (emplace env t) := by
  intro q h
  simp only [emplace, postE_bind, postE_modify, postE_get]
  cases env.placement.place (fun a b => (q.withKey t).priorityCompare a.2 b.2) (q.withKey t).current
    ((q.withKey t).nextNode, t) with
  | none => exact ⟨h.current, h.future⟩
  | some i =>
    refine ⟨fun e he => ?_, h.future⟩
    rcases mem_insertAt.mp he with rfl | he
    · exact ht
    · exact h.current e he

theorem mem_of_deref {i : ℕ} (h : q.deref i = some t) : ∃ e ∈ q.current, e.2 = t := by
  obtain ⟨e, he, heq⟩ := Option.map_eq_some_iff.mp h
  exact ⟨e, mem_of_find?_eq_some he, heq⟩

theorem keeps_remove (txHash : H256) : KeepsE (Lacks g) (remove txHash) := by
  intro q h
  simp only [remove, postE_bind, postE_get]
  cases q.currentByHash txHash with
  | none => exact h
  | some i =>
    cases hi : q.deref i with
    | none =>
      simp only [hi, postE_throw]
      exact h
    | some u =>
      simp only [hi, postE_bind, postE_set, postE_pure]
      exact h.mono (filter_subset_self _) (List.Subset.refl _)

theorem keeps_promote (env : Containers) {ts : List VerifiedTransaction}
    (hts : ∀ t ∈ ts, t.sha3 ≠ g) : KeepsE (Lacks g) (promote env ts) := by
  induction ts with
  | nil => exact keepsE_pure _
  | cons t ts ih =>
    refine (keeps_emplace env (hts t mem_cons_self)).bind fun _ => KeepsE.bind ?_ fun _ => ?_
    · intro q h
      rw [postE_modify]
      exact ⟨h.current, h.future⟩
    · exact ih fun u hu => hts u (mem_cons_of_mem t hu)

theorem keeps_trimFuture (env : Containers) (fuel : ℕ) : KeepsE (Lacks g) (trimFuture env fuel) := by
  induction fuel with
  | zero => exact fun q h => h
  | succ fuel ih =>
    intro q h
    simp only [trimFuture, postE_bind, postE_get, postE_ite]
    split_ifs
    · cases hlast : q.lastFuture (env.front (q.future.map (·.safeSender))) with
      | none => exact h
      | some u => exact ih _ (h.mono (List.Subset.refl _) (filter_subset_self _))
    · exact h

theorem keeps_makeCurrent (env : Containers) (a : Address) (nonce : U256) :
    KeepsE (Lacks g) (makeCurrent env a nonce) := by
  intro q h
  rw [makeCurrent, postE_bind, postE_get]
  have hmoved : ∀ u ∈ chain q.future a q.future.length (nonce + 1), u.sha3 ≠ g :=
    fun u hu => h.future u (mem_chain hu).1
  refine (keeps_promote env hmoved).bind (fun _ => KeepsE.bind ?_ fun _ => ?_) q h
  · exact fun q' h' => h'.mono (List.Subset.refl _) (filter_subset_self _)
  · exact fun q' h' => keeps_trimFuture env (q'.futureSize + 1) q' h'

theorem keeps_insertCurrent (env : Containers) (ht : t.sha3 ≠ g) :
    KeepsE (Lacks g) (insertCurrent env t) := by
  intro q h
  rw [insertCurrent, postE_bind, postE_get, postE_ite]
  split_ifs
  · exact h
  · refine (keeps_emplace env ht).bind
      (fun _ => (keeps_makeCurrent env t.safeSender t.nonce).bind fun _ => ?_) q h
    exact fun q' h' => ⟨h'.current, h'.future⟩

theorem keeps_trimCurrent (fuel : ℕ) : KeepsE (Lacks g) (trimCurrent fuel) := by
  induction fuel with
  | zero => exact fun q h => h
  | succ fuel ih =>
    intro q h
    simp only [trimCurrent, postE_bind, postE_get, postE_ite]
    split_ifs
    · cases q.current.getLast? with
      | none => exact h
      | some e => exact (keeps_remove e.2.sha3).bind (fun _ => ih) q h
    · exact h

theorem keeps_replaceCurrent (t : VerifiedTransaction) : KeepsE (Lacks g) (replaceCurrent t) := by
  intro q h
  simp only [replaceCurrent, postE_bind, postE_get]
  cases q.currentByAddressAndNonce.lookup t.key with
  | none => exact h
  | some node =>
    cases hnode : node.bind q.deref with
    | none =>
      simp only [hnode, postE_throw]
      exact h
    | some old =>
      simp only [hnode, postE_ite, postE_pure, postE_bind]
      split_ifs
      · exact h
      · exact keeps_remove old.sha3 q h

theorem keeps_replaceFuture (t : VerifiedTransaction) : KeepsE (Lacks g) (replaceFuture t) := by
  intro q h
  simp only [replaceFuture, postE_bind, postE_get]
  cases q.future.find? (·.key = t.key) with
  | none => exact h
  | some old =>
    simp only [postE_ite, postE_pure, postE_bind, postE_set]
    split_ifs
    · exact h
    · exact h.mono (List.Subset.refl _) (filter_subset_self _)

theorem keeps_tryImport (env : Containers) (ht : t.sha3 ≠ g) : KeepsE (Lacks g) (tryImport env t) := by
  refine (keeps_replaceCurrent t).bind fun ok => ?_
  cases ok with
  | false => exact keepsE_pure _
  | true =>
    refine (keeps_replaceFuture t).bind fun ok => ?_
    cases ok with
    | false => exact keepsE_pure _
    | true =>
      refine (keeps_insertCurrent env ht).bind fun _ q h => ?_
      exact (keeps_trimCurrent (q.current.length + 1)).bind (fun _ => keepsE_pure _) q h

theorem keeps_importTransaction (env : Containers) {t : TransactionBase} (ik : IfDropped)
    (ht : ∀ v, VerifiedTransaction.ofTransaction H C t = .ok v → v.sha3 ≠ g) :
    KeepsE (Lacks g) (importTransaction H C env t ik) := by
  intro q h
  simp only [importTransaction, postE_ite, postE_pure]
  split_ifs
  · exact h
  cases hv : VerifiedTransaction.ofTransaction H C t with
  | error e => exact h
  | ok v =>
    simp only [postE_bind, postE_get, postE_ite, postE_pure]
    split_ifs
    · exact h
    · refine (keeps_tryImport env (ht v hv) q h).tryCatch fun e q' h' => ?_
      cases e with
      | transaction e => exact h'
      | undefined => exact h'

theorem keeps_demote (es : List ((Address × U256) × Option ℕ)) : KeepsE (Lacks g) (demote es) := by
  induction es with
  | nil => exact keepsE_pure _
  | cons e es ih =>
    obtain ⟨k, node⟩ := e
    intro q h
    simp only [demote, postE_bind, postE_get]
    cases hnode : node.bind fun n => (q.deref n).map fun t => (n, t) with
    | none => exact h
    | some p =>
      obtain ⟨i, u⟩ := p
      refine ih _ ⟨fun e he => h.current e (mem_filter.mp he).1, fun v hv => ?_⟩
      obtain ⟨n, -, hn⟩ := Option.bind_eq_some_iff.mp hnode
      obtain ⟨u', hu', heq⟩ := Option.map_eq_some_iff.mp hn
      cases heq
      obtain ⟨e, he, rfl⟩ := mem_of_deref hu'
      simp only at hv
      split_ifs at hv
      · exact h.future v hv
      · rcases mem_append.mp hv with hv | hv
        · exact h.future v hv
        · rw [mem_singleton.mp hv]
          exact h.current e he

end Keeps

/-- The operation does not import a transaction with the hash `g`. -/
def Op.Other (H : Hasher) (C : Crypto) (g : H256) : Op → Prop
  | .importTransaction t _ => ∀ v, VerifiedTransaction.ofTransaction H C t = .ok v → v.sha3 ≠ g
  | .importRLP data _ => ∀ t, TransactionBase.ofRLP H C data .Everything = .ok t →
      ∀ v, VerifiedTransaction.ofTransaction H C t = .ok v → v.sha3 ≠ g
  | _ => True

theorem Op.keeps_exec (env : Containers) {op : Op} (hop : op.Other H C g) :
    KeepsE (Lacks g) (op.exec H C env) := by
  cases op with
  | importTransaction t ik => exact (keeps_importTransaction env ik hop).bind fun _ => keepsE_pure _
  | importRLP data ik =>
    refine KeepsE.bind (fun q h => ?_) fun _ => keepsE_pure _
    exact importRLP_rule (fun _ => h) fun t ht => keeps_importTransaction env ik (hop t ht) q h
  | setFuture txHash =>
    intro q h
    simp only [Op.exec, TransactionQueue.setFuture, postE_bind, postE_get]
    cases q.currentByHash txHash with
    | none => exact h
    | some i =>
      cases hi : q.deref i with
      | none =>
        simp only [hi, postE_throw]
        exact h
      | some st =>
        simp only [hi]
        exact keeps_demote _ q h
  | drop txHash =>
    intro q h
    simp only [Op.exec, TransactionQueue.drop, postE_bind, postE_get, postE_ite, postE_set, postE_pure]
    split_ifs
    · exact keeps_remove txHash _ ⟨h.current, h.future⟩
    · exact h
  | dropGood t =>
    refine (keeps_makeCurrent env _ t.nonce).bind fun _ q h => ?_
    cases t.sha3 H .WithSignature with
    | error e => exact h
    | ok k =>
      simp only [postE_bind, postE_get, postE_ite, postE_pure]
      split_ifs
      · exact keeps_remove k.1 q h
      · exact h
  | clear => exact fun q _ => ⟨fun e he => absurd he not_mem_nil, fun u hu => absurd hu not_mem_nil⟩

variable {ops : List (Containers × Op)}

theorem Lacks.run (h : Lacks g q) (hops : ∀ op ∈ ops, op.2.Other H C g) :
    Lacks g (q.run H C ops) := by
  induction ops generalizing q with
  | nil => exact h
  | cons op ops ih =>
    have hstep : Lacks g (q.step H C op) := step_of_postE (Op.keeps_exec op.1 (hops op mem_cons_self) q h)
    exact ih hstep fun o ho => hops o (mem_cons_of_mem op ho)

theorem Inv.lacks_drop_iff (h : Inv S q) (g : H256) :
    Lacks g (q.step H C (env, .drop g)) ↔ ∀ t ∈ q.future, t.sha3 ≠ g := by
  refine step_of_postE (R := fun q' => Lacks g q' ↔ ∀ t ∈ q.future, t.sha3 ≠ g) ?_
  have hsame {q' : TransactionQueue} (hcurrent : ∀ e ∈ q'.current, e.2.sha3 ≠ g)
      (hfuture : q'.future = q.future) : Lacks g q' ↔ ∀ t ∈ q.future, t.sha3 ≠ g := by
    rw [← hfuture]
    exact ⟨Lacks.future, fun hf => ⟨hcurrent, hf⟩⟩
  simp only [Op.exec, drop, postE_bind, postE_get, postE_ite, postE_pure, postE_set]
  split_ifs with hk
  · refine ((h.insertDropped g).toConsistent.ends_remove g).mono ?_ fun _ hf => hf.elim
    rintro _ q' (⟨hnone, rfl⟩ | ⟨i, u, hm, rfl, rfl⟩)
    · exact hsame hnone rfl
    · refine hsame (fun e he heq => ?_) rfl
      obtain ⟨he, hne⟩ := mem_filter.mp he
      exact of_decide_eq_true hne (h.indexed.node_of_sha3 hm he heq)
  · refine hsame (fun e he heq => hk ?_) rfl
    exact (h.iff g).mpr (.inl ⟨e.2, mem_append_left _ (mem_map_of_mem he), heq⟩)

/-- In every run in which the senders of all transactions can be found, `drop` takes its transaction
out of the queue for good, unless it is a future transaction, which stays. -/
theorem drop_removes_iff (q : TransactionQueue)
    (hrec : ∀ op ∈ ops, op.2.Recoverable H C) (env : Containers) (g : H256) :
    let r := q.clear.run H C ops
    let d := r.step H C (env, .drop g)
    (Lacks g d ∧ ∀ later, (∀ op ∈ later, op.2.Other H C g) → Lacks g (d.run H C later)) ↔
      ∀ t ∈ r.future, t.sha3 ≠ g := by
  intro r d
  obtain ⟨⟨S, h⟩, -⟩ := inv_run q hrec
  have hiff : Lacks g d ↔ ∀ t ∈ r.future, t.sha3 ≠ g := h.lacks_drop_iff g
  rw [← hiff]
  exact ⟨And.left, fun hd => ⟨hd, fun later hlater => hd.run hlater⟩⟩

theorem drop_removes_iff_example :
    let d := (exampleQueue.clear.run State.lengthHasher TransactionBase.exampleCrypto
      [(exampleContainers, .importTransaction (exampleTransaction 1 0 1 0) .Ignore)]).step State.lengthHasher
        TransactionBase.exampleCrypto (exampleContainers, .drop (exampleHash (exampleTransaction 1 0 1 0)))
    Lacks (exampleHash (exampleTransaction 1 0 1 0)) d := by
  refine ((drop_removes_iff exampleQueue ?_ exampleContainers
    (exampleHash (exampleTransaction 1 0 1 0))).mpr ?_).1
  · intro op hop
    rw [mem_singleton.mp hop]
    exact fun v => ofTransaction_sender_ne_none (by decide)
  · decide +kernel

/-- A transaction that waits for the one before it is dropped, and is back when that one arrives. -/
theorem drop_comes_back :
    let r := exampleQueue.run State.lengthHasher TransactionBase.exampleCrypto
      [(exampleContainers, .importTransaction (exampleTransaction 1 1 1 0) .Ignore),
        (exampleContainers, .setFuture (exampleHash (exampleTransaction 1 1 1 0))),
        (exampleContainers, .drop (exampleHash (exampleTransaction 1 1 1 0)))]
    let r' := r.run State.lengthHasher TransactionBase.exampleCrypto
      [(exampleContainers, .importTransaction (exampleTransaction 1 0 1 2) .Ignore)]
    exampleHash (exampleTransaction 1 0 1 2) ≠ exampleHash (exampleTransaction 1 1 1 0) ∧
      exampleHash (exampleTransaction 1 1 1 0) ∈ r.dropped ∧
      r.current.map (·.2.sha3) = [] ∧ r.future.map (·.sha3) = [exampleHash (exampleTransaction 1 1 1 0)] ∧
      exampleHash (exampleTransaction 1 1 1 0) ∈ r'.current.map (·.2.sha3) := by
  decide +kernel

end TransactionQueue
end Vapory
