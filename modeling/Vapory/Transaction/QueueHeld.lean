import Vapory.Transaction.QueueIndex

/-! The transactions of the queue as a whole, and the hashes that it knows. -/
namespace Vapory
open List

namespace TransactionQueue
variable {q q' : TransactionQueue} {t u : VerifiedTransaction} {env : Containers} {i : ℕ}
  {lost : List VerifiedTransaction}

theorem Consistent.of_perm (h : Consistent q) (lost : List VerifiedTransaction) (hI : Indexed q')
    (hp : q.held.Perm (lost ++ q'.held)) (hsize : q'.futureSize = q'.future.length % 2 ^ 32) :
    Consistent q' where
  indexed := hI
  keys := by
    have hn := (hp.map VerifiedTransaction.key).nodup_iff.mp h.keys
    rw [map_append] at hn
    exact hn.of_append_right
  hashes := by
    have hn := (hp.map VerifiedTransaction.sha3).nodup_iff.mp h.hashes
    rw [map_append] at hn
    exact hn.of_append_right
  senders u hu := h.senders u (hp.mem_iff.mpr (mem_append_right lost hu))
  futureSize := hsize

theorem Consistent.nodup_future (h : Consistent q) : q.future.Nodup := by
  have hn := h.keys.of_map
  exact hn.of_append_right

section Promote

/-- What is moved to the current transactions is left in the future ones until the loop is over. -/
structure Promoting (q : TransactionQueue) (n : ℕ) (all ts : List VerifiedTransaction)
    (q' : TransactionQueue) : Prop where
  indexed : Indexed q'
  perm : (q'.current.map Prod.snd ++ ts).Perm (q.current.map Prod.snd ++ all)
  future : q'.future = q.future
  frame : Frame q q'
  futureSize : q'.futureSize = (n + ts.length) % 2 ^ 32

theorem Promoting.step {n : ℕ} {all ts : List VerifiedTransaction} (h : Promoting q n all (t :: ts) q')
    (hkeys : ((q.current.map Prod.snd ++ all).map VerifiedTransaction.key).Nodup)
    (hhashes : ((q.current.map Prod.snd ++ all).map VerifiedTransaction.sha3).Nodup) (i : ℕ) :
    Promoting q n all ts
      { (q'.withKey t).withNode t i with
        futureSize := (((q'.withKey t).withNode t i).futureSize + 2 ^ 32 - 1) % 2 ^ 32 } := by
  have hk := (h.perm.map VerifiedTransaction.key).nodup_iff.mpr hkeys
  have hh := (h.perm.map VerifiedTransaction.sha3).nodup_iff.mpr hhashes
  rw [map_append, nodup_append'] at hk hh
  have hindexed := h.indexed.withNode (t := t)
    (fun e he heq => hk.2.2 (mem_map.mpr ⟨e.2, mem_map_of_mem he, heq⟩) (by simp))
    (fun e he heq => hh.2.2 (mem_map.mpr ⟨e.2, mem_map_of_mem he, heq⟩) (by simp)) i
  refine ⟨⟨hindexed.nodes, hindexed.fresh, hindexed.byHash, hindexed.byNonce⟩, ?_, h.future, ?_, ?_⟩
  · refine List.Perm.trans ?_ h.perm
    have hp := (insertAt_perm q'.current i (q'.nextNode, t)).map Prod.snd
    exact (hp.append_right ts).trans perm_middle.symm
  · exact ⟨h.frame.known, h.frame.dropped, h.frame.limit, h.frame.futureLimit⟩
  · have hsize := h.futureSize
    rw [length_cons, ← Nat.add_assoc] at hsize
    show (q'.futureSize + 2 ^ 32 - 1) % 2 ^ 32 = _
    rw [hsize]
    exact futureSize_pred _

theorem Consistent.ends_promote (h : Consistent q) {moved : List VerifiedTransaction}
    (hmoved : moved.Nodup) (hsub : moved ⊆ q.future) :
    PostE (promote env moved) q
    (fun _ q' => Promoting q (q.future.length - moved.length) moved [] q') fun _ => False := by
  have hperm := perm_append_filter_notMem h.nodup_future hmoved hsub
  have hheld : q.held.Perm ((q.current.map Prod.snd ++ moved) ++ q.future.filter (· ∉ moved)) := by
    rw [append_assoc]
    exact hperm.append_left _
  have hkeys := (hheld.map VerifiedTransaction.key).nodup_iff.mp h.keys
  have hhashes := (hheld.map VerifiedTransaction.sha3).nodup_iff.mp h.hashes
  rw [map_append] at hkeys hhashes
  have hlen := hperm.length_eq
  rw [length_append] at hlen
  have hstart : Promoting q (q.future.length - moved.length) moved moved q :=
    ⟨h.indexed, .refl _, rfl, .refl q, by rw [h.futureSize]; congr 1; omega⟩
  have hsenders : ∀ u ∈ q.current.map Prod.snd ++ moved, u.sender ≠ none := fun u hu =>
    h.senders u (hheld.mem_iff.mpr (mem_append_left _ hu))
  refine promote_rule (I := fun ts q' => Promoting q (q.future.length - moved.length) moved ts q')
    ?_ hstart
  intro t ts q' hq'
  have hs (u : VerifiedTransaction) (hu : u ∈ q'.current.map Prod.snd ++ t :: ts) : u.sender ≠ none :=
    hsenders u (hq'.perm.mem_iff.mp hu)
  refine (ends_emplace (hs t (by simp)) fun e he => hs e.2 ?_).mono ?_ fun _ hf => hf
  · exact mem_append_left _ (mem_map_of_mem he)
  · rintro _ q'' ⟨i, rfl, -⟩
    exact hq'.step hkeys.of_append_left hhashes.of_append_left i

/-- The future transactions that stay when those that follow on `nonce` are moved. -/
def staying (q : TransactionQueue) (a : Address) (nonce : U256) : List VerifiedTransaction :=
  q.future.filter (· ∉ chain q.future a q.future.length (nonce + 1))

end Promote

section Trim

theorem later_eq (r : Option VerifiedTransaction) (t : VerifiedTransaction) :
    later r t = some t ∨ later r t = r ∧ r ≠ none := by
  cases r with
  | none => exact .inl rfl
  | some u =>
    rw [later]
    split_ifs
    · exact .inl rfl
    · exact .inr ⟨rfl, by simp⟩

theorem foldl_later_mem {l : List VerifiedTransaction} {r : Option VerifiedTransaction}
    (hr : r ≠ none ∨ l ≠ []) : ∃ u, (u ∈ l ∨ r = some u) ∧ l.foldl later r = some u := by
  induction l generalizing r with
  | nil =>
    rcases hr with hr | hr
    · obtain ⟨u, rfl⟩ := Option.ne_none_iff_exists'.mp hr
      exact ⟨u, .inr rfl, rfl⟩
    · exact absurd rfl hr
  | cons t l ih =>
    rw [foldl_cons]
    rcases later_eq r t with hlater | ⟨hlater, hne⟩
    · obtain ⟨u, hu, heq⟩ := ih (r := some t) (.inl (by simp))
      rw [hlater]
      refine ⟨u, .inl ?_, heq⟩
      rcases hu with hu | hu
      · exact mem_cons_of_mem t hu
      · cases hu
        exact mem_cons_self
    · obtain ⟨u, hu, heq⟩ := ih (.inl hne)
      rw [hlater]
      exact ⟨u, hu.imp_left (mem_cons_of_mem t), heq⟩

theorem lastFuture_front (env : Containers) (h : q.future ≠ []) :
    ∃ u ∈ q.future, q.lastFuture (env.front (q.future.map (·.safeSender))) = some u := by
  have hne : q.future.map (·.safeSender) ≠ [] := by simpa using h
  obtain ⟨v, hv, hfront⟩ := mem_map.mp (env.front_mem hne)
  have hmem : v ∈ q.future.filter (·.safeSender = env.front (q.future.map (·.safeSender))) := by
    simp [hv, hfront]
  obtain ⟨u, hu, heq⟩ := foldl_later_mem (r := none) (.inr (ne_nil_of_mem hmem))
  refine ⟨u, ?_, heq⟩
  rcases hu with hu | hu
  · exact (mem_filter.mp hu).1
  · cases hu

def dropFuture (q : TransactionQueue) (u : VerifiedTransaction) : TransactionQueue :=
  { q with
    future := q.future.filter (· ≠ u)
    futureSize := (q.futureSize + 2 ^ 32 - 1) % 2 ^ 32 }

theorem Consistent.perm_dropFuture (h : Consistent q) (hu : u ∈ q.future) :
    q.future.Perm (u :: (q.dropFuture u).future) := by
  have hp := perm_append_filter_notMem h.nodup_future (nodup_singleton u) (by simpa using hu)
  have hfilter : q.future.filter (· ∉ [u]) = q.future.filter (· ≠ u) := by simp
  rw [hfilter] at hp
  exact hp

theorem Consistent.dropFuture (h : Consistent q) (hu : u ∈ q.future) :
    Consistent (q.dropFuture u) ∧ q.held.Perm (u :: (q.dropFuture u).held) := by
  have hp := h.perm_dropFuture hu
  have hheld : q.held.Perm (u :: (q.dropFuture u).held) := (hp.append_left _).trans perm_middle
  refine ⟨h.of_perm [u] ⟨h.indexed.nodes, h.indexed.fresh, h.indexed.byHash, h.indexed.byNonce⟩
    hheld ?_, hheld⟩
  show (q.futureSize + 2 ^ 32 - 1) % 2 ^ 32 = _
  rw [h.futureSize, hp.length_eq, length_cons]
  exact futureSize_pred _

structure Trimmed (q : TransactionQueue) (lost : List VerifiedTransaction) (q' : TransactionQueue) :
    Prop where
  consistent : Consistent q'
  frame : Frame q q'
  current : q'.current = q.current
  byNonce : q'.currentByAddressAndNonce = q.currentByAddressAndNonce
  perm : q.future.Perm (lost ++ q'.future)
  lost_iff : lost = [] ↔ q.futureSize ≤ q.futureLimit
  futureSize : q'.futureSize ≤ q'.futureLimit

theorem Consistent.ends_trimFuture (h : Consistent q) (env : Containers) {fuel : ℕ}
    (hfuel : q.futureSize < fuel) :
    PostE (trimFuture env fuel) q (fun _ q' => ∃ lost, Trimmed q lost q') fun _ => False := by
  induction fuel generalizing q with
  | zero => omega
  | succ fuel ih =>
    simp only [trimFuture, postE_bind, postE_get, postE_ite]
    split_ifs with hlt
    · have hsize := h.futureSize
      have hne : q.future ≠ [] := by
        intro hnil
        rw [hnil] at hsize
        simp at hsize
        omega
      obtain ⟨u, hu, hlast⟩ := lastFuture_front env hne
      simp only [hlast, postE_bind, postE_set]
      obtain ⟨hc, -⟩ := h.dropFuture hu
      have hpred : (q.dropFuture u).futureSize < fuel := by
        show (q.futureSize + 2 ^ 32 - 1) % 2 ^ 32 < fuel
        omega
      refine (ih hc hpred).mono ?_ fun _ hf => hf
      rintro _ q' ⟨lost, hq'⟩
      refine ⟨u :: lost, hq'.consistent, ?_, hq'.current, hq'.byNonce, ?_, ?_, hq'.futureSize⟩
      · exact ⟨hq'.frame.known, hq'.frame.dropped, hq'.frame.limit, hq'.frame.futureLimit⟩
      · exact (h.perm_dropFuture hu).trans (hq'.perm.cons u)
      · exact iff_of_false (cons_ne_nil u lost) (by omega)
    · rw [postE_pure]
      exact ⟨[], h, .refl q, rfl, rfl, .refl _, iff_of_true rfl (by omega), by omega⟩

end Trim

/-- What `makeCurrent_WITH_LOCK` does: it may drop future transactions, and only if too many are
left. -/
structure MadeCurrent (q : TransactionQueue) (a : Address) (nonce : U256)
    (lost : List VerifiedTransaction) (q' : TransactionQueue) : Prop where
  consistent : Consistent q'
  frame : Frame q q'
  perm : q.held.Perm (lost ++ q'.held)
  current : (q'.current.map Prod.snd).Perm
    (q.current.map Prod.snd ++ chain q.future a q.future.length (nonce + 1))
  lost_iff : lost = [] ↔ (q.staying a nonce).length % 2 ^ 32 ≤ q.futureLimit
  futureSize : q'.futureSize ≤ q'.futureLimit
  future : q'.future.length ≤ q.future.length

theorem Consistent.ends_makeCurrent (h : Consistent q) (a : Address) (nonce : U256) :
    PostE (makeCurrent env a nonce) q (fun _ q' => ∃ lost, MadeCurrent q a nonce lost q') fun _ =>
    False := by
  have hmoved := nodup_chain q.future a q.future.length (nonce + 1)
  have hsub : chain q.future a q.future.length (nonce + 1) ⊆ q.future := fun u hu => (mem_chain hu).1
  have hsplit := perm_append_filter_notMem h.nodup_future hmoved hsub
  have hlen := hsplit.length_eq
  rw [length_append] at hlen
  simp only [makeCurrent, postE_bind, postE_get, postE_modify]
  refine (h.ends_promote hmoved hsub).mono ?_ fun _ hf => hf
  intro _ q₁ h₁
  have hcurrent : (q₁.current.map Prod.snd).Perm
    (q.current.map Prod.snd ++ chain q.future a q.future.length (nonce + 1)) := by
    have hp := h₁.perm
    rwa [append_nil] at hp
  have hheld : q.held.Perm (q₁.current.map Prod.snd ++ q.staying a nonce) := by
    refine (hsplit.append_left (q.current.map Prod.snd)).trans ?_
    rw [← append_assoc]
    exact hcurrent.symm.append_right _
  rw [h₁.future]
  have hsize : q₁.futureSize = (q.staying a nonce).length % 2 ^ 32 := by
    rw [h₁.futureSize, length_nil, Nat.add_zero, staying]
    congr 1
    omega
  have h₂ : Consistent { q₁ with future := q.staying a nonce } := by
    refine h.of_perm [] ?_ hheld hsize
    exact ⟨h₁.indexed.nodes, h₁.indexed.fresh, h₁.indexed.byHash, h₁.indexed.byNonce⟩
  refine (h₂.ends_trimFuture env (Nat.lt_succ_self _)).mono ?_ fun _ hf => hf
  rintro _ q' ⟨lost, hq'⟩
  refine ⟨lost, hq'.consistent, ?_, ?_, hq'.current ▸ hcurrent, ?_, hq'.futureSize, ?_⟩
  · exact h₁.frame.trans ⟨hq'.frame.known, hq'.frame.dropped, hq'.frame.limit, hq'.frame.futureLimit⟩
  · refine hheld.trans ((hq'.perm.append_left _).trans ?_)
    rw [held, hq'.current, ← append_assoc, ← append_assoc]
    exact perm_append_comm.append_right _
  · rw [hq'.lost_iff, ← hsize, ← h₁.frame.futureLimit]
  · have hl := hq'.perm.length_eq
    have hl' : (q.staying a nonce).length = lost.length + q'.future.length := by
      rw [← length_append]
      exact hl
    have hle : (q.staying a nonce).length ≤ q.future.length := length_filter_le _ _
    omega

section Knows
variable {S : Set H256}

/-- The known hashes are those of the transactions, and besides those in `S`. -/
structure Knows (S : Set H256) (q : TransactionQueue) : Prop where
  iff : ∀ g, g ∈ q.known ↔ (∃ t ∈ q.held, t.sha3 = g) ∨ g ∈ S
  disjoint : ∀ t ∈ q.held, t.sha3 ∉ S

/-- The hashes of transactions that went without notice. -/
def forgotten (lost : List VerifiedTransaction) : Set H256 :=
  {g | g ∈ lost.map VerifiedTransaction.sha3}

theorem Knows.added (h : Knows S q) (hp : (t :: q.held).Perm (lost ++ q'.held))
    (hn : ((t :: q.held).map VerifiedTransaction.sha3).Nodup) (hnew : t.sha3 ∉ q.known)
    (hk : q'.known = insert t.sha3 q.known) : Knows (S ∪ forgotten lost) q' := by
  have hn' := (hp.map VerifiedTransaction.sha3).nodup_iff.mp hn
  rw [map_append, nodup_append'] at hn'
  constructor
  · intro g
    have hmem : (∃ u ∈ t :: q.held, u.sha3 = g) ↔ g ∈ lost.map VerifiedTransaction.sha3 ∨
      ∃ u ∈ q'.held, u.sha3 = g := by
      simp only [hp.mem_iff, mem_append, or_and_right, exists_or, mem_map]
    rw [hk, Finset.mem_insert, h.iff]
    rw [exists_mem_cons_iff] at hmem
    show _ ↔ _ ∨ g ∈ S ∨ g ∈ lost.map VerifiedTransaction.sha3
    constructor
    · rintro (rfl | hg | hg)
      · rcases hmem.mp (.inl rfl) with hm | hm
        · exact .inr (.inr hm)
        · exact .inl hm
      · rcases hmem.mp (.inr hg) with hm | hm
        · exact .inr (.inr hm)
        · exact .inl hm
      · exact .inr (.inl hg)
    · rintro (hg | hg | hg)
      · rcases hmem.mpr (.inr hg) with hm | hm
        · exact .inl hm.symm
        · exact .inr (.inl hm)
      · exact .inr (.inr hg)
      · rcases hmem.mpr (.inl hg) with hm | hm
        · exact .inl hm.symm
        · exact .inr (.inl hm)
  · rintro u hu (hS | hlost)
    · rcases mem_cons.mp (hp.mem_iff.mpr (mem_append_right lost hu)) with rfl | hm
      · exact hnew ((h.iff _).mpr (.inr hS))
      · exact h.disjoint u hm hS
    · exact hn'.2.2 hlost (mem_map_of_mem hu)

theorem Knows.lose (h : Knows S q) (hp : q.held.Perm (lost ++ q'.held))
    (hn : (q.held.map VerifiedTransaction.sha3).Nodup) (hk : q'.known = q.known) :
    Knows (S ∪ forgotten lost) q' := by
  have hn' := (hp.map VerifiedTransaction.sha3).nodup_iff.mp hn
  rw [map_append, nodup_append'] at hn'
  constructor
  · intro g
    have hmem : (∃ u ∈ q.held, u.sha3 = g) ↔ g ∈ lost.map VerifiedTransaction.sha3 ∨
      ∃ u ∈ q'.held, u.sha3 = g := by
      simp only [hp.mem_iff, mem_append, or_and_right, exists_or, mem_map]
    rw [hk, h.iff, hmem]
    show _ ↔ _ ∨ g ∈ S ∨ g ∈ lost.map VerifiedTransaction.sha3
    rw [or_assoc, or_comm, or_assoc]
  · rintro u hu (hS | hlost)
    · exact h.disjoint u (hp.mem_iff.mpr (mem_append_right lost hu)) hS
    · exact hn'.2.2 hlost (mem_map_of_mem hu)

theorem Knows.removed (h : Knows S q) (hp : q.held.Perm (t :: q'.held))
    (hn : (q.held.map VerifiedTransaction.sha3).Nodup) (hk : q'.known = q.known.erase t.sha3) :
    Knows S q' := by
  have hn' := (hp.map VerifiedTransaction.sha3).nodup_iff.mp hn
  rw [map_cons, nodup_cons] at hn'
  have hmem (g : H256) : (∃ u ∈ q.held, u.sha3 = g) ↔ t.sha3 = g ∨ ∃ u ∈ q'.held, u.sha3 = g := by
    simp [hp.mem_iff]
  constructor
  · intro g
    rw [hk, Finset.mem_erase, h.iff, hmem]
    constructor
    · rintro ⟨hne, (hg | hg) | hg⟩
      · exact absurd hg.symm hne
      · exact .inl hg
      · exact .inr hg
    · rintro (⟨u, hu, rfl⟩ | hg)
      · refine ⟨fun heq => hn'.1 ?_, .inl (.inr ⟨u, hu, rfl⟩)⟩
        rw [← heq]
        exact mem_map_of_mem hu
      · refine ⟨?_, .inr hg⟩
        rintro rfl
        exact h.disjoint t (hp.mem_iff.mpr mem_cons_self) hg
  · intro u hu
    exact h.disjoint u (hp.mem_iff.mpr (mem_cons_of_mem t hu))

structure Inv (S : Set H256) (q : TransactionQueue) : Prop extends Consistent q, Knows S q

theorem Inv.lose (h : Inv S q) (lost : List VerifiedTransaction) (hc : Consistent q')
    (hp : q.held.Perm (lost ++ q'.held)) (hk : q'.known = q.known) : Inv (S ∪ forgotten lost) q' :=
  ⟨hc, h.toKnows.lose hp h.hashes hk⟩

theorem forgotten_nil : forgotten [] = ∅ := by simp [forgotten]

theorem forgotten_nonempty (h : lost ≠ []) : (S ∪ forgotten lost).Nonempty := by
  obtain ⟨u, hu⟩ := exists_mem_of_ne_nil lost h
  exact ⟨u.sha3, .inr (mem_map_of_mem hu)⟩

end Knows

section Remove
variable {S : Set H256}

/-- The queue after `remove_WITH_LOCK` of a current transaction. -/
def removed (q : TransactionQueue) (i : ℕ) (t : VerifiedTransaction) : TransactionQueue :=
  { q.withoutNode i t with known := q.known.erase t.sha3 }

theorem Consistent.removed (h : Consistent q) (hm : (i, t) ∈ q.current) :
    Consistent (q.removed i t) ∧ q.held.Perm (t :: (q.removed i t).held) := by
  have hI := h.indexed.withoutNode hm
  have hp := h.indexed.held_withoutNode hm
  exact ⟨h.of_perm [t] ⟨hI.nodes, hI.fresh, hI.byHash, hI.byNonce⟩ hp h.futureSize, hp⟩

theorem Inv.removed (h : Inv S q) (hm : (i, t) ∈ q.current) : Inv S (q.removed i t) := by
  obtain ⟨hc, hp⟩ := h.toConsistent.removed hm
  exact ⟨hc, h.toKnows.removed hp h.hashes rfl⟩

theorem Consistent.ends_remove (h : Consistent q) (g : H256) : PostE (remove g) q (fun _ q' =>
    (∀ e ∈ q.current, e.2.sha3 ≠ g) ∧ q' = q ∨ ∃ i t, (i, t) ∈ q.current ∧ t.sha3 = g ∧
    q' = q.removed i t) fun _ => False := by
  cases hg : q.currentByHash g with
  | none =>
    simp only [remove, postE_bind, postE_get, hg, postE_pure]
    left
    refine ⟨fun e he heq => ?_, trivial⟩
    rw [(h.indexed.byHash g e.1).mpr ⟨e.2, he, heq⟩] at hg
    cases hg
  | some i =>
    obtain ⟨t, hm, rfl⟩ := (h.indexed.byHash g i).mp hg
    have hderef := h.indexed.deref_iff.mpr hm
    simp only [remove, postE_bind, postE_get, hg, hderef, postE_set, postE_pure]
    exact .inr ⟨i, t, hm, rfl, rfl⟩

theorem Inv.ends_remove (h : Inv S q) (g : H256) : PostE (remove g) q (fun _ q' =>
    Inv S q' ∧ q'.held.length ≤ q.held.length ∧ q'.limit = q.limit ∧ q'.futureLimit = q.futureLimit)
    fun _ => False := by
  refine (h.toConsistent.ends_remove g).mono ?_ fun _ hf => hf
  rintro _ q' (⟨-, rfl⟩ | ⟨i, t, hm, -, rfl⟩)
  · exact ⟨h, le_rfl, rfl, rfl⟩
  · have hlen := (h.toConsistent.removed hm).2.length_eq
    rw [length_cons] at hlen
    exact ⟨h.removed hm, by omega, rfl, rfl⟩

theorem Inv.ends_trimCurrent (h : Inv S q) {fuel : ℕ} (hfuel : q.current.length < fuel) :
    PostE (trimCurrent fuel) q
    (fun _ q' => Inv S q' ∧ q'.future = q.future ∧ q'.current.length ≤ q'.limit ∧
      q'.limit = q.limit ∧ q'.futureLimit = q.futureLimit) fun _ => False := by
  induction fuel generalizing q with
  | zero => omega
  | succ fuel ih =>
    simp only [trimCurrent, postE_bind, postE_get, postE_ite]
    split_ifs with hlt
    · have hne : q.current ≠ [] := by
        rintro hnil
        rw [hnil] at hlt
        simp at hlt
      obtain ⟨e, hlast⟩ := Option.ne_none_iff_exists'.mp (by simpa using hne : q.current.getLast? ≠ none)
      have he : e ∈ q.current := mem_of_getLast? hlast
      simp only [hlast, postE_bind]
      refine (h.toConsistent.ends_remove e.2.sha3).mono ?_ fun _ hf => hf
      rintro _ q₁ (⟨hnone, -⟩ | ⟨i, t, hm, -, rfl⟩)
      · exact absurd rfl (hnone e he)
      · have hlen : (q.removed i t).current.length < q.current.length :=
          length_filter_lt_length_iff_exists.mpr ⟨_, hm, by simp⟩
        exact ih (h.removed hm) (by omega)
    · rw [postE_pure]
      exact ⟨h, rfl, by omega, rfl, rfl⟩

end Remove

section Import
variable {S : Set H256}

theorem Consistent.ends_replaceCurrent (h : Consistent q) (t : VerifiedTransaction) :
    PostE (replaceCurrent t) q (fun b q' => (∀ e ∈ q.current, e.2.key ≠ t.key) ∧ b = true ∧ q' = q ∨
      ∃ i old, (i, old) ∈ q.current ∧ old.key = t.key ∧
        (t.gasPrice < old.gasPrice ∧ b = false ∧ q' = q ∨ ¬ t.gasPrice < old.gasPrice ∧ b = true ∧
          q' = q.removed i old))
      fun _ => False := by
  cases hk : q.currentByAddressAndNonce.lookup t.key with
  | none =>
    simp only [replaceCurrent, postE_bind, postE_get, hk, postE_pure]
    left
    refine ⟨fun e he heq => ?_, trivial, trivial⟩
    rw [(h.indexed.byNonce t.key (some e.1)).mpr ⟨e.1, e.2, rfl, he, heq⟩] at hk
    cases hk
  | some node =>
    obtain ⟨i, old, rfl, hm, hkey⟩ := (h.indexed.byNonce t.key node).mp hk
    have hderef : (some i).bind q.deref = some old := h.indexed.deref_iff.mpr hm
    simp only [replaceCurrent, postE_bind, postE_get, hk, hderef, postE_ite, postE_pure]
    split_ifs with hlt
    · exact .inr ⟨i, old, hm, hkey, .inl ⟨hlt, trivial, trivial⟩⟩
    · refine (h.ends_remove old.sha3).mono ?_ fun _ hf => hf
      rintro _ q' (⟨hnone, -⟩ | ⟨j, u, hu, hsame, rfl⟩)
      · exact absurd rfl (hnone _ hm)
      · obtain rfl := h.indexed.node_of_sha3 hm hu hsame
        obtain rfl := h.indexed.unique hu hm
        exact .inr ⟨j, u, hu, hkey, .inr ⟨hlt, trivial, rfl⟩⟩

theorem ends_replaceFuture (q : TransactionQueue) (t : VerifiedTransaction) :
    PostE (replaceFuture t) q (fun b q' => (∀ u ∈ q.future, u.key ≠ t.key) ∧ b = true ∧ q' = q ∨
      ∃ old ∈ q.future, old.key = t.key ∧
        (t.gasPrice < old.gasPrice ∧ b = false ∧ q' = q ∨ ¬ t.gasPrice < old.gasPrice ∧ b = true ∧
          q' = q.dropFuture old))
      fun _ => False := by
  cases hf : q.future.find? (·.key = t.key) with
  | none =>
    simp only [replaceFuture, postE_bind, postE_get, hf, postE_pure]
    left
    refine ⟨fun u hu => ?_, trivial, trivial⟩
    simpa using List.find?_eq_none.mp hf u hu
  | some old =>
    have hm := mem_of_find?_eq_some hf
    have hkey : old.key = t.key := by simpa using List.find?_some hf
    simp only [replaceFuture, postE_bind, postE_get, hf, postE_ite, postE_pure, postE_set]
    split_ifs with hlt
    · exact .inr ⟨old, hm, hkey, .inl ⟨hlt, trivial, trivial⟩⟩
    · exact .inr ⟨old, hm, hkey, .inr ⟨hlt, trivial, rfl⟩⟩

/-- More future transactions stay than may. -/
def Overflows (q : TransactionQueue) (a : Address) (nonce : U256) : Prop :=
  q.futureLimit < (q.staying a nonce).length % 2 ^ 32

/-- What a step that may lose transactions makes of the queue: `c` says whether it does. -/
structure Stepped (S : Set H256) (c : Prop) (q q' : TransactionQueue) : Prop where
  inv : ∃ S', Inv S' q' ∧ (¬ c → S' ⊆ S) ∧ (c → S'.Nonempty)
  limits : q'.limit = q.limit ∧ q'.futureLimit = q.futureLimit
  bounded : q.held.length ≤ q.limit + q.futureLimit → q.limit + q.futureLimit < 2 ^ 32 →
    q'.held.length ≤ q.limit + q.futureLimit

theorem Inv.sha3_ne (h : Inv S q) (hnew : t.sha3 ∉ q.known) : ∀ u ∈ q.held, u.sha3 ≠ t.sha3 := by
  intro u hu heq
  exact hnew ((h.iff _).mpr (.inl ⟨u, hu, heq⟩))

theorem Inv.currentByHash_isSome (h : Inv S q) (hnew : t.sha3 ∉ q.known) :
    (q.currentByHash t.sha3).isSome = false := by
  cases hi : q.currentByHash t.sha3 with
  | none => rfl
  | some i =>
    obtain ⟨u, hu, heq⟩ := (h.indexed.byHash _ _).mp hi
    exact absurd heq (h.sha3_ne hnew u (mem_append_left _ (mem_map_of_mem hu)))

theorem Inv.ends_insertCurrent (h : Inv S q) (hsender : t.sender ≠ none)
    (hkey : ∀ u ∈ q.held, u.key ≠ t.key) (hnew : t.sha3 ∉ q.known) :
    PostE (insertCurrent env t) q (fun _ q' => ∃ lost, Inv (S ∪ forgotten lost) q' ∧
      (lost = [] ↔ ¬ q.Overflows t.safeSender t.nonce) ∧ q'.futureSize ≤ q'.futureLimit ∧
      q'.future.length ≤ q.future.length ∧ q'.limit = q.limit ∧ q'.futureLimit = q.futureLimit)
      fun _ => False := by
  have hhash := h.sha3_ne hnew
  have hnone := h.currentByHash_isSome hnew
  have hcurrent {e : ℕ × VerifiedTransaction} (he : e ∈ q.current) : e.2 ∈ q.held :=
    mem_append_left _ (mem_map_of_mem he)
  simp only [insertCurrent, postE_bind, postE_get, hnone, Bool.false_eq_true, if_false]
  refine (ends_emplace hsender fun e he => h.senders e.2 (hcurrent he)).mono ?_ fun _ hf => hf
  rintro _ q₁ ⟨i, rfl, -⟩
  have hp := held_withNode q t i
  have hkeys : ((t :: q.held).map VerifiedTransaction.key).Nodup := by
    rw [map_cons, nodup_cons]
    refine ⟨fun hm => ?_, h.keys⟩
    obtain ⟨u, hu, heq⟩ := mem_map.mp hm
    exact hkey u hu heq
  have hhashes : ((t :: q.held).map VerifiedTransaction.sha3).Nodup := by
    rw [map_cons, nodup_cons]
    refine ⟨fun hm => ?_, h.hashes⟩
    obtain ⟨u, hu, heq⟩ := mem_map.mp hm
    exact hhash u hu heq
  have h₁ : Consistent ((q.withKey t).withNode t i) := by
    refine ⟨h.indexed.withNode (fun e he => hkey e.2 (hcurrent he)) (fun e he => hhash e.2 (hcurrent he)) i,
      (hp.map _).nodup_iff.mpr hkeys, (hp.map _).nodup_iff.mpr hhashes, ?_, h.futureSize⟩
    intro u hu
    rcases mem_cons.mp (hp.mem_iff.mp hu) with rfl | hu
    · exact hsender
    · exact h.senders u hu
  refine (h₁.ends_makeCurrent t.safeSender t.nonce).mono ?_ fun _ hf => hf
  rintro _ q₂ ⟨lost, h₂⟩
  rw [postE_modify]
  have hc := h₂.consistent
  refine ⟨lost, ⟨⟨⟨hc.indexed.nodes, hc.indexed.fresh, hc.indexed.byHash, hc.indexed.byNonce⟩,
    hc.keys, hc.hashes, hc.senders, hc.futureSize⟩, ?_⟩, ?_, h₂.futureSize, h₂.future,
    h₂.frame.limit, h₂.frame.futureLimit⟩
  · refine h.toKnows.added (hp.symm.trans h₂.perm) hhashes hnew ?_
    show insert t.sha3 q₂.known = _
    rw [h₂.frame.known]
    rfl
  · rw [h₂.lost_iff, Overflows, Nat.not_lt]
    rfl

/-- There is a transaction of the same sender and nonce, at a higher price. -/
def Overbid (q : TransactionQueue) (t : VerifiedTransaction) : Prop :=
  ∃ u ∈ q.held, u.key = t.key ∧ t.gasPrice < u.gasPrice

/-- The import of `t` loses a future transaction: one of the same sender and nonce, or one too
many. -/
def Forgets (q : TransactionQueue) (t : VerifiedTransaction) : Prop :=
  ¬ q.Overbid t ∧ ((∃ u ∈ q.future, u.key = t.key) ∨ q.Overflows t.safeSender t.nonce)

def insertAndTrim (env : Containers) (t : VerifiedTransaction) : Action ImportResult := do
  insertCurrent env t
  let q ← get
  trimCurrent (q.current.length + 1)
  return .Success

/-- The queue without another transaction of the sender and nonce of `t`. -/
inductive Cleared (q : TransactionQueue) (t : VerifiedTransaction) : TransactionQueue → Prop
  | none (h : ∀ u ∈ q.held, u.key ≠ t.key) : Cleared q t q
  | current {i : ℕ} {old : VerifiedTransaction} (hm : (i, old) ∈ q.current) (hk : old.key = t.key)
      (hge : ¬ t.gasPrice < old.gasPrice) : Cleared q t (q.removed i old)
  | future {old : VerifiedTransaction} (hm : old ∈ q.future) (hk : old.key = t.key)
      (hge : ¬ t.gasPrice < old.gasPrice) : Cleared q t (q.dropFuture old)

variable {old : VerifiedTransaction}

theorem Consistent.key_ne (h : Consistent q) (hp : q.held.Perm (old :: q'.held))
    (hk : old.key = t.key) : ∀ u ∈ q'.held, u.key ≠ t.key := by
  intro u hu heq
  have hn := (hp.map VerifiedTransaction.key).nodup_iff.mp h.keys
  rw [map_cons, nodup_cons] at hn
  apply hn.1
  rw [hk, ← heq]
  exact mem_map_of_mem hu

theorem Consistent.not_overbid (h : Consistent q) (hold : old ∈ q.held) (hk : old.key = t.key)
    (hge : ¬ t.gasPrice < old.gasPrice) : ¬ q.Overbid t := by
  rintro ⟨u, hu, hku, hlt⟩
  rw [inj_on_of_nodup_map h.keys hu hold (hku.trans hk.symm)] at hlt
  exact hge hlt

theorem Consistent.cleared (h : Consistent q) (hq' : Cleared q t q') :
    ¬ q.Overbid t ∧ ∀ u ∈ q'.held, u.key ≠ t.key := by
  cases hq' with
  | none hfree =>
    refine ⟨?_, hfree⟩
    rintro ⟨u, hu, hk, -⟩
    exact hfree u hu hk
  | current hm hk hge =>
    exact ⟨h.not_overbid (mem_append_left _ (mem_map_of_mem hm)) hk hge, h.key_ne (h.removed hm).2 hk⟩
  | future hm hk hge =>
    exact ⟨h.not_overbid (mem_append_right _ hm) hk hge, h.key_ne (h.dropFuture hm).2 hk⟩

/-- An import leaves the queue as it is, or makes room for the transaction and enters it. -/
theorem Consistent.tryImport_rule (h : Consistent q) {R : TransactionQueue → Prop}
    (hover : q.Overbid t → R q)
    (hins : ∀ q₁, Cleared q t q₁ → PostE (insertAndTrim env t) q₁ (fun _ q' => R q') fun _ => False) :
    PostE (tryImport env t) q (fun _ q' => R q') fun _ => False := by
  rw [tryImport, postE_bind]
  refine (h.ends_replaceCurrent t).mono ?_ fun _ hf => hf
  rintro b q₁ (⟨hfree, rfl, rfl⟩ | ⟨i, old, hm, hk, ⟨hlt, rfl, rfl⟩ | ⟨hge, rfl, rfl⟩⟩)
  · simp only [Bool.not_true, Bool.false_eq_true, if_false]
    rw [postE_bind]
    refine (ends_replaceFuture q₁ t).mono ?_ fun _ hf => hf
    rintro b q₂ (⟨hfree', rfl, rfl⟩ | ⟨old, hold, hk, ⟨hlt, rfl, rfl⟩ | ⟨hge, rfl, rfl⟩⟩)
    · refine hins q₂ (.none fun u hu => ?_)
      rcases mem_append.mp hu with hu | hu
      · obtain ⟨e, he, rfl⟩ := mem_map.mp hu
        exact hfree e he
      · exact hfree' u hu
    · exact hover ⟨old, mem_append_right _ hold, hk, hlt⟩
    · exact hins _ (.future hold hk hge)
  · exact hover ⟨old, mem_append_left _ (mem_map_of_mem hm), hk, hlt⟩
  · simp only [Bool.not_true, Bool.false_eq_true, if_false]
    rw [postE_bind]
    refine (ends_replaceFuture (q.removed i old) t).mono ?_ fun _ hf => hf
    rintro b q₂ (⟨-, rfl, rfl⟩ | ⟨u, hu, hku, -⟩)
    · exact hins _ (.current hm hk hge)
    · exact absurd hku ((h.cleared (.current hm hk hge)).2 u (mem_append_right _ hu))

theorem Inv.ends_insertAndTrim (h : Inv S q) (hsender : t.sender ≠ none)
    (hkey : ∀ u ∈ q.held, u.key ≠ t.key) (hnew : t.sha3 ∉ q.known) :
    PostE (insertAndTrim env t) q
      (fun _ q' => ∃ lost, Inv (S ∪ forgotten lost) q' ∧ (lost = [] ↔ ¬ q.Overflows t.safeSender t.nonce) ∧
        (q'.limit = q.limit ∧ q'.futureLimit = q.futureLimit) ∧ q'.current.length ≤ q.limit ∧
        q'.future.length ≤ q.future.length ∧
        (q.future.length < 2 ^ 32 → q'.future.length ≤ q.futureLimit)) fun _ => False := by
  simp only [insertAndTrim, postE_bind, postE_get, postE_pure]
  refine (h.ends_insertCurrent hsender hkey hnew).mono ?_ fun _ hf => hf
  rintro _ q₁ ⟨lost, h₁, hlost, hsize, hlen, hlimit, hfutureLimit⟩
  refine (h₁.ends_trimCurrent (Nat.lt_succ_self _)).mono ?_ fun _ hf => hf
  rintro _ q' ⟨h', hfuture, hcurrent, hlimit', hfutureLimit'⟩
  rw [hfuture]
  refine ⟨lost, h', hlost, ⟨hlimit'.trans hlimit, hfutureLimit'.trans hfutureLimit⟩, by omega, hlen,
    fun hlt => ?_⟩
  have hmod := h₁.futureSize
  rw [Nat.mod_eq_of_lt (by omega)] at hmod
  omega

theorem Inv.cleared (h : Inv S q) (hq' : Cleared q t q') (hnew : t.sha3 ∉ q.known) :
    ∃ S', Inv S' q' ∧ t.sha3 ∉ q'.known ∧ (q'.limit = q.limit ∧ q'.futureLimit = q.futureLimit) ∧
      ((∃ u ∈ q.future, u.key = t.key) ∧ S'.Nonempty ∧ q'.future.length ≤ q.future.length ∨
        (∀ u ∈ q.future, u.key ≠ t.key) ∧ S' ⊆ S ∧ q'.future = q.future) := by
  cases hq' with
  | none hfree =>
    exact ⟨S, h, hnew, ⟨rfl, rfl⟩, .inr ⟨fun u hu => hfree u (mem_append_right _ hu), subset_rfl, rfl⟩⟩
  | current hm hk hge =>
    have hkey := (h.toConsistent.cleared (.current hm hk hge)).2
    refine ⟨S, h.removed hm, fun hg => hnew (Finset.mem_of_mem_erase hg), ⟨rfl, rfl⟩,
      .inr ⟨?_, subset_rfl, rfl⟩⟩
    exact fun u hu => hkey u (mem_append_right _ hu)
  | future hm hk hge =>
    obtain ⟨hc, hp⟩ := h.toConsistent.dropFuture hm
    refine ⟨_, h.lose [_] hc hp rfl, hnew, ⟨rfl, rfl⟩, .inl ⟨⟨_, hm, hk⟩, ?_, ?_⟩⟩
    · exact forgotten_nonempty (cons_ne_nil _ [])
    · exact length_filter_le _ _

theorem Inv.ends_tryImport (h : Inv S q) (hsender : t.sender ≠ none) (hnew : t.sha3 ∉ q.known) :
    PostE (tryImport env t) q (fun _ q' => Stepped S (q.Forgets t) q q') fun _ => False := by
  refine h.toConsistent.tryImport_rule ?_ ?_
  · intro hover
    exact ⟨⟨S, h, fun _ => subset_rfl, fun hf => absurd hover hf.1⟩, ⟨rfl, rfl⟩, fun hle _ => hle⟩
  · intro q₁ hq₁
    obtain ⟨hover, hkey⟩ := h.toConsistent.cleared hq₁
    obtain ⟨S₁, h₁, hnew₁, hlimits, hfuture⟩ := h.cleared hq₁ hnew
    have hlen : q₁.future.length ≤ q.held.length := by
      rw [held, length_append]
      rcases hfuture with ⟨-, -, hle⟩ | ⟨-, -, heq⟩
      · omega
      · rw [heq]
        omega
    refine (h₁.ends_insertAndTrim hsender hkey hnew₁).mono ?_ fun _ hf => hf
    rintro _ q' ⟨lost, h', hlost, hlimits', hcurrent, -, hbound⟩
    rw [hlimits.1, hlimits.2] at hlimits'
    rw [hlimits.1] at hcurrent
    rw [hlimits.2] at hbound
    have hheld : q.held.length ≤ q.limit + q.futureLimit → q.limit + q.futureLimit < 2 ^ 32 →
        q'.held.length ≤ q.limit + q.futureLimit := by
      intro hle hlt
      have := hbound (by omega)
      rw [held, length_append, length_map]
      omega
    refine ⟨⟨_, h', ?_, ?_⟩, hlimits', hheld⟩
    · intro hc
      rcases hfuture with ⟨hsame, -⟩ | ⟨-, hS, heq⟩
      · exact absurd ⟨hover, .inl hsame⟩ hc
      · have hnot : ¬ q₁.Overflows t.safeSender t.nonce := by
          rw [Overflows, staying, heq, hlimits.2]
          exact fun ho => hc ⟨hover, .inr ho⟩
        rw [hlost.mpr hnot, forgotten_nil, Set.union_empty]
        exact hS
    · intro hf
      rcases hfuture with ⟨-, hne, -⟩ | ⟨hfree, -, heq⟩
      · exact hne.mono Set.subset_union_left
      · apply forgotten_nonempty
        intro hnil
        have hnot := hlost.mp hnil
        rw [Overflows, staying, heq, hlimits.2] at hnot
        rcases hf.2 with ⟨u, hu, hk⟩ | ho
        · exact hfree u hu hk
        · exact hnot ho

end Import

section SetFuture

def demoted (q : TransactionQueue) (i : ℕ) (t : VerifiedTransaction) : TransactionQueue :=
  { q.withoutNode i t with
    future := q.future ++ [t]
    futureSize := (q.futureSize + 1) % 2 ^ 32 }

theorem Consistent.demoted (h : Consistent q) (hm : (i, t) ∈ q.current) :
    Consistent (q.demoted i t) ∧ q.held.Perm (q.demoted i t).held := by
  have hI := h.indexed.withoutNode hm
  have hp : q.held.Perm (q.demoted i t).held := by
    refine (h.indexed.held_withoutNode hm).trans ?_
    show (t :: ((q.withoutNode i t).current.map Prod.snd ++ q.future)).Perm (_ ++ (q.future ++ [t]))
    rw [← append_assoc]
    exact (perm_append_singleton t _).symm
  refine ⟨h.of_perm [] ⟨hI.nodes, hI.fresh, hI.byHash, hI.byNonce⟩ hp ?_, hp⟩
  show (q.futureSize + 1) % 2 ^ 32 = (q.future ++ [t]).length % 2 ^ 32
  rw [h.futureSize, length_append, length_singleton]
  omega

/-- An entry of the map by account and nonce, and the transaction that it leads to. -/
def Entry (q : TransactionQueue) (e : (Address × U256) × Option ℕ) : Prop :=
  ∃ i t, e.2 = some i ∧ (i, t) ∈ q.current ∧ t.key = e.1

theorem Consistent.ends_demote (h : Consistent q) {es : List ((Address × U256) × Option ℕ)}
    (hes : ∀ e ∈ es, q.Entry e) (hn : (es.map Prod.fst).Nodup) :
    PostE (demote es) q (fun _ q' => Consistent q' ∧ q.held.Perm q'.held ∧ Frame q q' ∧
      q'.current = q.current.filter fun e => e.2.key ∉ es.map Prod.fst) fun _ => False := by
  induction es generalizing q with
  | nil =>
    rw [demote, postE_pure]
    exact ⟨h, .refl _, .refl q, by simp⟩
  | cons e es ih =>
    obtain ⟨k, node⟩ := e
    obtain ⟨i, t, rfl, hm, rfl⟩ := hes _ mem_cons_self
    rw [map_cons, nodup_cons] at hn
    have hderef : ((some i).bind fun n => (q.deref n).map fun t => (n, t)) = some (i, t) := by
      rw [Option.bind_some, h.indexed.deref_iff.mpr hm]
      rfl
    have hfresh : (q.future.any fun u => u.key = t.key) = false := by
      rw [any_eq_false]
      intro u hu
      have hkeys := h.keys
      rw [held, map_append, nodup_append'] at hkeys
      simp only [decide_eq_true_eq]
      intro heq
      refine hkeys.2.2 (mem_map_of_mem (mem_map_of_mem hm)) ?_
      rw [← heq]
      exact mem_map_of_mem hu
    simp only [demote, postE_bind, postE_get, hderef, postE_set, hfresh, Bool.false_eq_true, if_false]
    obtain ⟨hc, hp⟩ := h.demoted hm
    have hnode {e : ℕ × VerifiedTransaction} (he : e ∈ q.current) : e.1 ≠ i ↔ e.2.key ≠ t.key := by
      rw [not_iff_not]
      constructor
      · rintro rfl
        rw [h.indexed.unique he hm]
      · exact h.indexed.node_of_key hm he
    have hes' : ∀ e ∈ es, (q.demoted i t).Entry e := by
      intro e he
      obtain ⟨j, u, hj, hu, hk⟩ := hes e (mem_cons_of_mem _ he)
      refine ⟨j, u, hj, mem_filter.mpr ⟨hu, ?_⟩, hk⟩
      rw [decide_eq_true_eq, hnode hu]
      intro heq
      apply hn.1
      show t.key ∈ _
      rw [← heq, hk]
      exact mem_map_of_mem he
    refine (ih hc hes' hn.2).mono ?_ fun _ hf => hf
    rintro _ q' ⟨h', hp', hframe, hcurrent⟩
    refine ⟨h', hp.trans hp', ⟨hframe.known, hframe.dropped, hframe.limit, hframe.futureLimit⟩, ?_⟩
    rw [hcurrent]
    show (q.current.filter (·.1 ≠ i)).filter _ = _
    rw [filter_filter]
    apply filter_congr
    intro e he
    simp only [map_cons, mem_cons, not_or, Bool.decide_and, decide_eq_decide.mpr (hnode he)]
    rw [Bool.and_comm]

def From (st : VerifiedTransaction) (t : VerifiedTransaction) : Prop :=
  t.safeSender = st.safeSender ∧ st.nonce ≤ t.nonce

instance (st t : VerifiedTransaction) : Decidable (From st t) := inferInstanceAs (Decidable (_ ∧ _))

theorem Consistent.ends_setFuture (h : Consistent q) (g : H256) :
    PostE (setFuture g) q (fun _ q' => Consistent q' ∧ q.held.Perm q'.held ∧ Frame q q' ∧
      ((∀ e ∈ q.current, e.2.sha3 ≠ g) ∧ q' = q ∨
        ∃ st ∈ q.current, st.2.sha3 = g ∧ q'.current = q.current.filter fun e => ¬ From st.2 e.2))
        fun _ => False := by
  cases hg : q.currentByHash g with
  | none =>
    simp only [setFuture, postE_bind, postE_get, hg, postE_pure]
    refine ⟨h, .refl _, .refl q, .inl ⟨fun e he heq => ?_, trivial⟩⟩
    rw [(h.indexed.byHash g e.1).mpr ⟨e.2, he, heq⟩] at hg
    cases hg
  | some i =>
    obtain ⟨st, hm, rfl⟩ := (h.indexed.byHash g i).mp hg
    have hderef := h.indexed.deref_iff.mpr hm
    simp only [setFuture, postE_bind, postE_get, hg, hderef]
    refine (h.ends_demote ?_ ?_).mono ?_ fun _ hf => hf
    · intro e he
      obtain ⟨s, hs, rfl⟩ := mem_map.mp he
      have hlookup := AList.mem_lookup_iff.mpr (mem_filter.mp hs).1
      obtain ⟨j, u, hv, hu, hk⟩ := (h.indexed.byNonce s.1 s.2).mp hlookup
      exact ⟨j, u, hv, hu, hk⟩
    · rw [map_map]
      have hkeys : (q.currentByAddressAndNonce.entries.map Sigma.fst).Nodup :=
        q.currentByAddressAndNonce.nodupKeys
      exact hkeys.sublist (filter_sublist.map Sigma.fst)
    · rintro _ q' ⟨h', hp, hframe, hcurrent⟩
      refine ⟨h', hp, hframe, .inr ⟨_, hm, rfl, ?_⟩⟩
      rw [hcurrent]
      apply filter_congr
      intro e he
      have hlookup := (h.indexed.byNonce e.2.key (some e.1)).mpr ⟨e.1, e.2, rfl, he, rfl⟩
      rw [map_map, decide_eq_decide, not_iff_not, mem_map]
      constructor
      · rintro ⟨s, hs, hkey⟩
        have hkey : s.1 = e.2.key := hkey
        have hfrom := (mem_filter.mp hs).2
        rw [hkey, decide_eq_true_eq] at hfrom
        exact hfrom
      · intro hfrom
        refine ⟨⟨e.2.key, some e.1⟩, mem_filter.mpr ⟨AList.mem_lookup_iff.mp hlookup, ?_⟩, rfl⟩
        exact decide_eq_true hfrom

end SetFuture

end TransactionQueue
end Vapory
