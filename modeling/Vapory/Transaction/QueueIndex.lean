import Vapory.Transaction.TransactionQueue

/-! The multiset of current transactions and the two maps into it. -/
namespace Vapory
open List

section Assoc
variable {α β : Type} [DecidableEq α] {l : List (α × β)} {a : α} {b : β}

theorem find?_fst_iff (h : (l.map Prod.fst).Nodup) :
    (l.find? (·.1 = a)).map Prod.snd = some b ↔ (a, b) ∈ l := by
  induction l with
  | nil => simp
  | cons e l ih =>
    obtain ⟨c, d⟩ := e
    rw [map_cons, nodup_cons] at h
    by_cases hc : c = a
    · subst hc
      have hnot : (c, b) ∉ l := fun hm => h.1 (mem_map.mpr ⟨_, hm, rfl⟩)
      simp [hnot, eq_comm]
    · rw [List.find?_cons_of_neg (by simpa using hc), ih h.2, mem_cons, Prod.mk.injEq]
      simp [Ne.symm hc]

theorem perm_cons_filter_fst (h : (l.map Prod.fst).Nodup) (hm : (a, b) ∈ l) :
    l.Perm ((a, b) :: l.filter (·.1 ≠ a)) := by
  induction l with
  | nil => cases hm
  | cons e l ih =>
    rw [map_cons, nodup_cons] at h
    rcases mem_cons.mp hm with rfl | hm
    · have hself : l.filter (·.1 ≠ a) = l := by
        apply filter_eq_self.mpr
        intro x hx
        simp only [ne_eq, decide_not, Bool.not_eq_eq_eq_not, Bool.not_true, decide_eq_false_iff_not]
        rintro rfl
        exact h.1 (mem_map.mpr ⟨_, hx, rfl⟩)
      rw [filter_cons_of_neg (by simp), hself]
    · have hne : e.1 ≠ a := by
        rintro rfl
        exact h.1 (mem_map.mpr ⟨_, hm, rfl⟩)
      rw [filter_cons_of_pos (by simpa using hne)]
      exact ((ih h.2 hm).cons e).trans (List.Perm.swap _ _ _)

end Assoc

theorem perm_append_filter_notMem {α : Type} [DecidableEq α] {l c : List α} (hl : l.Nodup)
    (hc : c.Nodup) (hsub : c ⊆ l) : l.Perm (c ++ l.filter (· ∉ c)) := by
  have hdisj : (c ++ l.filter (· ∉ c)).Nodup := by
    rw [nodup_append']
    refine ⟨hc, hl.filter _, ?_⟩
    intro x hx hx'
    exact absurd hx (by simpa using (mem_filter.mp hx').2)
  apply (perm_ext_iff_of_nodup hl hdisj).mpr
  intro x
  rw [mem_append, mem_filter, decide_eq_true_eq]
  constructor
  · intro hx
    by_cases hxc : x ∈ c
    · exact .inl hxc
    · exact .inr ⟨hx, hxc⟩
  · rintro (hx | hx)
    · exact hsub hx
    · exact hx.1

namespace TransactionQueue
variable {q q' : TransactionQueue} {t u : VerifiedTransaction} {env : Containers} {i : ℕ}

def held (q : TransactionQueue) : List VerifiedTransaction := q.current.map Prod.snd ++ q.future

/-- The maps have the iterators to the current transactions, and no other entries. -/
structure Indexed (q : TransactionQueue) : Prop where
  nodes : (q.current.map Prod.fst).Nodup
  fresh : ∀ e ∈ q.current, e.1 < q.nextNode
  byHash : ∀ h i, q.currentByHash h = some i ↔ ∃ t, (i, t) ∈ q.current ∧ t.sha3 = h
  byNonce : ∀ k v, q.currentByAddressAndNonce.lookup k = some v ↔ ∃ i t, v = some i ∧
    (i, t) ∈ q.current ∧ t.key = k

namespace Indexed

theorem deref_iff (h : Indexed q) : q.deref i = some t ↔ (i, t) ∈ q.current := find?_fst_iff h.nodes

theorem unique (h : Indexed q) (ht : (i, t) ∈ q.current) (hu : (i, u) ∈ q.current) : t = u :=
  Option.some.inj ((h.deref_iff.mpr ht).symm.trans (h.deref_iff.mpr hu))

theorem node_of_sha3 (h : Indexed q) {j : ℕ} (ht : (i, t) ∈ q.current) (hu : (j, u) ∈ q.current)
    (hsame : u.sha3 = t.sha3) : j = i :=
  Option.some.inj (((h.byHash _ _).mpr ⟨u, hu, hsame⟩).symm.trans ((h.byHash _ _).mpr ⟨t, ht, rfl⟩))

theorem node_of_key (h : Indexed q) {j : ℕ} (ht : (i, t) ∈ q.current) (hu : (j, u) ∈ q.current)
    (hsame : u.key = t.key) : j = i :=
  Option.some.inj (Option.some.inj (((h.byNonce _ _).mpr ⟨j, u, rfl, hu, hsame⟩).symm.trans
    ((h.byNonce _ _).mpr ⟨i, t, rfl, ht, rfl⟩)))

end Indexed

theorem lookup_withKey {k : Address × U256} (hk : k ≠ t.key) :
    (q.withKey t).currentByAddressAndNonce.lookup k = q.currentByAddressAndNonce.lookup k := by
  simp only [withKey]
  split_ifs
  · rfl
  · exact AList.lookup_insert_ne hk

theorem Indexed.withNode (h : Indexed q) (hkey : ∀ e ∈ q.current, e.2.key ≠ t.key)
    (hhash : ∀ e ∈ q.current, e.2.sha3 ≠ t.sha3) (i : ℕ) : Indexed ((q.withKey t).withNode t i) := by
  have hmem (e : ℕ × VerifiedTransaction) :
      e ∈ ((q.withKey t).withNode t i).current ↔ e = (q.nextNode, t) ∨ e ∈ q.current := mem_insertAt
  have hnot (u : VerifiedTransaction) : (q.nextNode, u) ∉ q.current :=
    fun hm => lt_irrefl _ (h.fresh _ hm)
  constructor
  · have hperm : (((q.withKey t).withNode t i).current.map Prod.fst).Perm
      (q.nextNode :: q.current.map Prod.fst) :=
      (insertAt_perm q.current i (q.nextNode, t)).map Prod.fst
    rw [hperm.nodup_iff, nodup_cons]
    refine ⟨fun hm => ?_, h.nodes⟩
    obtain ⟨e, he, hn⟩ := mem_map.mp hm
    have := h.fresh e he
    omega
  · intro e he
    show e.1 < q.nextNode + 1
    rcases (hmem e).mp he with rfl | he
    · exact Nat.lt_succ_self _
    · exact (h.fresh e he).trans (Nat.lt_succ_self _)
  · intro g j
    simp only [hmem]
    show Function.update q.currentByHash t.sha3 (some q.nextNode) g = some j ↔ _
    rw [Function.update_apply]
    split_ifs with hg
    · subst hg
      constructor
      · rintro ⟨⟩
        exact ⟨t, .inl rfl, rfl⟩
      · rintro ⟨u, hu | hu, hsame⟩
        · cases hu
          rfl
        · exact absurd hsame (hhash _ hu)
    · rw [h.byHash]
      constructor
      · rintro ⟨u, hu, hsame⟩
        exact ⟨u, .inr hu, hsame⟩
      · rintro ⟨u, hu | hu, hsame⟩
        · cases hu
          exact absurd hsame.symm hg
        · exact ⟨u, hu, hsame⟩
  · intro k v
    simp only [hmem]
    show ((q.withKey t).currentByAddressAndNonce.insert t.key (some q.nextNode)).lookup k = some v ↔ _
    by_cases hk : k = t.key
    · subst hk
      rw [AList.lookup_insert]
      constructor
      · rintro ⟨⟩
        exact ⟨_, t, rfl, .inl rfl, rfl⟩
      · rintro ⟨j, u, rfl, hu | hu, hsame⟩
        · cases hu
          rfl
        · exact absurd hsame (hkey _ hu)
    · rw [AList.lookup_insert_ne hk, lookup_withKey hk, h.byNonce]
      constructor
      · rintro ⟨j, u, hv, hu, hsame⟩
        exact ⟨j, u, hv, .inr hu, hsame⟩
      · rintro ⟨j, u, hv, hu | hu, hsame⟩
        · cases hu
          exact absurd hsame.symm hk
        · exact ⟨j, u, hv, hu, hsame⟩

theorem Indexed.withoutNode (h : Indexed q) (hm : (i, t) ∈ q.current) :
    Indexed (q.withoutNode i t) := by
  have hmem (e : ℕ × VerifiedTransaction) : e ∈ (q.withoutNode i t).current ↔ e ∈ q.current ∧
    e.1 ≠ i := by
    simp [TransactionQueue.withoutNode]
  constructor
  · exact h.nodes.sublist (filter_sublist.map Prod.fst)
  · intro e he
    exact h.fresh e ((hmem e).mp he).1
  · intro g j
    simp only [hmem]
    show Function.update q.currentByHash t.sha3 none g = some j ↔ _
    rw [Function.update_apply]
    split_ifs with hg
    · subst hg
      apply iff_of_false (by simp)
      rintro ⟨u, ⟨hu, hne⟩, hsame⟩
      exact hne (h.node_of_sha3 hm hu hsame)
    · rw [h.byHash]
      constructor
      · rintro ⟨u, hu, hsame⟩
        refine ⟨u, ⟨hu, ?_⟩, hsame⟩
        rintro rfl
        rw [h.unique hu hm] at hsame
        exact hg hsame.symm
      · rintro ⟨u, ⟨hu, -⟩, hsame⟩
        exact ⟨u, hu, hsame⟩
  · intro k v
    simp only [hmem]
    show (q.currentByAddressAndNonce.erase t.key).lookup k = some v ↔ _
    by_cases hk : k = t.key
    · subst hk
      rw [AList.lookup_erase]
      apply iff_of_false (by simp)
      rintro ⟨j, u, -, ⟨hu, hne⟩, hsame⟩
      exact hne (h.node_of_key hm hu hsame)
    · rw [AList.lookup_erase_ne hk, h.byNonce]
      constructor
      · rintro ⟨j, u, hv, hu, hsame⟩
        refine ⟨j, u, hv, ⟨hu, ?_⟩, hsame⟩
        rintro rfl
        rw [h.unique hu hm] at hsame
        exact hk hsame.symm
      · rintro ⟨j, u, hv, ⟨hu, -⟩, hsame⟩
        exact ⟨j, u, hv, hu, hsame⟩

theorem held_withNode (q : TransactionQueue) (t : VerifiedTransaction) (i : ℕ) :
    ((q.withKey t).withNode t i).held.Perm (t :: q.held) :=
  ((insertAt_perm q.current i (q.nextNode, t)).map Prod.snd).append_right q.future

theorem Indexed.held_withoutNode (h : Indexed q) (hm : (i, t) ∈ q.current) :
    q.held.Perm (t :: (q.withoutNode i t).held) :=
  ((perm_cons_filter_fst h.nodes hm).map Prod.snd).append_right q.future

theorem priorityCompare_ne_none (ht : t.sender ≠ none) (hu : u.sender ≠ none) :
    q.priorityCompare t u ≠ none := by
  obtain ⟨a, ha⟩ := Option.ne_none_iff_exists'.mp ht
  obtain ⟨b, hb⟩ := Option.ne_none_iff_exists'.mp hu
  simp [priorityCompare, ha, hb]

theorem ends_emplace (ht : t.sender ≠ none) (hs : ∀ e ∈ q.current, e.2.sender ≠ none) :
    PostE (emplace env t) q (fun _ q' => ∃ i, q' = (q.withKey t).withNode t i ∧
      Placement.Fits (fun a b => (q.withKey t).priorityCompare a.2 b.2) q.current (q.nextNode, t) i)
      fun _ => False := by
  obtain ⟨i, hi, hfits⟩ :=
    env.placement.exists_fits (fun a b => (q.withKey t).priorityCompare a.2 b.2) q.current
    (q.nextNode, t) fun e he => priorityCompare_ne_none ht (hs e he)
  have hplace : env.placement.place (fun a b => (q.withKey t).priorityCompare a.2 b.2)
      (q.withKey t).current ((q.withKey t).nextNode, t) = some i := hi
  simp only [emplace, postE_bind, postE_modify, postE_get, hplace, postE_set]
  exact ⟨i, rfl, hfits⟩

/-- Everything is as it should be with these transactions. -/
structure Consistent (q : TransactionQueue) : Prop where
  indexed : Indexed q
  keys : (q.held.map VerifiedTransaction.key).Nodup
  hashes : (q.held.map VerifiedTransaction.sha3).Nodup
  senders : ∀ t ∈ q.held, t.sender ≠ none
  futureSize : q.futureSize = q.future.length % 2 ^ 32

structure Frame (q q' : TransactionQueue) : Prop where
  known : q'.known = q.known
  dropped : q'.dropped = q.dropped
  limit : q'.limit = q.limit
  futureLimit : q'.futureLimit = q.futureLimit

namespace Frame

theorem refl (q : TransactionQueue) : Frame q q := ⟨rfl, rfl, rfl, rfl⟩

theorem trans {q'' : TransactionQueue} (h : Frame q q') (h' : Frame q' q'') : Frame q q'' :=
  ⟨h'.known.trans h.known, h'.dropped.trans h.dropped, h'.limit.trans h.limit,
    h'.futureLimit.trans h.futureLimit⟩

end Frame

theorem futureSize_pred (n : ℕ) : ((n + 1) % 2 ^ 32 + 2 ^ 32 - 1) % 2 ^ 32 = n % 2 ^ 32 := by omega

theorem toNat_succ {n : U256} (h : n ≠ BitVec.allOnes 256) : (n + 1).toNat = n.toNat + 1 := by
  have hne : n.toNat ≠ 2 ^ 256 - 1 := by
    intro hn
    apply h
    apply BitVec.eq_of_toNat_eq
    rw [BitVec.toNat_allOnes, hn]
  have hlt := n.isLt
  rw [BitVec.toNat_add]
  show (n.toNat + 1) % 2 ^ 256 = _
  omega

section Chain
variable {future : List VerifiedTransaction} {a : Address}

theorem mem_chain {fuel : ℕ} {nonce : U256} (h : t ∈ chain future a fuel nonce) :
    t ∈ future ∧ t.safeSender = a ∧ nonce.toNat ≤ t.nonce.toNat := by
  induction fuel generalizing nonce with
  | zero => cases h
  | succ fuel ih =>
    rw [chain] at h
    cases hf : future.find? (·.key = (a, nonce)) with
    | none =>
      rw [hf] at h
      cases h
    | some u =>
      rw [hf] at h
      have hu : u.key = (a, nonce) := by simpa using List.find?_some hf
      rcases mem_cons.mp h with rfl | h
      · refine ⟨mem_of_find?_eq_some hf, congrArg Prod.fst hu, ?_⟩
        have hn : t.nonce = nonce := congrArg Prod.snd hu
        rw [hn]
      · split_ifs at h with hmax
        · cases h
        · obtain ⟨hm, hs, hle⟩ := ih h
          rw [toNat_succ hmax] at hle
          exact ⟨hm, hs, by omega⟩

theorem nodup_chain (future : List VerifiedTransaction) (a : Address) (fuel : ℕ) (nonce : U256) :
    (chain future a fuel nonce).Nodup := by
  induction fuel generalizing nonce with
  | zero => exact nodup_nil
  | succ fuel ih =>
    rw [chain]
    cases hf : future.find? (·.key = (a, nonce)) with
    | none => exact nodup_nil
    | some u =>
      have hu : u.nonce = nonce := congrArg Prod.snd (by simpa using List.find?_some hf : u.key = (a, nonce))
      simp only
      split_ifs with hmax
      · exact nodup_singleton u
      · rw [nodup_cons]
        refine ⟨fun hm => ?_, ih _⟩
        have hle := (mem_chain hm).2.2
        rw [hu, toNat_succ hmax] at hle
        omega

end Chain

/-- The loop that moves transactions to the current ones keeps what adding one of them keeps. -/
theorem promote_rule {I : List VerifiedTransaction → TransactionQueue → Prop}
    (step : ∀ t ts q, I (t :: ts) q → PostE (emplace env t) q
      (fun _ q' => I ts { q' with futureSize := (q'.futureSize + 2 ^ 32 - 1) % 2 ^ 32 }) fun _ => False)
    {ts : List VerifiedTransaction} (h : I ts q) :
      PostE (promote env ts) q (fun _ q' => I [] q') fun _ => False := by
  induction ts generalizing q with
  | nil => exact h
  | cons t ts ih =>
    simp only [promote, postE_bind, postE_modify]
    exact (step t ts q h).mono (fun _ q' hq' => ih hq') fun _ hf => hf

end TransactionQueue
end Vapory
