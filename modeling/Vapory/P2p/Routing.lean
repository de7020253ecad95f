import Mathlib.Data.List.Nodup
import Vapory.P2p.ActiveNode

/-! The routing table that `NodeTable.cpp` keeps, whatever it receives. -/
namespace Vapory.P2p.NodeTable
open Function List

variable {I : Type}

/-- The table as it is made. -/
def made (self : I) (distance : I → ℕ) (isOpen : Bool) : NodeTable I := 
  ⟨self, distance, isOpen, fun _ => none, fun _ => [], [], 0, 0, []⟩

/-- The entry may stand in the bucket `d` of the table of `me`: if it is live, its node is not
pending. -/
def Fits (s : NodeTable I) (me : I) (dist : I → ℕ) (d : ℕ) (n : I × ℕ) : Prop :=
  n.1 ≠ me ∧ dist n.1 - 1 = d ∧ n.2 < s.created ∧ ∀ e, s.nodes n.1 = some e → e.ref = n.2 →
    e.pending = false

structure Routed (s : NodeTable I) (me : I) (dist : I → ℕ) : Prop where
  self_eq : s.self = me
  distance_eq : s.distance = dist
  ref_lt : ∀ id e, s.nodes id = some e → e.ref < s.created
  nodup : ∀ d, (s.buckets d).Nodup
  fits : ∀ d, ∀ n ∈ s.buckets d, s.Fits me dist d n

variable {s : NodeTable I} {me id : I} {dist : I → ℕ} {now : ℕ} {allowed : Bool}
  {nodes : List (I × ℕ)}

theorem routed_made (isOpen : Bool) : (made me dist isOpen).Routed me dist := by
  refine ⟨rfl, rfl, fun id e he => ?_, fun _ => nodup_nil, fun d n hn => ?_⟩
  · cases he
  · cases hn

namespace Routed

theorem timers (h : s.Routed me dist) (evictions : List (I × EvictionTimeout I)) (checks : ℕ) :
    NodeTable.Routed { s with evictions, checks } me dist :=
  ⟨h.self_eq, h.distance_eq, h.ref_lt, h.nodup, h.fits⟩

theorem setBucket (h : s.Routed me dist) (hnodup : nodes.Nodup)
    (hfits : ∀ n ∈ nodes, s.Fits me dist (s.distance id - 1) n) :
    (s.setBucket id nodes).Routed me dist := by
  have hbucket (d : ℕ) : (s.setBucket id nodes).buckets d = if d = s.distance id - 1 then nodes
    else s.buckets d := update_apply ..
  refine ⟨h.self_eq, h.distance_eq, h.ref_lt, fun d => ?_, fun d => ?_⟩ <;> rw [hbucket] <;>
    split_ifs with hd
  · exact hnodup
  · exact h.nodup d
  · exact hd ▸ hfits
  · exact h.fits d

variable [DecidableEq I]

theorem dropNode (h : s.Routed me dist) (id : I) : (s.dropNode id).Routed me dist := by
  unfold NodeTable.dropNode
  split
  · exact h
  · exact h.setBucket ((h.nodup _).filter _) fun n hn => h.fits _ n (mem_filter.mp hn).1

theorem note (h : s.Routed me dist) {node : NodeEntry} (hknown : s.nodes id = some node)
    (hgoes : ¬ (id = s.self ∨ (!allowed) = true ∨ node.pending = true))
    (hnodes : nodes.Sublist ((s.bucket id).takeWhile fun n => n ≠ (id, node.ref))) :
    (s.setBucket id (nodes ++ [(id, node.ref)])).Routed me dist := by
  have hbefore : nodes.Sublist (s.bucket id) := hnodes.trans (takeWhile_sublist _)
  have hnew : (id, node.ref) ∉ nodes := by
    intro hmem
    have hne := mem_takeWhile_imp (hnodes.subset hmem)
    simp at hne
  have hnodup : (nodes ++ [(id, node.ref)]).Nodup :=
    ((h.nodup _).sublist hbefore).append (nodup_singleton _) (disjoint_singleton.mpr hnew)
  refine h.setBucket hnodup fun n hn => ?_
  rcases mem_append.mp hn with hn | hn
  · exact h.fits _ n (hbefore.subset hn)
  · rw [mem_singleton.mp hn]
    refine ⟨fun he => hgoes (.inl (he.trans h.self_eq.symm)), by rw [h.distance_eq],
      h.ref_lt id node hknown, fun e he _ => ?_⟩
    rw [Option.some.inj (he.symm.trans hknown)]
    exact Bool.eq_false_iff.mpr fun hp => hgoes (.inr (.inr hp))

theorem noteActiveNode (h : s.Routed me dist) : (s.noteActiveNode now id allowed).Routed me dist := by
  unfold NodeTable.noteActiveNode
  cases hknown : s.nodes id with
  | none => exact h
  | some node =>
    dsimp only
    split_ifs with hgoes hfull
    · exact h
    · cases ((s.bucket id).takeWhile fun n => n ≠ (id, node.ref)).head? with
      | none => exact h
      | some front =>
        dsimp only
        split_ifs
        · -- the node waits for the answer of the first one
          have hkept : (s.setBucket id ((s.bucket id).takeWhile fun n => n ≠ (id, node.ref))).Routed
            me dist :=
            h.setBucket ((h.nodup _).sublist (takeWhile_sublist _)) fun n hn =>
              h.fits _ n ((takeWhile_sublist _).subset hn)
          unfold evict
          split_ifs
          · exact hkept.timers _ _
          · exact hkept
        · exact h.note hknown hgoes (tail_sublist _)
    · exact h.note hknown hgoes (List.Sublist.refl _)

/-- The entry of a node is made anew. -/
theorem renew (h : s.Routed me dist) (id : I) (pending : Bool) :
    NodeTable.Routed { s with
      nodes := update s.nodes id (some ⟨s.created, pending⟩), created := s.created + 1 } me dist := by
  have hcases {id' : I} {e : NodeEntry} (he : update s.nodes id (some ⟨s.created, pending⟩) id' = some e) :
      e.ref = s.created ∨ s.nodes id' = some e := by
    rw [update_apply] at he
    split_ifs at he
    · exact .inl (Option.some.inj he ▸ rfl)
    · exact .inr he
  refine ⟨h.self_eq, h.distance_eq, fun id' e he => ?_, h.nodup, fun d n hn => ?_⟩
  · rcases hcases he with hnew | hold
    · exact hnew ▸ Nat.lt_succ_self _
    · exact (h.ref_lt id' e hold).trans (Nat.lt_succ_self _)
  · obtain ⟨hself, hd, hlt, hactive⟩ := h.fits d n hn
    refine ⟨hself, hd, hlt.trans (Nat.lt_succ_self _), fun e he href => ?_⟩
    rcases hcases he with hnew | hold
    · exact absurd (hnew.symm.trans href) hlt.ne'
    · exact hactive e hold href

theorem addNode (h : s.Routed me dist) (id : I) : (s.addNode id).Routed me dist := by
  unfold NodeTable.addNode
  split
  · exact h
  · exact h.renew id true

theorem activate (h : s.Routed me dist) (id : I) : (s.activate id).Routed me dist := by
  have hcases {id' : I} {e : NodeEntry} (he : (s.activate id).nodes id' = some e) :
      ∃ e', s.nodes id' = some e' ∧ e'.ref = e.ref ∧ (e'.pending = false → e.pending = false) := by
    change update _ _ _ id' = _ at he
    rw [update_apply] at he
    split_ifs at he with hid
    · obtain ⟨e', he', rfl⟩ := Option.map_eq_some_iff.mp he
      exact ⟨e', hid ▸ he', rfl, fun _ => rfl⟩
    · exact ⟨e, he, rfl, fun hp => hp⟩
  refine ⟨h.self_eq, h.distance_eq, fun id' e he => ?_, h.nodup, fun d n hn => ?_⟩
  · obtain ⟨e', he', href, -⟩ := hcases he
    exact href ▸ h.ref_lt id' e' he'
  · obtain ⟨hself, hd, hlt, hactive⟩ := h.fits d n hn
    refine ⟨hself, hd, hlt, fun e he href => ?_⟩
    obtain ⟨e', he', href', hpending⟩ := hcases he
    exact hpending (hactive e' he' (href'.trans href))

theorem step (h : s.Routed me dist) (e : Event I) : (s.step now e).Routed me dist := by
  cases e with
  | pong sourceid asked allowed =>
    change (s.onPong now sourceid asked allowed).Routed me dist
    unfold onPong
    cases s.evictions.find? fun r => r.1 = sourceid ∧ now < r.2.evictedTimePoint with
    | some r => exact (((h.timers _ _).dropNode _).activate _).noteActiveNode
    | none =>
      cases s.nodes sourceid with
      | some _ => exact (h.activate _).noteActiveNode
      | none =>
        dsimp only
        split_ifs
        · exact (h.addNode _).noteActiveNode
        · exact h
  | packet sourceid added allowed =>
    exact (List.foldlRecOn (motive := (NodeTable.Routed · me dist)) added _ h fun _ hs id _ =>
      hs.addNode id).noteActiveNode
  | addKnown id allowed => exact (h.renew id false).noteActiveNode
  | check =>
    change (if s.checks = 0 then s else s.checkEvictions now).Routed me dist
    split_ifs
    · exact h
    · exact (List.foldlRecOn (motive := (NodeTable.Routed · me dist)) _ _ h fun _ hs id _ =>
        hs.dropNode id).timers _ _
  | discover tried => exact ⟨h.self_eq, h.distance_eq, h.ref_lt, h.nodup, h.fits⟩

theorem run (h : s.Routed me dist) (trace : List (ℕ × Event I)) : (s.run trace).Routed me dist :=
  List.foldlRecOn (motive := (NodeTable.Routed · me dist)) trace _ h fun _ hs e _ => hs.step e.2

end Routed

/-- Whatever a table receives, and whenever: its buckets hold 16 entries at most, and an entry there
is not of the own node, stands in the bucket of its distance and is there once. If it is the one
that `m_nodes` has of its node, it is not pending, and no bucket has another one that `m_nodes` has
of this node. -/
theorem run_routes [DecidableEq I] (self : I) (distance : I → ℕ) (isOpen : Bool)
    (trace : List (ℕ × Event I)) :
    let t := (made self distance isOpen).run trace
    (∀ d, (t.buckets d).length ≤ bucketSize) ∧
    ∀ d, ∀ n ∈ t.buckets d,
      n.1 ≠ self ∧ d = distance n.1 - 1 ∧ (t.buckets d).count n = 1 ∧
        ∀ e, t.nodes n.1 = some e → e.ref = n.2 → e.pending = false ∧
          ∀ d', ∀ n' ∈ t.buckets d', n'.1 = n.1 → n'.2 = e.ref → d' = d ∧ n' = n := by
  intro t
  have hrouted : t.Routed self distance := (routed_made isOpen).run trace
  have hempty : (made self distance isOpen).Bounded := fun _ => Nat.zero_le _
  refine ⟨hempty.run trace, fun d n hn => ?_⟩
  obtain ⟨hself, hd, -, hactive⟩ := hrouted.fits d n hn
  refine ⟨hself, hd.symm, count_eq_one_of_mem (hrouted.nodup d) hn, fun e he href => ?_⟩
  refine ⟨hactive e he href, fun d' n' hn' hid href' => ?_⟩
  exact ⟨(hrouted.fits d' n' hn').2.1.symm.trans (hid ▸ hd), Prod.ext hid (href'.trans href)⟩

end Vapory.P2p.NodeTable
