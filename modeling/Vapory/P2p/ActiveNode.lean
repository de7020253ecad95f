import Vapory.P2p.NodeTable

/-! What `noteActiveNode` of `NodeTable.cpp` leaves in the buckets. -/
namespace Vapory.P2p.NodeTable
open Function List

variable {I : Type} [DecidableEq I] {s : NodeTable I} {now : ℕ} {id : I} {allowed : Bool}
  {node : NodeEntry} {n : I × ℕ}

/-- The entries of a list that are live and not `n`. -/
def others (s : NodeTable I) (n : I × ℕ) (nodes : List (I × ℕ)) : List (I × ℕ) :=
  nodes.filter fun m => m ≠ n ∧ s.lock m

/-- The entries before `n` in its bucket. -/
def before (s : NodeTable I) (n : I × ℕ) : List (I × ℕ) := (s.bucket n.1).takeWhile fun m => m ≠ n

/-- The entries from `n` on. -/
def behind (s : NodeTable I) (n : I × ℕ) : List (I × ℕ) := (s.bucket n.1).dropWhile fun m => m ≠ n

/-- The bucket of `n` after it was noted. -/
def noted (s : NodeTable I) (n : I × ℕ) : List (I × ℕ) :=
  if bucketSize ≤ (s.before n).length then
    if (s.before n).head?.any s.lock then s.before n else (s.before n).tail ++ [n]
  else s.before n ++ [n]

/-- The node gets as far as the buckets: it is known and active, not our own, and its address is
allowed. -/
structure Notable (s : NodeTable I) (id : I) (allowed : Bool) (node : NodeEntry) : Prop where
  known : s.nodes id = some node
  active : node.pending = false
  ne_self : id ≠ s.self
  allowed : allowed = true

theorem buckets_evict (leastSeen new : I) : (s.evict now leastSeen new).buckets = s.buckets := by
  unfold evict
  split_ifs <;> rfl

theorem buckets_noteActiveNode (h : s.Notable id allowed node) :
    (s.noteActiveNode now id allowed).buckets =
      update s.buckets (s.distance id - 1) (s.noted (id, node.ref)) := by
  have hgoes : ¬ (id = s.self ∨ (!allowed) = true ∨ node.pending = true) := by
    rw [h.allowed, h.active]
    simpa using h.ne_self
  have hnodes : ((s.bucket id).takeWhile fun m => m ≠ (id, node.ref)) = s.before (id, node.ref) := rfl
  unfold noteActiveNode noted
  rw [h.known]
  dsimp only
  rw [if_neg hgoes, hnodes]
  cases s.before (id, node.ref) with
  | nil => rfl
  | cons front nodes =>
    rw [List.head?_cons, Option.any_some]
    dsimp only
    split_ifs
    · exact buckets_evict _ _
    · rfl
    · rfl

theorem noteActiveNode_of_not (h : ∀ node, ¬ s.Notable id allowed node) :
    s.noteActiveNode now id allowed = s := by
  unfold noteActiveNode
  cases hnode : s.nodes id with
  | none => rfl
  | some node =>
    refine if_pos ?_
    by_contra hgoes
    rw [not_or, not_or] at hgoes
    obtain ⟨hself, hallowed, hpending⟩ := hgoes
    exact h node ⟨hnode, Bool.eq_false_iff.mpr hpending, hself, by simpa using hallowed⟩

theorem others_append (nodes nodes' : List (I × ℕ)) :
    s.others n (nodes ++ nodes') = s.others n nodes ++ s.others n nodes' :=
  filter_append ..

theorem others_self : s.others n [n] = [] := by simp [others]

theorem others_noted : s.others n (s.noted n) = s.others n (s.before n) := by
  unfold noted
  cases hbefore : s.before n with
  | nil => exact others_self
  | cons front nodes =>
    rw [List.head?_cons, Option.any_some, tail_cons]
    split_ifs with _ hlive
    · rfl
    · rw [others_append, others_self, append_nil]
      exact (filter_cons_of_neg fun hkept => hlive (of_decide_eq_true hkept).2).symm
    · rw [others_append, others_self, append_nil]

theorem others_bucket :
    s.others n (s.bucket n.1) = s.others n (s.before n) ++ s.others n (s.behind n) := by
  rw [← others_append, before, behind, takeWhile_append_dropWhile]

theorem length_noted (h : (s.bucket n.1).length ≤ bucketSize) : (s.noted n).length ≤ bucketSize := by
  have hbefore : (s.before n).length ≤ bucketSize := ( takeWhile_prefix _).length_le.trans h
  unfold noted
  split_ifs with hfull hlive
  · exact hbefore
  · rw [length_append, length_tail, length_singleton]
    exact (Nat.sub_add_cancel ((Nat.succ_pos 15).trans_le hfull)).trans_le hbefore
  · rw [length_append, length_singleton]
    exact Nat.lt_of_not_le hfull

def Bounded (s : NodeTable I) : Prop := ∀ d, (s.buckets d).length ≤ bucketSize

omit [DecidableEq I] in
theorem Bounded.setBucket (h : s.Bounded) {nodes : List (I × ℕ)}
    (hnodes : nodes.length ≤ bucketSize) : (s.setBucket id nodes).Bounded := by
  intro d
  change (update s.buckets _ nodes d).length ≤ bucketSize
  by_cases hd : d = s.distance id - 1
  · rw [hd, update_self]
    exact hnodes
  · rw [update_of_ne hd]
    exact h d

theorem Bounded.noteActiveNode (h : s.Bounded) : (s.noteActiveNode now id allowed).Bounded := by
  by_cases hgoes : ∃ node, s.Notable id allowed node
  · obtain ⟨node, hnode⟩ := hgoes
    unfold Bounded
    rw [buckets_noteActiveNode hnode]
    exact h.setBucket (length_noted (h _))
  · rw [noteActiveNode_of_not (not_exists.mp hgoes)]
    exact h

theorem Bounded.dropNode (h : s.Bounded) (id : I) : (s.dropNode id).Bounded := by
  unfold NodeTable.dropNode
  split
  · exact h
  · exact h.setBucket ((length_filter_le _ _).trans (h _))

theorem Bounded.addNode (h : s.Bounded) (id : I) : (s.addNode id).Bounded := by
  unfold NodeTable.addNode
  split <;> exact h

omit [DecidableEq I] in
theorem Bounded.foldl {f : NodeTable I → I → NodeTable I}
    (hf : ∀ s id, s.Bounded → (f s id).Bounded) (h : s.Bounded) (ids : List I) :
    (ids.foldl f s).Bounded := by
  induction ids generalizing s with
  | nil => exact h
  | cons id ids ih => exact ih (hf s id h)

theorem Bounded.step (h : s.Bounded) (e : Event I) : (s.step now e).Bounded := by
  cases e with
  | pong sourceid asked allowed =>
    change (s.onPong now sourceid asked allowed).Bounded
    unfold onPong
    cases s.evictions.find? fun r => r.1 = sourceid ∧ now < r.2.evictedTimePoint with
    | some r =>
      have hpruned : NodeTable.Bounded { s with evictions := s.evictions.filter fun r => r.1 ≠ sourceid } := h
      exact Bounded.noteActiveNode (hpruned.dropNode r.2.newNodeID)
    | none =>
      cases s.nodes sourceid with
      | some _ => exact Bounded.noteActiveNode h
      | none =>
        dsimp only
        split_ifs
        · exact (h.addNode _).noteActiveNode
        · exact h
  | packet sourceid added allowed =>
    exact (Bounded.foldl (fun _ id hs => hs.addNode id) h added).noteActiveNode
  | addKnown id allowed => exact Bounded.noteActiveNode h
  | check =>
    change (if s.checks = 0 then s else s.checkEvictions now).Bounded
    split_ifs
    · exact h
    · exact Bounded.foldl (fun _ id hs => hs.dropNode id) h _
  | discover tried => exact h

theorem Bounded.run (h : s.Bounded) (trace : List (ℕ × Event I)) : (s.run trace).Bounded := by
  induction trace generalizing s with
  | nil => exact h
  | cons e trace ih => exact ih (h.step e.2)

/-- What `noteActiveNode` is to do with the entry `n`: it comes to the end of its bucket, unless
this stays as it is, and no other live entry goes. -/
structure Notes (s s' : NodeTable I) (n : I × ℕ) : Prop where
  kept : ∀ d, s.others n (s'.buckets d) = s.others n (s.buckets d)
  placed : (s'.buckets (s.distance n.1 - 1)).getLast? = some n ∨
    s'.buckets (s.distance n.1 - 1) = s.bucket n.1
  bounded : s'.Bounded

theorem others_eq_nil {nodes : List (I × ℕ)} :
    s.others n nodes = [] ↔ ∀ m ∈ nodes, s.lock m = true → m = n := by
  unfold others
  rw [filter_eq_nil_iff]
  refine forall₂_congr fun m _ => ?_
  rw [decide_eq_true_eq, not_and_or, not_not]
  tauto

theorem others_noteActiveNode (h : s.Notable id allowed node) :
    (∀ d, s.others (id, node.ref) ((s.noteActiveNode now id allowed).buckets d) = s.others
      (id, node.ref) (s.buckets d)) ↔ ∀ m ∈ s.behind (id, node.ref), s.lock m = true →
      m = (id, node.ref) := by
  have hbucket : s.others (id, node.ref) (s.buckets (s.distance id - 1)) = _ := others_bucket
  rw [buckets_noteActiveNode h, ← others_eq_nil]
  constructor
  · intro hkept
    have hown := hkept (s.distance id - 1)
    rw [update_self, others_noted, hbucket] at hown
    exact self_eq_append_right.mp hown
  · intro hnone d
    by_cases hd : d = s.distance id - 1
    · rw [hd, update_self, others_noted, hbucket, hnone, append_nil]
    · rw [update_of_ne hd]

theorem placed_noteActiveNode (hs : s.Bounded) (h : s.Notable id allowed node) :
    ((s.noteActiveNode now id allowed).buckets (s.distance id - 1)).getLast? = some (id, node.ref) ∨
      (s.noteActiveNode now id allowed).buckets (s.distance id - 1) = s.bucket id := by
  rw [buckets_noteActiveNode h, update_self]
  unfold noted
  split_ifs with hfull hlive
  · exact .inr (List.IsPrefix.eq_of_length_le ( takeWhile_prefix _) ((hs _).trans hfull))
  · exact .inl List.getLast?_concat
  · exact .inl List.getLast?_concat

/-- In every table that a run can lead to, noting an active node does what it is to do if and only
if no other live entry stands behind the node in its bucket. -/
theorem noteActiveNode_iff (hs : s.Bounded) (trace : List (ℕ × Event I))
    (h : (s.run trace).Notable id allowed node) :
    Notes (s.run trace) ((s.run trace).noteActiveNode now id allowed) (id, node.ref) ↔
      ∀ m ∈ (s.run trace).behind (id, node.ref), (s.run trace).lock m = true → m = (id, node.ref) := by
  have hbounded := hs.run trace
  constructor
  · intro hnotes
    exact (others_noteActiveNode h).mp hnotes.kept
  · intro hnone
    exact ⟨(others_noteActiveNode h).mpr hnone, placed_noteActiveNode hbounded h, hbounded.noteActiveNode⟩

theorem exampleTable_bounded : exampleTable.Bounded := by
  intro d
  change (if d = 0 then _ else _ : List (ℕ × ℕ)).length ≤ bucketSize
  split_ifs
  · decide
  · exact Nat.zero_le _

theorem noteActiveNode_iff_last :
    Notes exampleTable (exampleTable.noteActiveNode 0 15 true) (15, 15) := by
  have hnotable : (exampleTable.run []).Notable 15 true ⟨15, false⟩ := ⟨rfl, rfl, by decide, rfl⟩
  have hnone : ∀ m ∈ (exampleTable.run []).behind (15, 15), (exampleTable.run []).lock m = true →
    m = (15, 15) := by
    decide
  exact (noteActiveNode_iff exampleTable_bounded [] hnotable).mpr hnone

/-- A full bucket of live nodes loses all but the first, when this is noted. -/
theorem noteActiveNode_empties :
    exampleTable.bucket 0 = (List.range 16).map (fun id => (id, id)) ∧
      (∀ m ∈ exampleTable.bucket 0, exampleTable.lock m = true) ∧
      (exampleTable.noteActiveNode 0 0 true).bucket 0 = [(0, 0)] := by
  decide

end Vapory.P2p.NodeTable
