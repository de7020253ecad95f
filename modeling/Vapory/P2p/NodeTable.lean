import Mathlib.Data.List.TakeWhile
import Mathlib.Tactic.Common

/-! `NodeTable.cpp`: the buckets of nodes that were seen, and the eviction of a node that does not
answer. -/
namespace Vapory.P2p
open Function List

/-- `NodeEntry`, with the object that it is: an entry may be made anew for the same node. -/
structure NodeEntry where
  ref : ℕ
  pending : Bool
deriving DecidableEq

structure EvictionTimeout (I : Type) where
  newNodeID : I
  evictedTimePoint : ℕ
deriving DecidableEq

/-- `NodeTable`. Times are in milliseconds. -/
structure NodeTable (I : Type) where
  /-- The id of `m_node`. -/
  self : I
  /-- The distance of a node, from which it has its bucket. -/
  distance : I → ℕ
  /-- Whether the socket is open. -/
  isOpen : Bool
  nodes : I → Option NodeEntry
  /-- `m_state`, with weak pointers to entries. -/
  buckets : ℕ → List (I × ℕ)
  evictions : List (I × EvictionTimeout I)
  /-- How many times `doCheckEvictions` is scheduled. -/
  checks : ℕ
  /-- How many entries were made. -/
  created : ℕ
  /-- `_tried` of `doDiscover`, with pointers that keep entries alive which `m_nodes` has no more. -/
  tried : List (I × ℕ)

namespace NodeTable
variable {I : Type}

def bucketSize : ℕ := 16

def reqTimeout : ℕ := 300

def evictionCheckInterval : ℕ := 75

inductive Event (I : Type) where
  /-- A `Pong`. Whether a ping to its address was for the discovery of a key, and whether the address is allowed. -/
  | pong (sourceid : I) (asked allowed : Bool)
  /-- Another packet, and the nodes that it leads to. -/
  | packet (sourceid : I) (added : List I) (allowed : Bool)
  /-- `addNode` of a known node. -/
  | addKnown (id : I) (allowed : Bool)
  /-- A timer of `doCheckEvictions`. -/
  | check
  /-- A round of `doDiscover` or its end, and the live entries that it holds then. -/
  | discover (tried : List (I × ℕ))
deriving DecidableEq

section
variable [DecidableEq I] (s : NodeTable I)

/-- Whether `lock` of a weak pointer gives an entry: `m_nodes` has it, or a discovery. -/
def lock (n : I × ℕ) : Bool := (s.nodes n.1).any (fun e => e.ref = n.2) || s.tried.any (· = n)

/-- `bucket_UNSAFE`. A node at distance 0 has a hashed id that differs from ours in the last bit at
most; for it the source leaves the bounds of `m_state`. -/
def bucket (id : I) : List (I × ℕ) := s.buckets (s.distance id - 1)

def setBucket (id : I) (nodes : List (I × ℕ)) : NodeTable I :=
  { s with buckets := update s.buckets (s.distance id - 1) nodes }

/-- `emplace`, which does not replace anything. -/
def emplace (leastSeen : I) (e : EvictionTimeout I) : List (I × EvictionTimeout I) :=
  if s.evictions.any fun r => r.1 = leastSeen then s.evictions else s.evictions ++ [(leastSeen, e)]

def evict (now : ℕ) (leastSeen new : I) : NodeTable I :=
  if s.isOpen then
    let evictions := s.emplace leastSeen ⟨new, now⟩
    { s with evictions := evictions, checks := if evictions.length = 1 then s.checks + 1 else s.checks }
  else s

/-- `noteActiveNode`. The predicate of `remove_if` stays true once it was true, so that the node
goes with all that stand behind it. -/
def noteActiveNode (now : ℕ) (id : I) (allowed : Bool) : NodeTable I :=
  match s.nodes id with
  | none => s
  | some node =>
    if id = s.self ∨ !allowed ∨ node.pending then s
    else
      let nodes := (s.bucket id).takeWhile fun n => n ≠ (id, node.ref)
      if bucketSize ≤ nodes.length then
        match nodes.head? with
        | none => s
        | some front =>
          if s.lock front then (s.setBucket id nodes).evict now front.1 id
          else s.setBucket id (nodes.tail ++ [(id, node.ref)])
      else s.setBucket id (nodes ++ [(id, node.ref)])

/-- `dropNode`, if there is an entry of the node. -/
def dropNode (id : I) : NodeTable I :=
  match s.nodes id with
  | none => s
  | some node => s.setBucket id ((s.bucket id).filter fun n => n ≠ (id, node.ref))

def activate (id : I) : NodeTable I :=
  { s with nodes := update s.nodes id ((s.nodes id).map fun e => { e with pending := false }) }

/-- `addNode` of a node that is not known, which is pinged then. -/
def addNode (id : I) : NodeTable I :=
  match s.nodes id with
  | some _ => s
  | none => { s with nodes := update s.nodes id (some ⟨s.created, true⟩), created := s.created + 1 }

/-- `addNode` of a known node. -/
def addKnown (now : ℕ) (id : I) (allowed : Bool) : NodeTable I :=
  { s with
    nodes := update s.nodes id (some ⟨s.created, false⟩)
    created := s.created + 1 }.noteActiveNode now id allowed

/-- `onReceived` of a `Pong`. -/
def onPong (now : ℕ) (sourceid : I) (asked allowed : Bool) : NodeTable I :=
  match s.evictions.find? fun r => r.1 = sourceid ∧ now < r.2.evictedTimePoint with
  | some r =>
    let s := { s with evictions := s.evictions.filter fun r => r.1 ≠ sourceid }
    ((s.dropNode r.2.newNodeID).activate sourceid).noteActiveNode now sourceid allowed
  | none =>
    match s.nodes sourceid with
    | some _ => (s.activate sourceid).noteActiveNode now sourceid allowed
    | none => if asked then (s.addNode sourceid).noteActiveNode now sourceid allowed else s

/-- The handler of `doCheckEvictions`. -/
def checkEvictions (now : ℕ) : NodeTable I :=
  let expired := s.evictions.filter fun r => reqTimeout < now - r.2.evictedTimePoint
  let drop := (expired.map fun r => r.2.newNodeID).filter fun id => (s.nodes id).isSome
  let evictionsRemain := 0 < s.evictions.length - drop.length
  let s := drop.foldl dropNode s
  { s with checks := if evictionsRemain then s.checks else s.checks - 1 }

def step (now : ℕ) : Event I → NodeTable I
  | .pong sourceid asked allowed => s.onPong now sourceid asked allowed
  | .packet sourceid added allowed => (added.foldl addNode s).noteActiveNode now sourceid allowed
  | .addKnown id allowed => s.addKnown now id allowed
  | .check => if s.checks = 0 then s else s.checkEvictions now
  | .discover tried => { s with tried := tried.filter s.lock }

def run (trace : List (ℕ × Event I)) : NodeTable I := trace.foldl (fun s e => s.step e.1 e.2) s

end

/-- No record is removed, and the new ones are of this time. -/
structure Keeps (now : ℕ) (s s' : NodeTable I) : Prop where
  kept : ∀ r ∈ s.evictions, r ∈ s'.evictions
  new : ∀ r ∈ s'.evictions, r ∈ s.evictions ∨ r.2.evictedTimePoint = now

namespace Keeps
variable {now : ℕ} {s s₁ s₂ : NodeTable I}

theorem of_eq (h : s₁.evictions = s.evictions) : Keeps now s s₁ := by
  constructor
  · rw [h]
    exact fun _ hr => hr
  · rw [h]
    exact fun _ hr => .inl hr

theorem trans (h₁ : Keeps now s s₁) (h₂ : Keeps now s₁ s₂) : Keeps now s s₂ where
  kept r hr := h₂.kept r (h₁.kept r hr)
  new r hr := (h₂.new r hr).elim (h₁.new r) .inr

end Keeps

theorem evictions_foldl {f : NodeTable I → I → NodeTable I}
    (h : ∀ s id, (f s id).evictions = s.evictions) (ids : List I) (s : NodeTable I) :
    (ids.foldl f s).evictions = s.evictions := by
  induction ids generalizing s with
  | nil => rfl
  | cons id ids ih => rw [foldl_cons, ih, h]

section
variable [DecidableEq I] {s : NodeTable I} {now : ℕ} {id : I} {allowed : Bool}

theorem mem_emplace (leastSeen : I) (e : EvictionTimeout I) :
    ∃ r ∈ s.emplace leastSeen e, r.1 = leastSeen := by
  unfold emplace
  split_ifs with hany
  · obtain ⟨r, hr, hid⟩ := any_eq_true.mp hany
    exact ⟨r, hr, of_decide_eq_true hid⟩
  · exact ⟨_, mem_append_right _ (mem_singleton_self _), rfl⟩

theorem keeps_evict (leastSeen new : I) : Keeps now s (s.evict now leastSeen new) := by
  unfold evict
  split_ifs
  · unfold emplace
    split_ifs
    · exact .of_eq rfl
    · constructor
      · intro r hr
        exact mem_append_left _ hr
      · intro r hr
        rcases mem_append.mp hr with hr | hr
        · exact .inl hr
        · rw [mem_singleton.mp hr]
          exact .inr rfl
  · exact .of_eq rfl

theorem keeps_noteActiveNode : Keeps now s (s.noteActiveNode now id allowed) := by
  unfold noteActiveNode
  split
  · exact .of_eq rfl
  · dsimp only
    split_ifs
    · exact .of_eq rfl
    · split
      · exact .of_eq rfl
      · split_ifs
        · exact (Keeps.of_eq rfl : Keeps now s (s.setBucket id _)).trans (keeps_evict _ _)
        · exact .of_eq rfl
    · exact .of_eq rfl

theorem evictions_dropNode (s : NodeTable I) (id : I) : (s.dropNode id).evictions = s.evictions := by
  unfold dropNode
  split <;> rfl

theorem evictions_addNode (s : NodeTable I) (id : I) : (s.addNode id).evictions = s.evictions := by
  unfold addNode
  split <;> rfl

/-- A record is never of a later time, so that no `Pong` finds one. -/
theorem keeps_step (hpast : ∀ r ∈ s.evictions, r.2.evictedTimePoint ≤ now) (e : Event I) :
    Keeps now s (s.step now e) := by
  cases e with
  | pong sourceid asked allowed =>
    have hnone : (s.evictions.find? fun r => r.1 = sourceid ∧ now < r.2.evictedTimePoint) = none := by
      rw [List.find?_eq_none]
      intro r hr hfound
      exact absurd (of_decide_eq_true hfound).2 (Nat.not_lt.mpr (hpast r hr))
    simp only [step, onPong, hnone]
    split
    · exact (Keeps.of_eq rfl : Keeps now s (s.activate sourceid)).trans keeps_noteActiveNode
    · split_ifs
      · exact (Keeps.of_eq (evictions_addNode s sourceid)).trans keeps_noteActiveNode
      · exact .of_eq rfl
  | packet sourceid added allowed =>
    exact (Keeps.of_eq (evictions_foldl evictions_addNode added s)).trans keeps_noteActiveNode
  | addKnown id allowed =>
    exact (Keeps.of_eq rfl : Keeps now s { s with
      nodes := update s.nodes id (some ⟨s.created, false⟩), created :=
        s.created + 1 }).trans keeps_noteActiveNode
  | check =>
    simp only [step]
    split_ifs
    · exact .of_eq rfl
    · exact .of_eq (evictions_foldl evictions_dropNode _ s)
  | discover tried => exact .of_eq rfl

variable {trace : List (ℕ × Event I)}

/-- In every run whose times do not go back, no record is removed, and the new ones are of the times
of its events. -/
theorem keeps_run (hpast : ∀ r ∈ s.evictions, r.2.evictedTimePoint ≤ now)
    (hlater : ∀ e ∈ trace, now ≤ e.1) (htimes : trace.Pairwise fun e e' => e.1 ≤ e'.1) :
    (∀ r ∈ s.evictions, r ∈ (s.run trace).evictions) ∧
      ∀ r ∈ (s.run trace).evictions, r ∈ s.evictions ∨ ∃ e ∈ trace, r.2.evictedTimePoint = e.1 := by
  induction trace generalizing s now with
  | nil => exact ⟨fun r hr => hr, fun r hr => .inl hr⟩
  | cons e trace ih =>
    obtain ⟨hnext, htimes'⟩ := pairwise_cons.mp htimes
    have hnow := hlater e mem_cons_self
    have hkeeps := keeps_step (fun r hr => Nat.le_trans (hpast r hr) hnow) e.2
    have hpast' : ∀ r ∈ (s.step e.1 e.2).evictions, r.2.evictedTimePoint ≤ e.1 := by
      intro r hr
      rcases hkeeps.new r hr with hold | hnew
      · exact Nat.le_trans (hpast r hold) hnow
      · exact Nat.le_of_eq hnew
    obtain ⟨hkept, hnew⟩ := ih hpast' hnext htimes'
    refine ⟨fun r hr => hkept r (hkeeps.kept r hr), fun r hr => ?_⟩
    rcases hnew r hr with hold | ⟨e', he', htime⟩
    · rcases hkeeps.new r hold with hold | htime
      · exact .inl hold
      · exact .inr ⟨e, mem_cons_self, htime⟩
    · exact .inr ⟨e', mem_cons_of_mem _ he', htime⟩

theorem past_run (hstart : s.evictions = []) (hearlier : ∀ e ∈ trace, e.1 ≤ now)
    (htimes : trace.Pairwise fun e e' => e.1 ≤ e'.1) :
    ∀ r ∈ (s.run trace).evictions, r.2.evictedTimePoint ≤ now := by
  intro r hr
  have hpast : ∀ r ∈ s.evictions, r.2.evictedTimePoint ≤ 0 := by
    intro r hr
    rw [hstart] at hr
    cases hr
  rcases (keeps_run hpast (fun e _ => Nat.zero_le e.1) htimes).2 r hr with hold | ⟨e, he, htime⟩
  · rw [hstart] at hold
    cases hold
  · rw [htime]
    exact hearlier e he

end

section
variable [DecidableEq I] (s : NodeTable I) (leastSeen new : I) (time : ℕ)

def InBucket (id : I) : Prop := ∃ n ∈ s.bucket id, n.1 = id

def Pending : Prop := ∃ r ∈ s.evictions, r.1 = leastSeen

/-- The bucket of an active node is full, and `leastSeen` is the first in it. -/
structure Contests : Prop where
  active : ∃ node, s.nodes new = some node ∧ node.pending = false ∧ (new, node.ref) ∉ s.bucket new
  full : bucketSize ≤ (s.bucket new).length
  front : ∃ ref, (s.bucket new).head? = some (leastSeen, ref) ∧ s.lock (leastSeen, ref) = true
  ne_self : new ≠ s.self
  isOpen : s.isOpen = true

/-- The node answers the ping of `time` before the timeout. -/
def Answers (e : ℕ × Event I) : Prop :=
  (∃ asked allowed, e.2 = .pong leastSeen asked allowed) ∧ e.1 ≤ time + reqTimeout

/-- By then the timeout has been seen. -/
def deadline : ℕ := time + reqTimeout + evictionCheckInterval

/-- What `evict` promises of the events that come: if the node answers in time, it stays and the new
one is not there; if it does not, the new one is there in its place. The record is removed. -/
structure Contract (trace : List (ℕ × Event I)) : Prop where
  answered : ∀ before e after, trace = before ++ e :: after → Answers leastSeen time e →
    (s.run (before ++ [e])).InBucket leastSeen ∧ ¬ (s.run (before ++ [e])).InBucket new ∧
      ¬ (s.run (before ++ [e])).Pending leastSeen
  silent : ∀ before e after, trace = before ++ e :: after →
    (∀ e' ∈ before ++ [e], ¬ Answers leastSeen time e') → deadline time < e.1 →
    ¬ (s.run (before ++ [e])).InBucket leastSeen ∧ (s.run (before ++ [e])).InBucket new ∧
      ¬ (s.run (before ++ [e])).Pending leastSeen

end

section
variable [DecidableEq I] {s : NodeTable I} {leastSeen new : I} {time : ℕ}

theorem Contests.evictions_eq (h : Contests s leastSeen new) :
    (s.noteActiveNode time new true).evictions = s.emplace leastSeen ⟨new, time⟩ := by
  obtain ⟨node, hnode, hpending, habsent⟩ := h.active
  obtain ⟨ref, hfront, hlock⟩ := h.front
  have hall : ((s.bucket new).takeWhile fun n => n ≠ (new, node.ref)) = s.bucket new := by
    rw [takeWhile_eq_self_iff]
    intro n hn
    exact decide_eq_true fun he => habsent (he ▸ hn)
  have hcond : ¬ (new = s.self ∨ (!true) = true ∨ node.pending = true) := by
    rw [hpending]
    rintro (hself | hno | hno)
    · exact h.ne_self hself
    · cases hno
    · cases hno
  unfold noteActiveNode
  rw [hnode]
  simp only [hall]
  rw [if_neg hcond, if_pos h.full, hfront]
  simp only [hlock, if_true, evict]
  rw [if_pos (show (s.setBucket new (s.bucket new)).isOpen = true from h.isOpen)]
  rfl

theorem Contests.pending_run (h : Contests s leastSeen new)
    (hpast : ∀ r ∈ s.evictions, r.2.evictedTimePoint ≤ time) {trace : List (ℕ × Event I)}
    (hlater : ∀ e ∈ trace, time ≤ e.1) (htimes : trace.Pairwise fun e e' => e.1 ≤ e'.1) :
    ((s.noteActiveNode time new true).run trace).Pending leastSeen := by
  obtain ⟨r, hr, hid⟩ := mem_emplace (s := s) leastSeen ⟨new, time⟩
  rw [← h.evictions_eq] at hr
  have hpast' : ∀ r ∈ (s.noteActiveNode time new true).evictions, r.2.evictedTimePoint ≤ time := by
    intro r hr
    rcases keeps_noteActiveNode.new r hr with hold | hnew
    · exact hpast r hold
    · exact Nat.le_of_eq hnew
  exact ⟨r, (keeps_run hpast' hlater htimes).1 r hr, hid⟩

/-- In every run of a table, the contract of a contest is kept only as long as nothing is due: no
answer in time, and no event after the deadline. -/
theorem contract_iff {earlier later : List (ℕ × Event I)} (hstart : s.evictions = [])
    (hcontest : Contests (s.run earlier) leastSeen new)
    (hearlier : ∀ e ∈ earlier, e.1 ≤ time) (horder : earlier.Pairwise fun e e' => e.1 ≤ e'.1)
    (hlater : ∀ e ∈ later, time ≤ e.1) (htimes : later.Pairwise fun e e' => e.1 ≤ e'.1) :
    Contract ((s.run earlier).noteActiveNode time new true) leastSeen new time later ↔
      ∀ e ∈ later, ¬ Answers leastSeen time e ∧ e.1 ≤ deadline time := by
  have hpending : ∀ before e after, later = before ++ e :: after →
      (((s.run earlier).noteActiveNode time new true).run (before ++ [e])).Pending leastSeen := by
    intro before e after hsplit
    have hsub : (before ++ [e]).Sublist later := by
      rw [hsplit, append_cons before e after]
      exact sublist_append_left _ after
    exact hcontest.pending_run (past_run hstart hearlier horder)
      (fun e he => hlater e (hsub.subset he)) (htimes.sublist hsub)
  constructor
  · intro h
    have hsilent : ∀ e ∈ later, ¬ Answers leastSeen time e := by
      intro e he hanswer
      obtain ⟨before, after, hsplit⟩ := append_of_mem he
      exact (h.answered before e after hsplit hanswer).2.2 (hpending before e after hsplit)
    intro e he
    refine ⟨hsilent e he, ?_⟩
    by_contra hlate
    obtain ⟨before, after, hsplit⟩ := append_of_mem he
    have hquiet : ∀ e' ∈ before ++ [e], ¬ Answers leastSeen time e' := by
      intro e' he'
      refine hsilent e' ?_
      rw [hsplit]
      rcases mem_append.mp he' with he' | he'
      · exact mem_append_left _ he'
      · rw [mem_singleton.mp he']
        exact mem_append_right _ mem_cons_self
    exact (h.silent before e after hsplit hquiet (Nat.lt_of_not_le hlate)).2.2
      (hpending before e after hsplit)
  · intro h
    constructor
    · intro before e after hsplit hanswer
      exact absurd hanswer (h e (hsplit ▸ mem_append_right _ mem_cons_self)).1
    · intro before e after hsplit _ hlate
      exact absurd hlate (Nat.not_lt.mpr (h e (hsplit ▸ mem_append_right _ mem_cons_self)).2)

end

def exampleTable : NodeTable ℕ where
  self := 100
  distance := fun _ => 1
  isOpen := true
  nodes := fun id => if id ≤ 16 then some ⟨id, false⟩ else none
  buckets := fun d => if d = 0 then (List.range 16).map fun id => (id, id) else []
  evictions := []
  checks := 0
  created := 17
  tried := []

theorem exampleTable_contests : Contests exampleTable 0 16 where
  active := ⟨⟨16, false⟩, rfl, rfl, by decide⟩
  full := by decide
  front := ⟨0, rfl, rfl⟩
  ne_self := by decide
  isOpen := rfl

theorem contract_exampleTable :
    Contract (exampleTable.noteActiveNode 0 16 true) 0 16 0 [(75, .check), (150, .pong 1 true true)] ↔
      ∀ e ∈ [(75, Event.check), (150, .pong 1 true true)], ¬ Answers 0 0 e ∧ e.1 ≤ deadline 0 := by
  have hcontest : Contests (exampleTable.run []) 0 16 := exampleTable_contests
  refine contract_iff rfl hcontest ?_ ?_ ?_ ?_
  · intro e he
    cases he
  · exact List.Pairwise.nil
  · intro e _
    exact Nat.zero_le _
  · exact pairwise_pair.mpr (by decide)

/-- The node stays though it did not answer, and the record stays though it did. -/
theorem contract_broken :
    Contests exampleTable 0 16 ∧
      ¬ Contract (exampleTable.noteActiveNode 0 16 true) 0 16 0 [(400, .check)] ∧
      ¬ Contract (exampleTable.noteActiveNode 0 16 true) 0 16 0 [(100, .pong 0 true true)] := by
  refine ⟨exampleTable_contests, ?_, ?_⟩
  · intro h
    have hsilent : ∀ e' ∈ [] ++ [(400, Event.check)], ¬ Answers 0 0 e' := by
      intro e' he' hanswer
      have hlate : e'.1 = 400 := by rw [mem_singleton.mp he']
      exact absurd hanswer.2 (by rw [hlate]; decide)
    exact (h.silent [] (400, .check) [] rfl hsilent (by decide)).1 ⟨(0, 0), by decide, rfl⟩
  · intro h
    have hanswer : Answers 0 0 (100, Event.pong 0 true true) := ⟨⟨true, true, rfl⟩, by decide⟩
    exact (h.answered [] (100, .pong 0 true true) [] rfl hanswer).2.2 ⟨(0, ⟨16, 0⟩), by decide, rfl⟩

end NodeTable
end Vapory.P2p
