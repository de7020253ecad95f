import Mathlib.Data.List.Destutter

/-! `NodeTableEventHandler` of `NodeTable.h`, which keeps the events of nodes until the host asks
for them. -/
namespace Vapory.P2p
open List

section
variable {α : Type} [DecidableEq α] {a : α} {l : List α}

/-- `std::list::unique`: of equal neighbours the first stays. -/
def unique (l : List α) : List α := l.destutter (· ≠ ·)

theorem unique_cons_self (a : α) (l : List α) : unique (a :: a :: l) = unique (a :: l) :=
  destutter'_cons_neg l (not_not.mpr rfl)

theorem unique_cons_of_ne {b : α} (h : a ≠ b) (l : List α) :
    unique (a :: b :: l) = a :: unique (b :: l) :=
  destutter'_cons_pos l h

theorem mem_unique : a ∈ unique l ↔ a ∈ l := by
  refine ⟨fun h => (destutter_sublist _ l).mem h, fun h => ?_⟩
  induction l with
  | nil => exact h
  | cons b l ih =>
    cases l with
    | nil => exact h
    | cons c l =>
      by_cases hbc : b = c
      · subst hbc
        rw [unique_cons_self]
        exact ih (by simpa using h)
      · rw [unique_cons_of_ne hbc]
        rcases mem_cons.mp h with rfl | h
        · exact mem_cons_self
        · exact mem_cons_of_mem b (ih h)

theorem nodup_unique_iff : (unique l).Nodup ↔ ∀ n m, [n, m, n] <+ l → m = n := by
  induction l with
  | nil => simp [unique]
  | cons b l ih =>
    cases l with
    | nil => simp [unique, sublist_cons_iff]
    | cons c l =>
      by_cases hbc : b = c
      · subst hbc
        rw [unique_cons_self, ih]
        refine forall₂_congr fun n m => ⟨fun h hsub => ?_, fun h hsub => h (hsub.cons b)⟩
        rcases sublist_cons_iff.mp hsub with hsub | ⟨r, hr, hsub⟩
        · exact h hsub
        · obtain ⟨rfl, rfl⟩ := cons.inj hr
          rcases sublist_cons_iff.mp hsub with hsub | ⟨r, hr, -⟩
          · exact h (hsub.cons_cons n)
          · exact (cons.inj hr).1
      · rw [unique_cons_of_ne hbc, nodup_cons, mem_unique, ih]
        constructor
        · intro h n m hsub
          rcases sublist_cons_iff.mp hsub with hsub | ⟨r, hr, hsub⟩
          · exact h.2 n m hsub
          · obtain ⟨rfl, rfl⟩ := cons.inj hr
            exact absurd (hsub.mem (mem_cons_of_mem m mem_cons_self)) h.1
        · intro h
          refine ⟨fun hb => hbc ?_, fun n m hsub => h n m (hsub.cons b)⟩
          have hmem : b ∈ l := (mem_cons.mp hb).resolve_left hbc
          exact (h b c (((singleton_sublist.mpr hmem).cons_cons c).cons_cons b)).symm

end

inductive NodeTableEventType where
  | nodeEntryAdded
  | nodeEntryDropped
deriving DecidableEq

/-- `NodeTableEventHandler`, over any type of node ids. -/
structure NodeTableEventHandler (I : Type) where
  /-- `m_nodeEventHandler`. -/
  nodes : List I
  /-- `m_events`. -/
  events : I → Option NodeTableEventType

namespace NodeTableEventHandler
variable {I : Type} [DecidableEq I]

def fresh : NodeTableEventHandler I := ⟨[], fun _ => none⟩

def appendEvent (h : NodeTableEventHandler I) (n : I) (e : NodeTableEventType) :
    NodeTableEventHandler I :=
  ⟨h.nodes ++ [n], Function.update h.events n (some e)⟩

/-- `processEvents`: the calls of `processEvent`, and the handler after it. A node without an event
would get the first type, as `operator[]` of a map makes it. -/
def processEvents (h : NodeTableEventHandler I) :
    List (I × NodeTableEventType) × NodeTableEventHandler I :=
  if h.nodes.isEmpty then ([], h)
  else ((unique h.nodes).map fun n => (n, (h.events n).getD .nodeEntryAdded), fresh)

def appendEvents (h : NodeTableEventHandler I) (es : List (I × NodeTableEventType)) :
    NodeTableEventHandler I :=
  es.foldl (fun h e => h.appendEvent e.1 e.2) h

def rounds (h : NodeTableEventHandler I) (ess : List (List (I × NodeTableEventType))) :
    NodeTableEventHandler I :=
  ess.foldl (fun h es => (h.appendEvents es).processEvents.2) h

variable {es : List (I × NodeTableEventType)}

theorem appendEvents_nodes (es : List (I × NodeTableEventType)) :
    (fresh.appendEvents es).nodes = es.map Prod.fst := by
  induction es using reverseRecOn with
  | nil => rfl
  | append_singleton es e ih => rw [appendEvents, foldl_concat, map_append, ← ih]; rfl

theorem appendEvents_events (es : List (I × NodeTableEventType)) (n : I) :
    (fresh.appendEvents es).events n = ((es.filter (·.1 = n)).getLast?).map Prod.snd := by
  induction es using reverseRecOn with
  | nil => rfl
  | append_singleton es e ih =>
    rw [appendEvents, foldl_concat]
    change Function.update (fresh.appendEvents es).events e.1 (some e.2) n = _
    by_cases hn : e.1 = n
    · simp [hn]
    · simp [hn, ih, Function.update_of_ne (Ne.symm hn)]

theorem processEvents_fresh (es : List (I × NodeTableEventType)) :
    (fresh.appendEvents es).processEvents.2 = fresh := by
  unfold processEvents
  cases es with
  | nil => rfl
  | cons e es =>
    rw [appendEvents_nodes, if_neg (by simp)]

theorem rounds_fresh (ess : List (List (I × NodeTableEventType))) :
    fresh.rounds ess = (fresh : NodeTableEventHandler I) := by
  induction ess with
  | nil => rfl
  | cons es ess ih =>
    rw [rounds, foldl_cons, processEvents_fresh]
    exact ih

def lastOf (es : List (I × NodeTableEventType)) (n : I) : I × NodeTableEventType :=
  (n, (((es.filter (·.1 = n)).getLast?).map Prod.snd).getD .nodeEntryAdded)

theorem processEvents_calls (es : List (I × NodeTableEventType)) :
    (fresh.appendEvents es).processEvents.1 = (unique (es.map Prod.fst)).map (lastOf es) := by
  unfold processEvents
  cases es with
  | nil => rfl
  | cons e es =>
    rw [appendEvents_nodes, if_neg (by simp)]
    simp only [appendEvents_events]
    rfl

theorem getLast?_of_mem {n : I} (hn : n ∈ es.map Prod.fst) :
    (es.filter (·.1 = n)).getLast? = some (lastOf es n) := by
  cases hlast : (es.filter (·.1 = n)).getLast? with
  | none =>
    obtain ⟨e, he, rfl⟩ := mem_map.mp hn
    have hnone := filter_eq_nil_iff.mp (getLast?_eq_none_iff.mp hlast) e he
    simp at hnone
  | some e =>
    have he := mem_of_getLast? hlast
    rw [mem_filter, decide_eq_true_iff] at he
    rw [lastOf, hlast, ← he.2]
    rfl

theorem filter_calls (es : List (I × NodeTableEventType)) (n : I) :
    ((unique (es.map Prod.fst)).map (lastOf es)).filter (·.1 = n) =
    replicate ((unique (es.map Prod.fst)).count n) (lastOf es n) := by
  rw [filter_map, ← map_replicate, ← filter_eq]
  rfl

/-- After any earlier rounds, each call carries the last event of its node and no node is left out,
but each node is called once exactly when between two events of a node there is none of another. -/
theorem processEvents_once_iff (earlier : List (List (I × NodeTableEventType)))
    (es : List (I × NodeTableEventType)) :
    let calls := ((fresh.rounds earlier).appendEvents es).processEvents.1
    (∀ c ∈ calls, (es.filter (·.1 = c.1)).getLast? = some c) ∧ (∀ e ∈ es, ∃ c ∈ calls, c.1 = e.1) ∧
      ((∀ n, calls.filter (·.1 = n) = (es.filter (·.1 = n)).getLast?.toList) ↔
        ∀ n m, [n, m, n] <+ es.map Prod.fst → m = n) := by
  intro calls
  have hcalls : calls = (unique (es.map Prod.fst)).map (lastOf es) := by
    rw [← processEvents_calls, ← rounds_fresh earlier]
  rw [hcalls]
  refine ⟨?_, ?_, ?_⟩
  · intro c hc
    obtain ⟨n, hn, rfl⟩ := mem_map.mp hc
    exact getLast?_of_mem (mem_unique.mp hn)
  · intro e he
    exact ⟨lastOf es e.1, mem_map_of_mem (mem_unique.mpr (mem_map_of_mem he)), rfl⟩
  · rw [← nodup_unique_iff]
    constructor
    · intro honce
      rw [nodup_iff_count_le_one]
      intro n
      have hlength := congrArg length (honce n)
      rw [filter_calls, length_replicate] at hlength
      rw [hlength]
      cases (es.filter (·.1 = n)).getLast? <;> simp
    · intro hnodup n
      rw [filter_calls]
      by_cases hn : n ∈ es.map Prod.fst
      · rw [count_eq_one_of_mem hnodup (mem_unique.mpr hn), getLast?_of_mem hn]
        rfl
      · have hnone : es.filter (·.1 = n) = [] := by
          rw [filter_eq_nil_iff]
          intro e he heq
          rw [decide_eq_true_iff] at heq
          exact hn (heq ▸ mem_map_of_mem he)
        rw [count_eq_zero_of_not_mem fun hin => hn (mem_unique.mp hin), hnone]
        rfl

/-- A node that is added, another one, and then the first one dropped: the first is called twice. -/
theorem processEvents_twice :
    (fresh.appendEvents [(1, .nodeEntryAdded), (2, .nodeEntryAdded),
      (1, .nodeEntryDropped)]).processEvents.1 =
      [(1, .nodeEntryDropped), (2, .nodeEntryAdded), (1, .nodeEntryDropped)] := by decide

end NodeTableEventHandler
end Vapory.P2p
