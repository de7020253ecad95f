import Mathlib.Data.Int.Notation
import Mathlib.Data.List.Count
import Mathlib.Logic.Function.Iterate

/-! `halveAtomicInt` and `Session::drop` of `Session.cpp`, between the steps of which other threads
change the variables. -/
namespace Vapory.P2p
open List

/-- Where a call of `halveAtomicInt` is. -/
inductive HalvePc where
  | load
  | exchange (oldInt : ℤ)
  | returned
deriving DecidableEq

/-- An exchange that was made: the value that it found, the one that it left, and its result. -/
structure Exchange where
  found : ℤ
  left : ℤ
  succeeded : Bool
deriving DecidableEq

/-- A call of `halveAtomicInt` on the variable `i`, with the exchanges so far. -/
structure Halving where
  i : ℤ
  pc : HalvePc
  exchanges : List Exchange
deriving DecidableEq

namespace Halving

def call (i : ℤ) : Halving := ⟨i, .load, []⟩

/-- A step of `halveAtomicInt`: an exchange may fail although it finds the old value, and the loop
goes on while they succeed. -/
def turn (s : Halving) (spurious : Bool) : Halving :=
  match s.pc with
  | .load => { s with pc := .exchange s.i }
  | .exchange oldInt =>
    let newInt := oldInt.tdiv 2
    if s.i = oldInt ∧ !spurious then ⟨newInt, .load, s.exchanges ++ [⟨s.i, newInt, true⟩]⟩
    else { s with pc := .returned, exchanges := s.exchanges ++ [⟨s.i, s.i, false⟩] }
  | .returned => s

def other (s : Halving) (update : ℤ → ℤ) : Halving := { s with i := update s.i }

def outcomes (s : Halving) : List Bool := s.exchanges.map Exchange.succeeded

/-- Every exchange succeeded, but for the last one of a call that has returned. -/
structure Loops (s : Halving) : Prop where
  left_eq : ∀ e ∈ s.exchanges, e.left = if e.succeeded then e.found.tdiv 2 else e.found
  outcomes_eq : ∃ k, s.outcomes = List.replicate k true ++ if s.pc = .returned then [false] else []

variable {s : Halving}

theorem loops_call (i : ℤ) : (call i).Loops := ⟨fun _ h => absurd h not_mem_nil, 0, rfl⟩

theorem Loops.other (h : s.Loops) (update : ℤ → ℤ) : (s.other update).Loops :=
  ⟨h.left_eq, h.outcomes_eq⟩

theorem Loops.turn (h : s.Loops) (spurious : Bool) : (s.turn spurious).Loops := by
  obtain ⟨hleft, k, hk⟩ := h
  unfold Halving.turn
  cases hpc : s.pc with
  | load => exact ⟨hleft, k, by simpa [hpc, outcomes] using hk⟩
  | exchange oldInt =>
    rw [hpc, if_neg (by simp), append_nil] at hk
    dsimp only
    split_ifs with hfound
    · refine ⟨fun e he => ?_, k + 1, ?_⟩
      · rcases mem_append.mp he with he | he
        · exact hleft e he
        · rw [mem_singleton.mp he, hfound.1]
          rfl
      · rw [outcomes, map_append, replicate_succ', if_neg (by simp), append_nil, ← hk]
        rfl
    · refine ⟨fun e he => ?_, k, ?_⟩
      · rcases mem_append.mp he with he | he
        · exact hleft e he
        · rw [mem_singleton.mp he]
          rfl
      · rw [outcomes, map_append, if_pos rfl, ← hk]
        rfl
  | returned => exact ⟨hleft, k, by rw [hk, hpc]⟩

/-- The call has returned, and did so at its first exchange that succeeded, which left half of what
it found. -/
def StopsHalved (s : Halving) : Prop :=
  s.pc = .returned ∧ ∃ failed e, s.exchanges = failed ++ [e] ∧ (∀ f ∈ failed, f.succeeded = false) ∧
    e.succeeded = true ∧ e.left = e.found.tdiv 2

/-- The exchange at which a call returns is one that failed. -/
theorem Loops.not_stopsHalved (h : s.Loops) : ¬ s.StopsHalved := by
  rintro ⟨hreturned, failed, e, hexchanges, -, hsucceeded, -⟩
  obtain ⟨k, hk⟩ := h.outcomes_eq
  have hlast := congrArg List.getLast? hk
  rw [outcomes, hexchanges, map_append, if_pos hreturned] at hlast
  simp [hsucceeded] at hlast

/-- The call is before a load, or before an exchange that finds what was loaded. -/
def Undisturbed (s : Halving) : Prop := s.pc = .load ∨ s.pc = .exchange s.i

theorem Undisturbed.turn (h : s.Undisturbed) : (s.turn false).Undisturbed := by
  unfold Halving.turn
  rcases h with hpc | hpc
  · rw [hpc]
    exact .inr rfl
  · rw [hpc]
    dsimp only
    rw [if_pos ⟨rfl, rfl⟩]
    exact .inl rfl

theorem Undisturbed.ne_returned (h : s.Undisturbed) : s.pc ≠ .returned := by
  rcases h with hpc | hpc <;> simp [hpc]

end Halving

inductive DisconnectReason where
  | disconnectRequested
  | tcpError
  | badProtocol
  | uselessPeer
  | tooManyPeers
  | duplicatePeer
  | incompatibleProtocol
  | nullIdentity
  | clientQuit
  | unexpectedIdentity
  | localIdentity
  | pingTimeout
  | userReason
  | noDisconnect
deriving DecidableEq

/-- Where a call of `drop` is. -/
inductive DropPc where
  | enter
  | halveRating
  | halveScore
  | returned
deriving DecidableEq

/-- A call of `Session::drop`, without the socket. -/
structure Dropping where
  reason : DisconnectReason
  pc : DropPc
  /-- `m_dropped`. -/
  dropped : Bool
  /-- `m_lastDisconnect` of the peer. -/
  lastDisconnect : DisconnectReason
  /-- `m_rating` of the peer, with the call that halves it. -/
  rating : Halving
  /-- `m_score` of the peer, with the call that halves it. -/
  score : Halving
deriving DecidableEq

namespace Dropping

/-- What happens next: a step of the call, or another thread changes a variable. -/
inductive Event where
  | turn (spurious : Bool)
  | rating (update : ℤ → ℤ)
  | score (update : ℤ → ℤ)

def call (reason : DisconnectReason) (dropped : Bool) (lastDisconnect : DisconnectReason)
    (rating score : ℤ) : Dropping :=
  ⟨reason, .enter, dropped, lastDisconnect, .call rating, .call score⟩

def turn (d : Dropping) (spurious : Bool) : Dropping :=
  match d.pc with
  | .enter =>
    if d.dropped then { d with pc := .returned }
    else if d.reason = .badProtocol then { d with lastDisconnect := d.reason, pc := .halveRating }
    else { d with lastDisconnect := d.reason, dropped := true, pc := .returned }
  | .halveRating =>
    let rating := d.rating.turn spurious
    { d with rating, pc := if rating.pc = .returned then .halveScore else .halveRating }
  | .halveScore =>
    let score := d.score.turn spurious
    if score.pc = .returned then { d with score, dropped := true, pc := .returned } else { d with score }
  | .returned => d

def step (d : Dropping) : Event → Dropping
  | .turn spurious => d.turn spurious
  | .rating update => { d with rating := d.rating.other update }
  | .score update => { d with score := d.score.other update }

def run (d : Dropping) (schedule : List Event) : Dropping := schedule.foldl step d

/-- Both calls of `halveAtomicInt` loop as they do, whatever happens between their steps. -/
structure Halves (d : Dropping) : Prop where
  rating : d.rating.Loops
  score : d.score.Loops

variable {d : Dropping}

theorem Halves.turn (h : d.Halves) (spurious : Bool) : (d.turn spurious).Halves := by
  unfold Dropping.turn
  cases d.pc with
  | enter =>
    dsimp only
    split_ifs <;> exact ⟨h.rating, h.score⟩
  | halveRating => exact ⟨h.rating.turn spurious, h.score⟩
  | halveScore =>
    dsimp only
    split_ifs <;> exact ⟨h.rating, h.score.turn spurious⟩
  | returned => exact h

theorem Halves.step (h : d.Halves) (e : Event) : (d.step e).Halves := by
  cases e with
  | turn spurious => exact h.turn spurious
  | rating update => exact ⟨h.rating.other update, h.score⟩
  | score update => exact ⟨h.rating, h.score.other update⟩

theorem Halves.run (h : d.Halves) (schedule : List Event) : (d.run schedule).Halves := by
  induction schedule generalizing d with
  | nil => exact h
  | cons e schedule ih => exact ih (h.step e)

/-- A call that is on its way to the rating or halves it, undisturbed. -/
def Hangs (d : Dropping) : Prop :=
  d.rating.Undisturbed ∧ (d.pc = .halveRating ∨ d.pc = .enter ∧ d.dropped = false ∧
    d.reason = .badProtocol)

theorem Hangs.turn (h : d.Hangs) : (d.turn false).Hangs := by
  obtain ⟨hrating, hpc | ⟨hpc, hdropped, hreason⟩⟩ := h
  · unfold Dropping.turn
    rw [hpc]
    dsimp only
    rw [if_neg hrating.turn.ne_returned]
    exact ⟨hrating.turn, .inl rfl⟩
  · unfold Dropping.turn
    rw [hpc]
    dsimp only
    rw [if_neg (by simp [hdropped]), if_pos hreason]
    exact ⟨hrating, .inl rfl⟩

/-- Without other threads, and without exchanges that fail on their own, the call goes on for
ever. -/
theorem turns_ne_returned (lastDisconnect : DisconnectReason) (rating score : ℤ) (n : ℕ) :
    ((call .badProtocol false lastDisconnect rating score).run
      (List.replicate n (.turn false))).pc ≠ .returned := by
  have hturns : ∀ d : Dropping, d.Hangs → (d.run (List.replicate n (.turn false))).Hangs := by
    induction n with
    | zero => exact fun _ h => h
    | succ n ih =>
      intro d h
      rw [replicate_succ]
      exact ih (d.turn false) h.turn
  obtain ⟨-, hpc | ⟨hpc, -⟩⟩ :=
    hturns (call .badProtocol false lastDisconnect rating score) ⟨.inl rfl, .inr ⟨rfl, rfl, rfl⟩⟩
  · simp [hpc]
  · simp [hpc]

/-- Neither call of `halveAtomicInt` ever stops at an exchange that succeeds: the loops go on with
those, each of which leaves half of what it found, and end with the first one that fails.
Undisturbed they do not end. -/
theorem drop_never_stopsHalved (lastDisconnect : DisconnectReason) (rating score : ℤ)
    (schedule : List Event) :
    let d := (call .badProtocol false lastDisconnect rating score).run schedule
    (¬ d.rating.StopsHalved ∧ ¬ d.score.StopsHalved) ∧ d.rating.Loops ∧ d.score.Loops ∧
      ∀ n, schedule = List.replicate n (.turn false) → d.pc ≠ .returned := by
  intro d
  have h : d.Halves :=
    Halves.run ⟨Halving.loops_call rating, Halving.loops_call score⟩ schedule
  refine ⟨⟨h.rating.not_stopsHalved, h.score.not_stopsHalved⟩, h.rating, h.score, fun n hn => ?_⟩
  subst hn
  exact turns_ne_returned lastDisconnect rating score n

/-- Nobody else is there, and the fourth exchange of the rating and the second of the score fail on
their own: the rating 8 is halved three times. -/
theorem drop_halves_thrice :
    let undisturbed := List.replicate 8 (Event.turn false)
    let d := (call .badProtocol false .noDisconnect 8 8).run
      (undisturbed ++ [.turn true, .turn false, .turn false, .turn false, .turn true])
    d.pc = .returned ∧ d.rating.i = 1 ∧ d.rating.outcomes = [true, true, true, false] ∧
      d.score.i = 4 := by decide

end Dropping
end Vapory.P2p
