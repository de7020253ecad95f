import Mathlib.Data.List.Basic

/-! `Worker`: one worker thread, and calls of `startWorking`, `stopWorking` and `terminate`
from any other threads.

Every write of `m_state` and every read by a caller is made with `x_work` locked, so a
section under the lock is one step. The worker thread reads `m_state` without the lock too;
each such read is a step. A thread that waits on `m_state_notifier` may wake up at any time
and waits on unless its condition has come. -/
namespace Vapory
open Option

inductive WorkerState where
  | Starting | Started | Stopping | Stopped | Killing
deriving DecidableEq

namespace Worker

inductive Spot where
  /-- at `while (m_state != WorkerState::Killing)` -/
  | test
  /-- the test has passed, and the lock for writing `Started` is not taken yet -/
  | entering
  | startedWorking
  /-- at `while (m_state == WorkerState::Started)` -/
  | workLoop
  | doWork
  | doneWorking
  /-- before the section that leaves `Stopped` -/
  | leaving
  /-- waits until not `Stopped` -/
  | waiting
  | ended
deriving DecidableEq

/-- How many steps of its own the thread is from its end once the state is `Killing`. -/
def Spot.toGo : Spot → ℕ
  | ended => 0
  | test => 1
  | waiting => 2
  | leaving => 3
  | doneWorking => 4
  | workLoop => 5
  | startedWorking | doWork => 6
  | entering => 7

inductive Call where
  | idle
  /-- `startWorking` waits until not `Starting` -/
  | starting
  /-- `stopWorking` waits until `Stopped` -/
  | stopping
  /-- `terminate` is in `m_work->join()` -/
  | joining
  /-- before `m_work.reset()` -/
  | resetting
deriving DecidableEq

inductive Act (T : Type) where
  | startWorking (t : T)
  | stopWorking (t : T)
  | terminate (t : T)
  /-- the call of `t` goes on -/
  | proceed (t : T)
  /-- the worker thread goes on -/
  | thread
  /-- `startedWorking`, `doWork` or `doneWorking` throws -/
  | throws
deriving DecidableEq

def Act.own {T : Type} : Act T → Bool
  | thread | throws => true
  | _ => false

end Worker

/-- The members of `Worker`, with the threads that use it. There is a worker thread as long as
`m_work` is set. -/
structure Worker (T : Type) where
  state : WorkerState
  work : Option Worker.Spot
  calls : T → Worker.Call

namespace Worker
variable {T : Type}

def init (T : Type) : Worker T := ⟨.Starting, none, fun _ => .idle⟩

/-- The worker thread's next step from `spot`. -/
def advance (w : Worker T) : Spot → Option (Worker T)
  | .test => some { w with work := some (if w.state ≠ .Killing then .entering else .ended) }
  | .entering => some { w with state := .Started, work := some .startedWorking }
  | .startedWorking => some { w with work := some .workLoop }
  | .workLoop => some { w with work := some (if w.state = .Started then .doWork else .doneWorking) }
  | .doWork => some { w with work := some .workLoop }
  | .doneWorking => some { w with work := some .leaving }
  | .leaving =>
    let ex := w.state
    some { w with
      state := if ex = .Killing ∨ ex = .Starting then ex else .Stopped
      work := some .waiting }
  | .waiting => if w.state = .Stopped then none else some { w with work := some .test }
  | .ended => none

/-- The handler of exceptions is that of the three calls of the loop's body. -/
def thrown (w : Worker T) : Spot → Option (Worker T)
  | .startedWorking | .doWork | .doneWorking => some { w with work := some .leaving }
  | _ => none

section
variable [DecidableEq T]

/-- The call of `t` gets to `c`. -/
def put (w : Worker T) (t : T) (c : Call) : Worker T :=
  { w with calls := Function.update w.calls t c }

/-- `startWorking`, up to the wait. -/
def startWorking (w : Worker T) (t : T) : Worker T :=
  match w.work with
  | some _ =>
    { w with state := if w.state = .Stopped then .Starting else w.state : Worker T }.put t .starting
  | none => { w with state := .Starting, work := some .test }.put t .starting

/-- `stopWorking`, up to the wait. -/
def stopWorking (w : Worker T) (t : T) : Worker T :=
  match w.work with
  | some _ => if w.state = .Started then { w with state := .Stopping }.put t .stopping else w
  | none => w

/-- `terminate`, up to `join`. -/
def terminate (w : Worker T) (t : T) : Worker T :=
  match w.work with
  | some _ => if w.state = .Killing then w else { w with state := .Killing }.put t .joining
  | none => w

/-- A call goes on when its condition has come. There is nothing to join without a thread, and
to reset `m_work` while its thread runs ends the process. -/
def proceed (w : Worker T) (t : T) : Option (Worker T) :=
  match w.calls t with
  | .idle => none
  | .starting => if w.state = .Starting then none else some (w.put t .idle)
  | .stopping => if w.state = .Stopped then some (w.put t .idle) else none
  | .joining => if w.work = some .ended then some (w.put t .resetting) else none
  | .resetting =>
    if w.work = some .ended ∨ w.work = none then some ({ w with work := none }.put t .idle) else none

def step (w : Worker T) : Act T → Option (Worker T)
  | .startWorking t => if w.calls t = .idle then some (w.startWorking t) else none
  | .stopWorking t => if w.calls t = .idle then some (w.stopWorking t) else none
  | .terminate t => if w.calls t = .idle then some (w.terminate t) else none
  | .proceed t => w.proceed t
  | .thread => w.work.bind w.advance
  | .throws => w.work.bind w.thrown

def run (w : Worker T) (acts : List (Act T)) : Option (Worker T) := acts.foldlM step w

end

/-- What a step of a caller does to the worker. -/
inductive Called (w w' : Worker T) : Prop where
  | same (hs : w'.state = w.state) (hw : w'.work = w.work)
  | spawn (h : w.work = none) (hs : w'.state = .Starting) (hw : w'.work = some .test)
  | turn (hs : w.state = .Stopped ∧ w'.state = .Starting ∨ w.state = .Started ∧
      w'.state = .Stopping ∨ w'.state = .Killing) (hw : w'.work = w.work)
  | reset (h : w.work = some .ended ∨ w.work = none) (hs : w'.state = w.state) (hw : w'.work = none)

/-- The thread is at `spot` and will find `Killing` when it comes to the test. -/
structure Doomed (w : Worker T) (spot : Spot) : Prop where
  state : w.state = .Killing
  work : w.work = some spot
  ne : spot ≠ .entering

section
variable {w w' : Worker T} {spot : Spot}

theorem thrown_eq (h : w.thrown spot = some w') :
    w' = { w with work := some .leaving } ∧ Spot.toGo .leaving < spot.toGo := by
  cases spot with
  | startedWorking | doWork | doneWorking => exact ⟨(Option.some.inj h).symm, by decide⟩
  | _ => cases h

namespace Doomed

theorem called (h : Doomed w spot) (hlive : spot ≠ .ended) (hc : Called w w') : Doomed w' spot := by
  have hne : w.work ≠ some .ended := by
    rw [h.work]
    exact fun he => hlive (Option.some.inj he)
  cases hc with
  | same hs hw => exact ⟨hs.trans h.state, hw.trans h.work, h.ne⟩
  | spawn hw => exact absurd (hw.symm.trans h.work) (some_ne_none spot).symm
  | turn hs hw =>
    refine ⟨?_, hw.trans h.work, h.ne⟩
    rcases hs with ⟨hs, -⟩ | ⟨hs, -⟩ | hs
    · exact absurd (h.state.symm.trans hs) (by decide)
    · exact absurd (h.state.symm.trans hs) (by decide)
    · exact hs
  | reset hw =>
    rcases hw with hw | hw
    · exact absurd hw hne
    · exact absurd (hw.symm.trans h.work) (some_ne_none spot).symm

theorem advance (h : Doomed w spot) (ha : w.advance spot = some w') :
    ∃ spot', Doomed w' spot' ∧ spot'.toGo < spot.toGo := by
  have hk := h.state
  cases spot with
  | entering => exact absurd rfl h.ne
  | ended => cases ha
  | test =>
    cases ha
    exact ⟨.ended, ⟨hk, by simp [hk], by decide⟩, by decide⟩
  | workLoop =>
    cases ha
    exact ⟨.doneWorking, ⟨hk, by simp [hk], by decide⟩, by decide⟩
  | leaving =>
    cases ha
    exact ⟨.waiting, ⟨by simp [hk], rfl, by decide⟩, by decide⟩
  | waiting =>
    simp only [Worker.advance, hk] at ha
    cases ha
    exact ⟨.test, ⟨rfl, rfl, by decide⟩, by decide⟩
  | startedWorking | doWork =>
    cases ha
    exact ⟨.workLoop, ⟨hk, rfl, by decide⟩, by decide⟩
  | doneWorking =>
    cases ha
    exact ⟨.leaving, ⟨hk, rfl, by decide⟩, by decide⟩

end Doomed

end

section
variable [DecidableEq T]

section
variable (w : Worker T) (t : T)

theorem called_startWorking : Called w (w.startWorking t) := by
  unfold startWorking
  split
  · by_cases hs : w.state = .Stopped
    · exact .turn (.inl ⟨hs, if_pos hs⟩) rfl
    · exact .same (if_neg hs) rfl
  · rename_i hw
    exact .spawn hw rfl rfl

theorem called_stopWorking : Called w (w.stopWorking t) := by
  unfold stopWorking
  split
  · split_ifs with hs
    · exact .turn (.inr (.inl ⟨hs, rfl⟩)) rfl
    · exact .same rfl rfl
  · exact .same rfl rfl

theorem called_terminate : Called w (w.terminate t) := by
  unfold terminate
  split
  · split_ifs
    · exact .same rfl rfl
    · exact .turn (.inr (.inr rfl)) rfl
  · exact .same rfl rfl

variable {w t} {w' : Worker T}

theorem called_proceed (h : w.proceed t = some w') : Called w w' := by
  unfold proceed at h
  split at h
  · cases h
  · split_ifs at h
    cases h
    exact .same rfl rfl
  · split_ifs at h
    cases h
    exact .same rfl rfl
  · split_ifs at h
    cases h
    exact .same rfl rfl
  · split_ifs at h with hw
    cases h
    exact .reset hw rfl rfl

theorem step_cases {a : Act T} (h : w.step a = some w') :
    a.own = false ∧ Called w w' ∨
      a.own = true ∧ ∃ spot, w.work = some spot ∧ (w.advance spot = some w' ∨ w.thrown spot = some w') := by
  cases a with
  | startWorking t =>
    simp only [step] at h
    split_ifs at h
    cases h
    exact .inl ⟨rfl, called_startWorking w t⟩
  | stopWorking t =>
    simp only [step] at h
    split_ifs at h
    cases h
    exact .inl ⟨rfl, called_stopWorking w t⟩
  | terminate t =>
    simp only [step] at h
    split_ifs at h
    cases h
    exact .inl ⟨rfl, called_terminate w t⟩
  | proceed t => exact .inl ⟨rfl, called_proceed h⟩
  | thread =>
    obtain ⟨spot, hw, h⟩ := bind_eq_some_iff.mp h
    exact .inr ⟨rfl, spot, hw, .inl h⟩
  | throws =>
    obtain ⟨spot, hw, h⟩ := bind_eq_some_iff.mp h
    exact .inr ⟨rfl, spot, hw, .inr h⟩

theorem terminate_eq {spot : Spot} (hw : w.work = some spot) (h : w.step (.terminate t) = some w') :
    w'.state = .Killing ∧ w'.work = some spot := by
  simp only [step] at h
  split_ifs at h
  cases h
  simp only [terminate, hw]
  split_ifs with hk
  · exact ⟨hk, hw⟩
  · exact ⟨rfl, rfl⟩

end

/-- A run in which the worker thread does not end before the last step. -/
inductive Lasts : Worker T → List (Act T) → Worker T → Prop where
  | nil (w : Worker T) : Lasts w [] w
  | cons {w w₁ w₂ : Worker T} {a : Act T} {acts : List (Act T)} (hlive : w.work ≠ some .ended)
      (h : w.step a = some w₁) (hrest : Lasts w₁ acts w₂) : Lasts w (a :: acts) w₂

namespace Doomed
variable {w w' : Worker T} {spot : Spot} {a : Act T} {acts : List (Act T)}

theorem step (h : Doomed w spot) (hlive : spot ≠ .ended) (ha : w.step a = some w') :
    ∃ spot', Doomed w' spot' ∧ spot'.toGo + (if a.own then 1 else 0) ≤ spot.toGo := by
  obtain ⟨hno, hcall⟩ | ⟨hown, spot₁, hspot, hmove⟩ := step_cases ha
  · rw [hno]
    exact ⟨spot, h.called hlive hcall, Nat.le_refl _⟩
  · obtain rfl : spot₁ = spot := Option.some.inj (hspot.symm.trans h.work)
    rw [hown]
    rcases hmove with hmove | hmove
    · exact h.advance hmove
    · obtain ⟨rfl, hlt⟩ := thrown_eq hmove
      exact ⟨.leaving, ⟨h.state, rfl, by decide⟩, hlt⟩

theorem lasts (hl : Lasts w acts w') (h : Doomed w spot) :
    ∃ spot', Doomed w' spot' ∧ spot'.toGo + acts.countP Act.own ≤ spot.toGo := by
  induction hl generalizing spot with
  | nil => exact ⟨spot, h, Nat.le_refl _⟩
  | cons hlive ha _ ih =>
    have hne : spot ≠ .ended := by
      rintro rfl
      exact hlive h.work
    obtain ⟨spot₁, h₁, hle₁⟩ := h.step hne ha
    obtain ⟨spot₂, h₂, hle₂⟩ := ih h₁
    refine ⟨spot₂, h₂, ?_⟩
    rw [List.countP_cons]
    omega

end Doomed

/-- Where `terminate` finds the thread decides: `Killing` stays until the thread has ended, the
loop is not entered again and the thread ends with its next six steps, unless the thread has
tested the state and not yet written `Started`. -/
theorem stays_killing_iff {w w' : Worker T} {t : T} (hwork : w.work ≠ none)
    (hterm : w.step (.terminate t) = some w') :
    (∀ after w'', Lasts w' after w'' →
      w''.state = .Killing ∧ w''.work ≠ some .entering ∧ after.countP Act.own ≤ 6) ↔
      w.work ≠ some .entering := by
  obtain ⟨spot, hspot⟩ := ne_none_iff_exists'.mp hwork
  obtain ⟨hs', hw'⟩ := terminate_eq hspot hterm
  rw [hspot]
  constructor
  · intro h hent
    obtain rfl := Option.some.inj hent
    -- the thread writes `Started`
    have hlast : Lasts w' [.thread] { w' with state := .Started, work := some .startedWorking } := by
      refine .cons (by rw [hw']; decide) ?_ (.nil _)
      rewrite [step, hw']
      rfl
    cases (h _ _ hlast).1
  · intro hne after w'' hl
    have hdoom : Doomed w' spot := ⟨hs', hw', fun he => hne (he ▸ rfl)⟩
    obtain ⟨spot'', h'', hle⟩ := hdoom.lasts hl
    refine ⟨h''.state, ?_, ?_⟩
    · rw [h''.work]
      exact fun he => h''.ne (Option.some.inj he)
    · have hgo : spot.toGo ≤ 6 := by
        cases spot
        case entering => exact absurd rfl hne
        all_goals decide
      omega

end

/-- Where the thread can be while the state is not `Killing`. -/
def spots : WorkerState → List (Option Spot)
  | .Starting => [none, some .test, some .entering, some .waiting]
  | .Started | .Stopping =>
    [some .startedWorking, some .workLoop, some .doWork, some .doneWorking, some .leaving]
  | .Stopped => [some .waiting]
  | .Killing => []

/-- The state tells where the thread is. -/
def Placed (w : Worker T) : Prop := w.state = .Killing ∨ w.work ∈ spots w.state

def Parked (w : Worker T) : Prop := w.state = .Stopped ∧ w.work = some .waiting

section
variable {w w' : Worker T} {spot : Spot}

theorem Placed.called (h : w.Placed) (hc : Called w w') : w'.Placed := by
  cases hc with
  | same hs hw =>
    rw [Placed, hs, hw]
    exact h
  | spawn _ hs hw =>
    rw [Placed, hs, hw]
    decide
  | turn hs hw =>
    rw [Placed, hw]
    rcases hs with ⟨hs, hs'⟩ | ⟨hs, hs'⟩ | hs'
    · rw [Placed, hs] at h
      rw [hs', List.mem_singleton.mp (h.resolve_left (by decide))]
      decide
    · rw [Placed, hs] at h
      rw [hs']
      exact .inr (h.resolve_left (by decide))
    · exact .inl hs'
  | reset hw hs hw' =>
    rw [Placed, hs, hw']
    refine h.imp_right fun h => ?_
    generalize w.state = s at h
    rcases hw with hw | hw <;> rw [hw] at h <;> revert h <;> cases s <;> decide

theorem Placed.moved (h : w.Placed) (hw : w.work = some spot)
    (hmove : w.advance spot = some w' ∨ w.thrown spot = some w') : w'.Placed := by
  obtain ⟨s, work, calls⟩ := w
  obtain rfl : work = some spot := hw
  dsimp only [Placed] at h
  -- most places do not go with the state
  cases spot <;> cases s <;> first
    | exact absurd h (by decide)
    | rcases hmove with hmove | hmove <;> cases hmove <;> simp [Placed, spots]

variable [DecidableEq T] {acts : List (Act T)}

theorem Placed.step {a : Act T} (h : w.Placed) (ha : w.step a = some w') : w'.Placed := by
  obtain ⟨-, hcall⟩ | ⟨-, spot, hw, hmove⟩ := step_cases ha
  · exact h.called hcall
  · exact h.moved hw hmove

theorem Parked.step {a : Act T} (h : w.Parked)
    (hquiet : ∀ t, a ≠ .startWorking t ∧ a ≠ .terminate t) (ha : w.step a = some w') :
    w'.Parked := by
  obtain ⟨hs, hw⟩ := h
  cases a with
  | startWorking t => exact absurd rfl (hquiet t).1
  | terminate t => exact absurd rfl (hquiet t).2
  | stopWorking t =>
    simp only [Worker.step, Worker.stopWorking, hw, hs, reduceCtorEq, if_false] at ha
    split_ifs at ha
    cases ha
    exact ⟨hs, hw⟩
  | proceed t =>
    simp only [Worker.step, proceed, hs, hw] at ha
    split at ha <;> simp at ha <;> rw [← ha] <;> exact ⟨hs, hw⟩
  | thread => simp [Worker.step, hw, advance, hs] at ha
  | throws => simp [Worker.step, hw, thrown] at ha

theorem run_keeps {P : Worker T → Prop} {Q : Act T → Prop}
    (hstep : ∀ w a w', P w → Q a → w.step a = some w' → P w') (h : P w)
    (hok : ∀ a ∈ acts, Q a) (hrun : w.run acts = some w') : P w' := by
  induction acts generalizing w with
  | nil =>
    cases hrun
    exact h
  | cons a acts ih =>
    rw [run, List.foldlM_cons] at hrun
    obtain ⟨w₁, ha, hrest⟩ := bind_eq_some_iff.mp hrun
    obtain ⟨hfirst, hothers⟩ := List.forall_mem_cons.mp hok
    exact ih (hstep w a w₁ h hfirst ha) hothers hrest

/-- When `stopWorking` returns from its wait, in any interleaving, the thread waits too, and so it
does until there is a call of `startWorking` or `terminate`. -/
theorem stopWorking_parks {w'' : Worker T} {t : T} {after : List (Act T)}
    (hrun : (init T).run acts = some w) (hcall : w.calls t = .stopping)
    (hreturn : w.step (.proceed t) = some w') (hafter : w'.run after = some w'')
    (hquiet : ∀ a ∈ after, ∀ t, a ≠ .startWorking t ∧ a ≠ .terminate t) :
    w''.state = .Stopped ∧ w''.work = some .waiting := by
  have hinit : (init T).Placed := .inr (by simp [init, spots])
  have hplaced :=
    run_keeps (Q := fun _ => True) (fun _ _ _ h _ => h.step) hinit (fun _ _ => trivial) hrun
  simp only [step, proceed, hcall] at hreturn
  split_ifs at hreturn with hs
  have hparked : w'.Parked := by
    rw [Placed, hs] at hplaced
    rw [← Option.some.inj hreturn]
    exact ⟨hs, List.mem_singleton.mp (hplaced.resolve_left (by decide))⟩
  exact run_keeps (fun _ _ _ h => h.step) hparked hquiet hafter

end

/-- `startedWorking` throws after the call. -/
theorem stopWorking_parks_thrown : ∃ w w' w'' : Worker Bool,
    (init Bool).run [.startWorking false, .thread, .thread, .stopWorking true, .throws, .thread] =
    some w ∧
      w.step (.proceed true) = some w' ∧ w'.run [.stopWorking true] = some w'' ∧
      w''.state = .Stopped ∧ w''.work = some .waiting :=
  ⟨_, _, _, rfl, rfl, rfl, @stopWorking_parks _ _ _ _
    [.startWorking false, .thread, .thread, .stopWorking true, .throws, .thread] _
    true [.stopWorking true] rfl rfl rfl rfl (by decide)⟩

def exampleWorking : Worker Bool := ⟨.Started, some .doWork, fun _ => .idle⟩

theorem stays_killing_working : ∃ w', exampleWorking.step (.terminate true) = some w' ∧
    ((∀ after w'', Lasts w' after w'' →
      w''.state = .Killing ∧ w''.work ≠ some .entering ∧ after.countP Act.own ≤ 6) ↔
        exampleWorking.work ≠ some .entering) :=
  ⟨_, rfl, stays_killing_iff (by decide) rfl⟩

/-- The thread that `startWorking` makes tests the state, `terminate` sets `Killing`, the thread
writes `Started`; it is in its loop again while `terminate` waits for its end. -/
theorem terminate_restarted :
    ((init Bool).run [.startWorking false, .thread, .terminate true]).map
    (fun w => (w.state, w.work)) =
        some (.Killing, some .entering) ∧
      ((init Bool).run [.startWorking false, .thread, .terminate true, .thread, .thread, .thread]).map
          (fun w => (w.state, w.work, w.calls true)) = some (.Started, some .doWork, .joining) := by
  decide

end Worker

end Vapory
