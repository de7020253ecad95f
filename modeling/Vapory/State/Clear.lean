import Vapory.State.Rollback

/-! Storage that is cleared after a savepoint. The entry in the log has the root only, so that
a rollback forgets what was written over it, except at the keys that have entries of their own. -/
namespace Vapory
open Function Option

theorem StateDB.storage_view {H : Hasher} {db : StateDB} {addr : Address} {w : AccountView}
    (h : db.view H addr = some w) : w.storage = db.storage w.storageRoot := by
  obtain ⟨a, -, rfl⟩ := map_eq_some_iff.mp h
  rfl

def View.forget (db : StateDB) (lost : Address → U256 → Bool) (v : View) : View := fun addr =>
  (v addr).map fun w => { w with
    storage := fun k => if lost addr k then db.storage w.storageRoot k else w.storage k }

def Change.written (es : List Change) (addr : Address) (key : U256) : Bool :=
  es.any fun
    | .storage a k _ => a = addr ∧ k = key
    | _ => false

theorem Change.written_cons (c : Change) (es : List Change) (addr : Address) (key : U256) :
    written (c :: es) addr key = (written [c] addr key || written es addr key) := by
  simp [written]

theorem Change.written_other {c : Change} {addr : Address} (h : addr ≠ c.address) (key : U256) :
    written [c] addr key = false := by
  cases c with
  | storage a k value =>
    have hne : a ≠ addr := fun heq => h heq.symm
    simp [written, hne]
  | _ => rfl

namespace View
variable {H : Hasher} {db : StateDB} {lost : Address → U256 → Bool} {v : View} {addr : Address}

theorem forget_committed (h : ∀ w, v addr = some w → ∀ k, lost addr k →
    w.storage k = db.storage w.storageRoot k) : v.forget db lost addr = v addr := by
  unfold forget
  cases hv : v addr with
  | none => rfl
  | some w =>
    refine congrArg some (AccountView.ext rfl rfl rfl rfl rfl rfl (funext fun k => ?_))
    by_cases hk : lost addr k
    · simp [hk, h w hv k hk]
    · simp [hk]

theorem forget_stored (h : v addr = db.view H addr) : v.forget db lost addr = v addr := by
  refine forget_committed fun w hw k _ => ?_
  rw [StateDB.storage_view (h.symm.trans hw)]

/-- Undoing a write brings the key back; undoing anything else forgets as much. -/
theorem undoView_forget (c : Change) :
    c.undoView H db (v.forget db lost) =
      (c.undoView H db v).forget db fun addr k => lost addr k && !Change.written [c] addr k := by
  funext addr
  by_cases haddr : addr = c.address
  · subst haddr
    simp only [Change.undoView, forget, update_self]
    cases v c.address with
    | none => rfl
    | some w =>
      cases c with
      | storage addr key value =>
        refine congrArg some (AccountView.ext rfl rfl rfl rfl rfl rfl (funext fun k => ?_))
        by_cases hk : k = key
        · simp [Change.written, Change.address, hk]
        · simp [Change.written, update_of_ne hk, Ne.symm hk]
      | storageRoot addr value => simp [Change.undoAccount]
      | create addr => rfl
      | _ => simp [Change.undoAccount, Change.written]
  · have hsame : c.undoView H db v addr = v addr := update_of_ne haddr ..
    rw [Change.undoView, update_of_ne haddr, forget, forget, hsame]
    simp [Change.written_other haddr]

end View

/-- What is forgotten before the changes are undone, and has no entry, stays forgotten. -/
theorem Reverts.forget {H : Hasher} {db : StateDB} {dirty : Address → Prop} {v₀ v : View}
    {es : List Change} (h : Reverts H db dirty v₀ es v) (lost : Address → U256 → Bool) :
    Reverts H db dirty (v₀.forget db fun addr k => lost addr k && !Change.written es addr k) es
    (v.forget db lost) := by
  induction h generalizing lost with
  | nil => simpa [Change.written] using Reverts.nil
  | @cons c older v hc h ih =>
    refine .cons ?_ ?_
    · cases c with
      | create addr => exact hc
      | touch addr => exact ⟨(View.forget_stored hc.1).trans hc.1, hc.2⟩
      | _ => exact trivial
    · rw [View.undoView_forget]
      simpa only [Change.written_cons c older, Bool.not_or, Bool.and_assoc] using
        ih fun addr k => lost addr k && !Change.written [c] addr k

namespace State
variable {H : Hasher} {s s₀ s' : State} {addr : Address} {lost : Address → U256 → Bool}

def forget (lost : Address → U256 → Bool) (s : State) : State :=
  { s with
    cache := fun addr => (s.cache addr).map fun a =>
      { a with storageOverlay := fun k => if lost addr k then none else a.storageOverlay k } }

theorem view_forget : (s.forget lost).view H = (s.view H).forget s.db lost := by
  funext addr
  cases hc : s.cache addr with
  | none =>
    have hview := view_of_cache_none (H := H) hc
    rw [View.forget_stored hview, hview]
    exact view_of_cache_none (by simp only [forget, hc, map_none])
  | some a =>
    rw [View.forget, view_of_cache hc]
    simp only [view, forget, hc, map_some]
    refine congrArg some (AccountView.ext rfl rfl rfl rfl rfl rfl (funext fun k => ?_))
    by_cases hk : lost addr k
    · simp [Account.view, hk]
    · simp [Account.view, hk]

theorem forget_forget (lost' : Address → U256 → Bool) :
    (s.forget lost).forget lost' = s.forget fun addr k => lost addr k || lost' addr k := by
  simp only [forget, map_map]
  congr 1
  funext addr
  refine congrArg (fun f => Option.map f (s.cache addr)) (funext fun a => ?_)
  simp only [Function.comp_apply]
  congr 1
  funext k
  by_cases hk : lost' addr k
  · simp [hk]
  · simp [hk]

theorem forget_nothing : s.forget (fun _ _ => false) = s := by
  simp [forget]

theorem dirty_forget : (s.forget lost).Dirty = s.Dirty := by
  funext addr
  simp only [Dirty, forget]
  cases s.cache addr with
  | none => simp
  | some a => simp

/-- The keys that clearing the storage of an account will have lost after a rollback to the
savepoint of `s₀`: those that were not written since. -/
def lostBy (H : Hasher) (s₀ s : State) (cleared addr : Address) (key : U256) : Bool :=
  addr = cleared && (s.cache cleared).map (·.storageRoot) ≠ some H.emptyTrie &&
    !Change.written (s.changeLog.take (s.savepoint - s₀.savepoint)) addr key

theorem since_clearStorage {a : Account} (h : Since H s₀ s) (ha : s.cache addr = some a) :
    Post (clearStorage H addr) s fun _ s' => Since H (s₀.forget (lostBy H s₀ s addr)) s' := by
  simp only [clearStorage, update, post_bind, post_modify, post_get, post_ite, post_pure, ha,
    getD_some, update_self, id, log]
  rw [← ha, update_eq_self]
  obtain ⟨es, hes, hdirty, hrev⟩ := h.log
  by_cases hempty : a.storageRoot = H.emptyTrie
  · have hnothing : lostBy H s₀ s addr = fun _ _ => false := by
      funext x k
      simp [lostBy, ha, hempty]
    rw [if_pos hempty, hnothing, forget_nothing]
    exact h
  have hlost : lostBy H s₀ s addr = fun x k => decide (x = addr) && !Change.written es x k := by
    have htake : s.changeLog.take (s.savepoint - s₀.savepoint) = es := by simp [savepoint, hes]
    funext x k
    simp [lostBy, ha, hempty, htake]
  have hw : Writes s { s with
      cache := Function.update s.cache addr (some (a.clearStorage H))
      changeLog := .storageRoot addr a.storageRoot :: s.changeLog } addr (a.clearStorage H) :=
    ⟨rfl, rfl, rfl, rfl, fun _ hx => hx⟩
  rw [if_neg hempty, hlost]
  refine ⟨hw.sound h.sound (h.sound.coded addr a ha), h.db, h.accountStartNonce, ?_,
    .storageRoot addr a.storageRoot :: es, congrArg _ hes, ?_, .cons trivial ?_⟩
  · rw [dirty_forget]
    exact fun x hx => hw.dirty_of (h.dirty x hx)
  · intro e he
    rcases List.mem_cons.mp he with rfl | he
    · exact hw.dirty_self
    · exact hw.dirty_of (hdirty e he)
  · -- the entry takes the account to what is committed under its root
    have hundo : Function.update (s.view H) addr
        ((Change.storageRoot addr a.storageRoot).undoAccount H s.db ((a.clearStorage H).view H s.db)) =
          (s.view H).forget s.db fun x _ => decide (x = addr) := by
      funext x
      by_cases hx : x = addr
      · subst hx
        rw [update_self, View.forget, view_of_cache ha]
        simp only [decide_true, if_true]
        rfl
      · rw [update_of_ne hx, View.forget_committed fun _ _ _ hk => absurd (of_decide_eq_true hk) hx]
    rw [Change.undoView, hw.view, Change.address, update_self, bind_some, update_idem, hundo,
      view_forget, dirty_forget, ← h.db]
    exact hrev.forget fun x _ => decide (x = addr)

inductive Mutation where
  | op (o : Op)
  | clearStorage (addr : Address)
  | kill (addr : Address)

namespace Mutation

def exec (H : Hasher) : Mutation → StateM State Unit
  | op o => o.exec H
  | clearStorage addr => State.clearStorage H addr
  | kill addr => State.kill H addr

/-- Storage is cleared for an account in the cache, as it is where a contract is created.
`kill` has no entry in the log, so there must be nothing to kill. -/
def Allowed (H : Hasher) (s₀ s : State) : Mutation → Prop
  | op o => o.Allowed H s₀ s
  | clearStorage addr => (s.cache addr).isSome = true
  | kill addr => ((addressInUse H addr).run s).1 = false

/-- The keys that the rollback to the savepoint of `s₀` will not bring back. -/
def loses (H : Hasher) (s₀ s : State) : Mutation → Address → U256 → Bool
  | clearStorage addr => lostBy H s₀ s addr
  | _ => fun _ _ => false

theorem since_exec (h : Since H (s₀.forget lost) s) (m : Mutation) (hm : m.Allowed H s₀ s) :
    Post (m.exec H) s fun _ s' =>
    Since H (s₀.forget fun addr k => lost addr k || m.loses H s₀ s addr k) s' := by
  cases m with
  | op o =>
    simp only [loses, Bool.or_false]
    refine o.since_exec h ?_
    cases o <;> exact hm
  | clearStorage addr =>
    obtain ⟨a, ha⟩ := isSome_iff_exists.mp hm
    rw [← forget_forget]
    exact since_clearStorage h ha
  | kill addr =>
    simp only [loses, Bool.or_false, exec, State.kill]
    rw [Allowed, (addressInUse_spec h.sound addr).1] at hm
    rw [post_bind]
    refine (account_spec h.sound addr).mono ?_
    rintro (_ | a) s₁ ⟨hr, -, hv⟩
    · exact h.read hr
    · rw [hv] at hm
      cases hm

end Mutation

/-- The states after a savepoint of `s₀`, with the storage keys that were lost on the way. -/
inductive MutationRun (H : Hasher) (s₀ : State) : (Address → U256 → Bool) → State → Prop where
  | start : MutationRun H s₀ (fun _ _ => false) s₀
  | step {lost : Address → U256 → Bool} {s : State} (m : Mutation) (h : MutationRun H s₀ lost s)
    (hm : m.Allowed H s₀ s) : MutationRun H s₀ (fun addr k => lost addr k || m.loses H s₀ s addr k)
    ((m.exec H).run s).2

theorem since_mutationRun (hsound : s₀.Sound H) (h : MutationRun H s₀ lost s) :
    Since H (s₀.forget lost) s := by
  induction h with
  | start =>
    rw [forget_nothing]
    exact .refl hsound
  | step m _ hm ih => exact m.since_exec ih hm

/-- After a rollback the lost keys read as committed, all others as at the savepoint. -/
theorem view_mutationRun (hsound : s₀.Sound H) (h : MutationRun H s₀ lost s) :
    Post (rollback H s₀.savepoint) s fun _ s' => s'.Sound H ∧
    s'.view H = (s₀.view H).forget s₀.db lost := by
  obtain ⟨hsince, hback⟩ := view_rollback (since_mutationRun hsound h)
  rw [view_forget] at hback
  exact ⟨hsince.sound, hback⟩

theorem storage_rollback_iff (hsound : s₀.Sound H) (h : MutationRun H s₀ lost s) :
    (∀ addr key, ((storage H addr key).run ((rollback H s₀.savepoint).run s).2).1 =
      ((storage H addr key).run s₀).1) ↔ ∀ addr key a v, lost addr key → s₀.cache addr = some a →
      a.storageOverlay key = some v →
        v = s₀.db.storage a.storageRoot key := by
  obtain ⟨hsound', hview⟩ := view_mutationRun hsound h
  have hread (addr : Address) (key : U256) := (storage_spec hsound addr key).1
  have hread' (addr : Address) (key : U256) := (storage_spec hsound' addr key).1
  constructor
  · intro hsame addr key a v hlost ha hv
    have hkey := hsame addr key
    rw [hread, hread', hview, View.forget, view_of_cache ha] at hkey
    simpa [hlost, Account.view, hv] using hkey.symm
  · intro hcommitted addr key
    rw [hread, hread', hview]
    cases hc : s₀.cache addr with
    | none => rw [View.forget_stored (view_of_cache_none hc)]
    | some a =>
      rw [View.forget, view_of_cache hc]
      by_cases hlost : lost addr key
      · cases hv : a.storageOverlay key with
        | none => simp [hlost, Account.view, hv]
        | some v => simp [hlost, Account.view, hv, hcommitted addr key a v hlost hc hv]
      · simp [hlost]

theorem clearStorage_spec (hsound : s.Sound H) (addr : Address) :
    Post (clearStorage H addr) s fun _ s' =>
      s'.Sound H ∧ s'.view H addr = some ((((s.cache addr).map fun a =>
        if a.storageRoot = H.emptyTrie then a else a.clearStorage H).getD (.dead H)).view H s.db) := by
  simp only [clearStorage, update, post_bind, post_modify, post_get, post_ite, post_pure,
    update_self, id, log, getD_some, update_idem]
  cases hc : s.cache addr with
  | none =>
    have hw : Writes s { s with cache := Function.update s.cache addr (some (.dead H)) } addr (.dead H) :=
      ⟨rfl, rfl, rfl, rfl, fun _ hx => hx⟩
    have hempty : (Account.dead H).storageRoot = H.emptyTrie := rfl
    rw [getD_none, if_pos hempty]
    refine ⟨hw.sound hsound ?_, by rw [hw.view, update_self]; rfl⟩
    simp [Account.dead, Account.view, Hasher.emptySHA3]
  | some a =>
    rw [getD_some, map_some, getD_some]
    split_ifs with hempty
    · rw [← hc, update_eq_self]
      exact ⟨hsound, view_of_cache hc⟩
    · have hw : Writes s { s with
          cache := Function.update s.cache addr (some (a.clearStorage H))
          changeLog := .storageRoot addr a.storageRoot :: s.changeLog } addr (a.clearStorage H) :=
        ⟨rfl, rfl, rfl, rfl, fun _ hx => hx⟩
      exact ⟨hw.sound hsound (hsound.coded addr a hc), by rw [hw.view, update_self]⟩

/-- Under the empty root nothing is cleared. -/
theorem storage_clearStorage_iff (hsound : s.Sound H)
    (hempty : ∀ key, s.db.storage H.emptyTrie key = 0) {a : Account}
    (ha : ((account H addr).run s).1 = some a) :
    (∀ key, ((storage H addr key).run ((clearStorage H addr).run s).2).1 = 0) ↔
      a.storageRoot ≠ H.emptyTrie ∨ ∀ key, ((storage H addr key).run s).1 = 0 := by
  have hview : s.view H addr = some (a.view H s.db) :=
    (account_spec hsound addr).2.2.trans (by rw [ha]; rfl)
  obtain ⟨hsound', hview'⟩ := clearStorage_spec hsound addr
  have hread (key : U256) := (storage_spec hsound addr key).1
  have hread' (key : U256) := (storage_spec hsound' addr key).1
  simp only [hread, hread', hview, hview', map_some, getD_some]
  change _ ↔ (a.view H s.db).storageRoot ≠ H.emptyTrie ∨ _
  generalize a.view H s.db = w at hview
  cases hc : s.cache addr with
  | none =>
    -- an account that is not in the cache is as stored
    rw [view_of_cache_none hc] at hview
    rw [StateDB.storage_view hview]
    by_cases hroot : w.storageRoot = H.emptyTrie
    · simp [Account.view, Account.dead, hempty, hroot]
    · simp [Account.view, Account.dead, hempty, hroot]
  | some b =>
    obtain rfl : b.view H s.db = w := Option.some.inj ((view_of_cache hc).symm.trans hview)
    change _ ↔ b.storageRoot ≠ H.emptyTrie ∨ _
    by_cases hroot : b.storageRoot = H.emptyTrie
    · simp [hroot]
    · simp [hroot, Account.view, Account.clearStorage, hempty]

/-- What clearing the storage of an account does: its keys read as zero afterwards if its root
was not the empty one or they read so before, and a rollback restores the keys of every account
if those that were lost had no uncommitted values at the savepoint. -/
theorem clearing_and_rollback (H : Hasher) (s : State) (hsound : s.Sound H)
    (hempty : ∀ key, s.db.storage H.emptyTrie key = 0) :
    (∀ addr a, ((account H addr).run s).1 = some a →
      ((∀ key, ((storage H addr key).run ((clearStorage H addr).run s).2).1 = 0) ↔
        a.storageRoot ≠ H.emptyTrie ∨ ∀ key, ((storage H addr key).run s).1 = 0)) ∧
    ∀ lost s', MutationRun H s lost s' →
      ((∀ addr key, ((storage H addr key).run ((rollback H s.savepoint).run s').2).1 =
        ((storage H addr key).run s).1) ↔
        ∀ addr key a v, lost addr key = true → s.cache addr = some a → a.storageOverlay key = some v →
          v = s.db.storage a.storageRoot key) :=
  ⟨fun _ _ ha => storage_clearStorage_iff hsound hempty ha, fun _ _ hrun =>
    storage_rollback_iff hsound hrun⟩

def clearState : State :=
  opened ⟨fun addr => if addr = 1 then some ⟨1, 0, 5, lengthHasher.emptySHA3⟩
    else if addr = 2 then some ⟨1, 0, lengthHasher.emptyTrie, lengthHasher.emptySHA3⟩ else none,
    fun _ _ => 0, fun _ => []⟩ 0 ⟨[]⟩ id

theorem sound_clearState : clearState.Sound lengthHasher := by
  refine sound_opened ?_ _ _ _
  intro addr v hv
  simp only [StateDB.view] at hv
  split_ifs at hv
  · cases hv
    simp [Account.view, Account.load, Hasher.emptySHA3]
  · cases hv
    simp [Account.view, Account.load, Hasher.emptySHA3]
  · cases hv

def writtenState : State := execAll lengthHasher clearState [.setStorage 1 0 7, .setStorage 2 0 7]

theorem run_writtenState : Run lengthHasher clearState writtenState :=
  .step _ (.step _ .start rfl) rfl

/-- A key of the first account that was written again before the storage was cleared. -/
def clearedState : State :=
  ((clearStorage lengthHasher 1).run (execAll lengthHasher writtenState [.setStorage 1 0 9])).2

theorem clearing_and_rollback_writtenState :
    (∀ key, ((storage lengthHasher 1 key).run ((clearStorage lengthHasher 1).run writtenState).2).1 = 0) ∧
      ∀ addr key, ((storage lengthHasher addr key).run
        ((rollback lengthHasher writtenState.savepoint).run clearedState).2).1 =
          ((storage lengthHasher addr key).run writtenState).1 := by
  obtain ⟨hclear, hback⟩ := clearing_and_rollback lengthHasher writtenState
    (since_run sound_clearState run_writtenState).sound fun _ => rfl
  have hstart : MutationRun lengthHasher writtenState _ writtenState := .start
  have hrun := (hstart.step (.op (.setStorage 1 0 9)) rfl).step (.clearStorage 1) rfl
  refine ⟨(hclear 1 _ rfl).mpr (.inl (by decide +kernel)), (hback _ clearedState hrun).mpr ?_⟩
  intro addr key a v hlost ha hv
  obtain rfl : addr = 1 := by
    simp only [Mutation.loses, lostBy, Bool.false_or, Bool.and_eq_true, decide_eq_true_eq] at hlost
    exact hlost.1.1
  by_cases hk : key = 0
  · subst hk
    exact absurd hlost (by decide +kernel)
  · cases ha
    have hnone : Function.update (Function.update (fun _ : U256 => (none : Option U256)) 0 (some 0))
      0 (some 7) key = none := by
      rw [update_of_ne hk, update_of_ne hk]
    cases hnone.symm.trans hv

/-- The second account keeps what was written, the first one loses it in a rollback. -/
theorem clearing_keeps_and_rollback_loses :
    ((storage lengthHasher 2 0).run ((clearStorage lengthHasher 2).run writtenState).2).1 = 7 ∧
      ((storage lengthHasher 1 0).run writtenState).1 = 7 ∧
      ((storage lengthHasher 1 0).run ((rollback lengthHasher writtenState.savepoint).run
        ((clearStorage lengthHasher 1).run writtenState).2).2).1 = 0 := by
  decide +kernel

end State
end Vapory
