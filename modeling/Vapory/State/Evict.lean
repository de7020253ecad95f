import Vapory.State.Commit
import Vapory.State.Lockstep

/-! Eviction of clean accounts from the cache. A clean account is as stored: that has to be shown of
the accounts that a rollback makes clean again. -/
namespace Vapory
open Function Option

namespace Reverts
variable {H : Hasher} {db : StateDB} {dirty dirty' : Address → Prop} {v₀ v : View}
  {es : List Change} {addr : Address}

theorem antitone (h : Reverts H db dirty v₀ es v) (hdirty : ∀ x, dirty' x → dirty x) :
    Reverts H db dirty' v₀ es v := by
  induction h with
  | nil => exact .nil
  | @cons c older v hc h ih =>
    refine .cons ?_ ih
    cases c with
    | create a => exact ⟨hc.1, fun hd => hc.2.1 (hdirty a hd), hc.2.2⟩
    | touch a => exact ⟨hc.1, fun hd => hc.2.1 (hdirty a hd), hc.2.2⟩
    | _ => exact trivial

/-- An account may be overwritten without an entry if no entry makes it clean again. -/
theorem overwrite (h : Reverts H db dirty v₀ es v) (htouch : .touch addr ∉ es) (a : Account) :
    ∃ v₀', (v₀' = v₀ ∨ ∃ b : Account, v₀' = Function.update v₀ addr (some (b.view H db))) ∧
      Reverts H db dirty v₀' es (Function.update v addr (some (a.view H db))) := by
  induction h generalizing a with
  | nil => exact ⟨_, .inr ⟨a, rfl⟩, .nil⟩
  | @cons c older v hc h ih =>
    have hrest : .touch addr ∉ older := fun hm => htouch (List.mem_cons_of_mem c hm)
    by_cases haddr : c.address = addr
    · subst haddr
      -- the entry is undone on what was written
      have hplace (b : Account) (hb : c.undoAccount H db (a.view H db) = some (b.view H db))
          (hok : ∀ w, c.Revocable H db dirty older w) :
          ∃ v₀', (v₀' = v₀ ∨ ∃ b : Account, v₀' = Function.update v₀ c.address (some (b.view H db))) ∧
            Reverts H db dirty v₀' (c :: older) (Function.update v c.address (some (a.view H db))) := by
        obtain ⟨v₀', hv₀', hrev⟩ := ih hrest b
        refine ⟨v₀', hv₀', .cons (hok _) ?_⟩
        rw [Change.undoView, update_idem] at hrev
        rwa [Change.undoView, update_self, bind_some, hb, update_idem]
      cases c with
      | balance x value => exact hplace (a.addBalance (0 - value)) rfl fun _ => trivial
      | storage x key value =>
        exact hplace (a.setStorage key value) (by rw [Account.view_setStorage]; rfl) fun _ => trivial
      | storageRoot x value => exact hplace (a.setStorageRoot value) rfl fun _ => trivial
      | nonce x value => exact hplace (a.setNonce value) rfl fun _ => trivial
      | code x oldCode =>
        exact hplace (a.setCode H oldCode) (by rw [Account.view_setCode]; rfl) fun _ => trivial
      | create x =>
        have hnone (w : Option AccountView) : w.bind ((Change.create x).undoAccount H db) = none := by
          cases w <;> rfl
        refine ⟨v₀, .inl rfl, .cons hc ?_⟩
        rw [Change.undoView, hnone] at h ⊢
        rwa [update_idem]
      | touch x => exact absurd List.mem_cons_self htouch
    · obtain ⟨v₀', hv₀', hrev⟩ := ih hrest a
      refine ⟨v₀', hv₀', .cons ?_ ?_⟩
      · cases c with
        | create x => exact hc
        | touch x => exact ⟨(update_of_ne haddr ..).trans hc.1, hc.2⟩
        | _ => exact trivial
      · rw [Change.undoView, update_of_ne haddr, update_comm (Ne.symm haddr)]
        exact hrev

end Reverts

namespace State
variable {H : Hasher} {roots : TrieRoots} {s s₀ s' : State} {addr : Address}

/-- The log takes the state back to one with an empty log, whatever that one looks like. -/
def Grounded (H : Hasher) (s : State) : Prop := ∃ s₀ : State, s₀.changeLog = [] ∧ Since H s₀ s

theorem Grounded.sound (h : Grounded H s) : s.Sound H := by
  obtain ⟨s₀, -, hs⟩ := h
  exact hs.sound

theorem Grounded.of_later (h : Grounded H s) (hl : Later H s s') : Grounded H s' := by
  obtain ⟨s₀, hlog, hs⟩ := h
  exact ⟨s₀, hlog, hl.since s₀ hs⟩

theorem Grounded.unlogged (h : Grounded H s) (hclean : ¬ s.Dirty addr) :
    .touch addr ∉ s.changeLog := by
  obtain ⟨s₀, hlog, hs⟩ := h
  obtain ⟨es, hes, hdirty, -⟩ := hs.log
  rw [hes, hlog, List.append_nil]
  exact fun hm => hclean (hdirty _ hm)

theorem Grounded.overwrite {a : Account} (h : Grounded H s) (hw : Writes s s' addr a)
    (hlog : s'.changeLog = s.changeLog) (hcoded : H.hash (a.view H s.db).code = a.codeHash)
    (htouch : .touch addr ∉ s.changeLog) : Grounded H s' := by
  obtain ⟨s₀, hground, hs⟩ := h
  obtain ⟨es, hes, hdirty, hrev⟩ := hs.log
  rw [hes, hground, List.append_nil] at htouch
  obtain ⟨v₀, hv₀, hrev'⟩ := hrev.overwrite htouch a
  have hlog' : s'.changeLog = es ++ s₀.changeLog := hlog.trans hes
  have hsound := hw.sound hs.sound hcoded
  have hdirty' (c : Change) (hc : c ∈ es) : s'.Dirty c.address := hw.dirty_of (hdirty c hc)
  rcases hv₀ with rfl | ⟨b, rfl⟩
  · refine ⟨s₀, hground, hsound, hw.db.trans hs.db, hw.accountStartNonce.trans hs.accountStartNonce,
      fun x hx => hw.dirty_of (hs.dirty x hx), es, hlog', hdirty', ?_⟩
    rw [hw.db, hw.view]
    exact hrev'
  · -- the account of the first state is replaced by one that nothing is known of
    have hview : State.view H { s₀ with
        cache := Function.update s₀.cache addr (some { b with isUnchanged := true }) } =
        Function.update (s₀.view H) addr (some (b.view H s₀.db)) := by
      apply view_replaced
      · rfl
      · rfl
      · rfl
    have hback {x : Address} (hx : State.Dirty { s₀ with
        cache := Function.update s₀.cache addr (some { b with isUnchanged := true }) } x) :
        s₀.Dirty x := by
      obtain ⟨c, hc, hu⟩ := hx
      by_cases hxa : x = addr
      · subst hxa
        simp only [update_self, Option.some.injEq] at hc
        subst hc
        cases hu
      · simp only [update_of_ne hxa] at hc
        exact ⟨c, hc, hu⟩
    refine ⟨{ s₀ with
      cache := Function.update s₀.cache addr (some { b with isUnchanged := true }) }, hground, hsound,
      hw.db.trans hs.db, hw.accountStartNonce.trans hs.accountStartNonce, fun x hx =>
        hw.dirty_of (hs.dirty x (hback hx)),
      es, hlog', hdirty', ?_⟩
    rw [hw.db, hw.view, hview, ← hs.db]
    exact hrev'.antitone fun x hx => hback hx

/-- A write to an account that there is not makes a dead one, with an entry for the key only. -/
theorem grounded_setStorage_absent (h : Grounded H s) (habsent : s.view H addr = none)
    (key value : U256) : Post (setStorage H addr key value) s fun _ s' => Grounded H s' := by
  unfold setStorage
  rw [post_bind]
  refine (storage_spec h.sound addr key).mono ?_
  rintro old s₁ ⟨hold, hr, -⟩
  rw [habsent] at hold
  have h₁ := h.of_later (.of_reads hr)
  have hnone : s₁.cache addr = none := cache_of_view_none (hr.view ▸ habsent)
  have hclean : ¬ s₁.Dirty addr := by
    rintro ⟨a, ha, -⟩
    rw [hnone] at ha
    cases ha
  have hcoded (v : U256) : H.hash (((Account.dead H).setStorage key v).view H s₁.db).code =
    H.emptySHA3 := by
    simp [Account.view, Account.setStorage, Account.dead, Hasher.emptySHA3]
  have hw : Writes s₁ { s₁ with
      cache := Function.update s₁.cache addr (some ((Account.dead H).setStorage key 0)) } addr
      ((Account.dead H).setStorage key 0) := ⟨rfl, rfl, rfl, rfl, fun _ hx => hx⟩
  obtain ⟨s₀, hground, h₂⟩ := h₁.overwrite hw rfl (hcoded 0) (h₁.unlogged hclean)
  have hundo : (Change.storage addr key 0).undoAccount H s₁.db
      (((Account.dead H).setStorage key value).view H s₁.db) =
      some (((Account.dead H).setStorage key 0).view H s₁.db) := by
    rw [Account.view_setStorage, Account.view_setStorage, Change.undoAccount, update_idem]
  have hdead : State.cache { s₁ with
      cache := Function.update s₁.cache addr (some ((Account.dead H).setStorage key 0)) } addr =
      some ((Account.dead H).setStorage key 0) := update_self ..
  have h₃ := (later_write hdead (.storage addr key 0) rfl rfl hundo (hcoded value)
    (fun _ _ _ _ => trivial) rfl).since s₀ h₂
  rw [update_idem] at h₃
  rw [hold]
  simp only [post_bind, update, log, post_modify, hnone, getD_none]
  exact ⟨s₀, hground, h₃⟩

theorem grounded_clearStorage (h : Grounded H s) (addr : Address) :
    Post (clearStorage H addr) s fun _ s' => Grounded H s' := by
  cases hc : s.cache addr with
  | some a =>
    obtain ⟨s₀, hground, hs⟩ := h
    exact (since_clearStorage hs hc).mono fun _ s' hs' => ⟨s₀.forget (lostBy H s₀ s addr), hground, hs'⟩
  | none =>
    have hw : Writes s { s with cache := Function.update s.cache addr (some (.dead H)) } addr (.dead H) :=
      ⟨rfl, rfl, rfl, rfl, fun _ hx => hx⟩
    have hclean : ¬ s.Dirty addr := by
      rintro ⟨a, ha, -⟩
      rw [hc] at ha
      cases ha
    have hempty : (Account.dead H).storageRoot = H.emptyTrie := rfl
    simp only [clearStorage, update, post_bind, post_modify, post_get, post_ite, post_pure, hc,
      getD_none, update_self, getD_some, id, hempty, if_true]
    refine h.overwrite hw rfl ?_ (h.unlogged hclean)
    simp [Account.dead, Account.view, Hasher.emptySHA3]

theorem grounded_kill (h : Grounded H s) (htouch : .touch addr ∉ s.changeLog) :
    Post (kill H addr) s fun _ s' => Grounded H s' := by
  unfold kill
  rw [post_bind]
  refine (account_spec h.sound addr).mono ?_
  rintro (_ | a) s₁ ⟨hr, hc, -⟩
  · exact h.of_later (.of_reads hr)
  · have h₁ := h.of_later (.of_reads hr)
    simp only [update, post_modify, hc, getD_some]
    have hw : Writes s₁ { s₁ with cache := Function.update s₁.cache addr (some (a.kill H)) } addr
      (a.kill H) :=
      ⟨rfl, rfl, rfl, rfl, fun _ hx => hx⟩
    refine h₁.overwrite hw rfl ?_ (hr.changeLog ▸ htouch)
    simp [Account.kill, Account.view, Hasher.emptySHA3]

/-- A contract is created where there is no account, code is set for an account that is dirty, a
rollback is to a savepoint in the log, and an account that the log has a touch of is not killed. -/
def Mutation.Marked (H : Hasher) (s : State) : Mutation → Prop
  | op (.createContract addr) => ((addressInUse H addr).run s).1 = false
  | op (.setCode addr _) => ∃ a, s.cache addr = some a ∧ a.isDirty
  | op (.rollback savepoint) => savepoint ≤ s.savepoint
  | kill addr => .touch addr ∉ s.changeLog
  | _ => True

theorem Mutation.grounded_exec (h : Grounded H s) (m : Mutation) (hm : m.Marked H s) :
    Post (m.exec H) s fun _ s' => Grounded H s' := by
  obtain ⟨s₀, hground, hs⟩ := id h
  have hop (o : Op) (ho : o.Allowed H s₀ s) : Post (o.exec H) s fun _ s' => Grounded H s' :=
    (o.since_exec hs ho).mono fun _ s' hs' => ⟨s₀, hground, hs'⟩
  cases m with
  | clearStorage addr => exact grounded_clearStorage h addr
  | kill addr => exact grounded_kill h hm
  | op o =>
    cases o with
    | setStorage addr key value =>
      have hinUse := (addressInUse_spec h.sound addr).1
      cases hview : s.view H addr with
      | none => exact grounded_setStorage_absent h hview key value
      | some w =>
        refine hop _ (hinUse.trans ?_)
        rw [hview]
        rfl
    | rollback savepoint =>
      refine hop _ ⟨?_, hm⟩
      rw [State.savepoint, hground]
      exact Nat.zero_le _
    | createContract addr => exact hop _ hm
    | setCode addr newCode => exact hop _ hm
    | _ => exact hop _ trivial

/-- The states that are reached from `s₀`. -/
inductive MarkedRun (H : Hasher) (s₀ : State) : State → Prop where
  | start : MarkedRun H s₀ s₀
  | step {s : State} (m : Mutation) (h : MarkedRun H s₀ s) (hm : m.Marked H s) :
    MarkedRun H s₀ ((m.exec H).run s).2

theorem grounded_run (h : Grounded H s₀) (hrun : MarkedRun H s₀ s) : Grounded H s := by
  induction hrun with
  | start => exact h
  | step m _ hm ih => exact m.grounded_exec ih hm

section Evict

/-- Some accounts that are not dirty are not in the cache of `s'`. -/
structure Evicts (s s' : State) : Prop where
  cache : ∀ x, s'.cache x = s.cache x ∨ s'.cache x = none ∧ ∃ a, s.cache x = some a ∧ a.isDirty = false
  db : s'.db = s.db
  changeLog : s'.changeLog = s.changeLog
  accountStartNonce : s'.accountStartNonce = s.accountStartNonce
  nonExisting : s'.nonExistingAccountsCache = s.nonExistingAccountsCache

theorem Evicts.refl (s : State) : Evicts s s := ⟨fun _ => .inl rfl, rfl, rfl, rfl, rfl⟩

theorem Evicts.trans {s₁ s₂ s₃ : State} (h₁ : Evicts s₁ s₂) (h₂ : Evicts s₂ s₃) : Evicts s₁ s₃ := by
  refine ⟨fun x => ?_, h₂.db.trans h₁.db, h₂.changeLog.trans h₁.changeLog,
    h₂.accountStartNonce.trans h₁.accountStartNonce, h₂.nonExisting.trans h₁.nonExisting⟩
  rcases h₂.cache x with heq | ⟨hnone, a, ha, hclean⟩
  · rw [heq]
    exact h₁.cache x
  · rcases h₁.cache x with heq | hgone
    · exact .inr ⟨hnone, a, heq ▸ ha, hclean⟩
    · exact .inr ⟨hnone, hgone.2⟩

theorem Evicts.drop {a : Account} (h : Evicts s s') (ha : s'.cache addr = some a)
    (hclean : a.isDirty = false) :
    Evicts s { s' with cache := Function.update s'.cache addr none } := by
  refine h.trans ⟨fun x => ?_, rfl, rfl, rfl, rfl⟩
  by_cases hx : x = addr
  · subst hx
    exact .inr ⟨update_self .., a, ha, hclean⟩
  · exact .inl (update_of_ne hx ..)

theorem evicts_evict (s : State) (addr : Address) : Evicts s (s.evict addr) :=
  evict_rule (fun h ha hclean => h.drop ha hclean) (.refl s) addr

theorem evicts_clearCacheIfTooLarge (s : State) : Evicts s s.clearCacheIfTooLarge := by
  refine clearCacheIfTooLarge_rule (fun h ha hclean => h.drop ha hclean)
    (fun entries random h => ?_) (.refl s)
  exact h.trans ⟨fun _ => .inl rfl, rfl, rfl, rfl, rfl⟩

theorem Evicts.reads (h : Evicts s s') (hs : s.Sound H) : Reads H s s' := by
  refine reads_of_recached hs (fun x => ?_) h.db h.changeLog h.accountStartNonce fun x hx =>
    hs.absent x (h.nonExisting ▸ hx)
  rcases h.cache x with heq | ⟨hnone, a, ha, hclean⟩
  · rw [heq]
    exact .same _
  · rw [hnone, ha]
    exact .evicted (by simpa [Account.isDirty] using hclean)

end Evict

section Root

/-- What the trie holds for an account after `commit`. -/
def committed (roots : TrieRoots) (old : Option StoredAccount) (a : Account) : Option StoredAccount :=
  if a.isDirty then
    if a.isAlive then some ⟨a.nonce, a.balance, roots.storage a.storageRoot a.storageOverlay,
      a.codeHash⟩ else none
  else old

def committedAt (roots : TrieRoots) (s : State) (addr : Address) : Option StoredAccount :=
  ((s.cache addr).map (committed roots (s.db.account addr))).getD (s.db.account addr)

theorem trie_commitAccount (addr : Address) (s : State) :
    Post (commitAccount roots addr) s fun _ s' =>
      s'.cache = s.cache ∧ s'.db.account = Function.update s.db.account addr (committedAt roots s addr) := by
  unfold commitAccount committedAt
  rw [post_bind, post_get]
  cases s.cache addr with
  | none => exact ⟨rfl, (update_eq_self ..).symm⟩
  | some a =>
    obtain ⟨alive, unchanged, newCode, nonce, balance, root, codeHash, overlay, code⟩ := a
    cases unchanged with
    | true => exact ⟨rfl, (update_eq_self ..).symm⟩
    | false =>
      cases alive with
      | false => exact ⟨rfl, rfl⟩
      | true =>
        cases newCode with
        | false => exact ⟨rfl, rfl⟩
        | true => exact ⟨rfl, rfl⟩

/-- The order of the addresses does not matter, nor does an address that occurs twice. -/
theorem trie_walk (walk : List Address) (s : State) :
    Post (walk.forM (commitAccount roots)) s fun _ s' =>
      s'.cache = s.cache ∧ ∀ x,
      s'.db.account x = if x ∈ walk then committedAt roots s x else s.db.account x := by
  induction walk generalizing s with
  | nil => exact ⟨rfl, fun x => (if_neg List.not_mem_nil).symm⟩
  | cons addr walk ih =>
    show Post (commitAccount roots addr >>= fun _ => walk.forM (commitAccount roots)) s _
    rw [post_bind]
    refine (trie_commitAccount addr s).mono ?_
    rintro _ s₁ ⟨hcache, haccount⟩
    refine (ih s₁).mono ?_
    rintro _ s' ⟨hcache', haccount'⟩
    refine ⟨hcache'.trans hcache, fun x => ?_⟩
    have hat : committedAt roots s₁ x = committedAt roots s x := by
      unfold committedAt
      rw [hcache, haccount]
      by_cases hx : x = addr
      · subst hx
        rw [update_self, committedAt]
        cases s.cache x with
        | none => rfl
        | some a =>
          simp only [map_some, getD_some, committed]
          split_ifs <;> rfl
      · rw [update_of_ne hx]
    rw [haccount', hat, haccount]
    by_cases hx : x = addr
    · subst hx
      rw [update_self, if_pos List.mem_cons_self, ite_self]
    · rw [update_of_ne hx]
      simp [hx]

theorem trie_commit {walk : List Address} (hwalk : ∀ x, x ∈ walk ↔ (s.cache x).isSome = true)
    (behaviour : CommitBehaviour) :
    ((commit H roots walk behaviour).run s).2.db.account = fun x => committedAt roots
      (if behaviour = .RemoveEmptyAccounts then ((removeEmptyAccounts H).run s).2 else s) x := by
  have hloop {t : State} (ht : ∀ x, x ∈ walk ↔ (t.cache x).isSome = true) :
      Post (walk.forM (commitAccount roots)) t fun _ s' => s'.db.account = fun x =>
      committedAt roots t x := by
    refine (trie_walk walk t).mono ?_
    rintro _ s' ⟨-, haccount⟩
    funext x
    rw [haccount]
    split_ifs with hx
    · rfl
    · rw [ht, Bool.not_eq_true, isSome_eq_false_iff, isNone_iff_eq_none] at hx
      rw [committedAt, hx]
      rfl
  show Post (commit H roots walk behaviour) s fun _ s' => s'.db.account = _
  unfold commit
  by_cases hb : behaviour = .RemoveEmptyAccounts
  · rw [if_pos hb, if_pos hb, post_bind]
    refine hloop fun x => ?_
    show x ∈ walk ↔ ((s.cache x).map _).isSome = true
    rw [isSome_map]
    exact hwalk x
  · rw [if_neg hb, if_neg hb, post_bind]
    exact hloop hwalk

theorem Evicts.removeEmptyAccounts (h : Evicts s s') :
    Evicts ((State.removeEmptyAccounts H).run s).2 ((State.removeEmptyAccounts H).run s').2 := by
  refine ⟨fun x => ?_, h.db, h.changeLog, h.accountStartNonce, h.nonExisting⟩
  show (s'.cache x).map _ = (s.cache x).map _ ∨ (s'.cache x).map _ = none ∧
    ∃ a, (s.cache x).map _ = some a ∧ _
  rcases h.cache x with heq | ⟨hnone, a, ha, hclean⟩
  · exact .inl (by rw [heq])
  · refine .inr ⟨by rw [hnone]; rfl, a, ?_, hclean⟩
    rw [ha, map_some, if_neg fun hd => ?_]
    rw [hclean] at hd
    exact Bool.false_ne_true hd.1

/-- What is not dirty is not committed. -/
theorem committedAt_clean {x : Address} (hd : ¬ s.Dirty x) :
    committedAt roots s x = s.db.account x := by
  unfold committedAt
  cases hc : s.cache x with
  | none => rfl
  | some a =>
    rw [map_some, getD_some, committed, if_neg]
    exact fun hdirty => hd ⟨a, hc, by simpa [Account.isDirty] using hdirty⟩

theorem Evicts.committedAt (h : Evicts s s') (x : Address) :
    State.committedAt roots s' x = State.committedAt roots s x := by
  unfold State.committedAt
  rw [h.db]
  rcases h.cache x with heq | ⟨hnone, a, ha, hclean⟩
  · rw [heq]
  · rw [hnone, ha, map_some, getD_some, committed, hclean]
    rfl

theorem rootHash_commit {walk walk' : List Address}
    (hwalk : ∀ x, x ∈ walk ↔ (s.cache x).isSome = true)
    (hwalk' : ∀ x, x ∈ walk' ↔ (s'.cache x).isSome = true)
    (h : ∀ x, committedAt roots s' x = committedAt roots s x)
    (hremove : ∀ x, committedAt roots ((removeEmptyAccounts H).run s').2 x =
      committedAt roots ((removeEmptyAccounts H).run s).2 x) (behaviour : CommitBehaviour) :
    rootHash roots ((commit H roots walk' behaviour).run s').2 = rootHash roots
    ((commit H roots walk behaviour).run s).2 := by
  rw [rootHash, rootHash, trie_commit hwalk, trie_commit hwalk']
  congr 1
  funext x
  by_cases hb : behaviour = .RemoveEmptyAccounts
  · rw [if_pos hb, if_pos hb]
    exact hremove x
  · rw [if_neg hb, if_neg hb]
    exact h x

/-- The root of a storage trie is a function of what it holds. -/
def Extensional (roots : TrieRoots) (db : StateDB) : Prop :=
  ∀ root o o', (∀ key, (o' key).getD (db.storage root key) = (o key).getD (db.storage root key)) →
    roots.storage root o' = roots.storage root o

theorem clean_removeEmptyAccounts (x : Address) :
    (((removeEmptyAccounts H).run s).2.cache x).all (·.isUnchanged) =
      (s.cache x).all (·.isUnchanged) := by
  show ((s.cache x).map _).all _ = _
  cases s.cache x with
  | none => rfl
  | some a =>
    by_cases ha : a.isDirty ∧ a.isEmpty H
    · have hu : a.isUnchanged = false := by simpa [Account.isDirty] using ha.1
      simp [ha, Account.kill, hu]
    · simp [ha]

theorem view_removeEmptyAccounts (x : Address) :
    ((removeEmptyAccounts H).run s).2.view H x =
      if (s.cache x).all (·.isUnchanged) = false ∧ (s.view H x).any (·.isEmpty H) then
        some ((Account.dead H).view H s.db) else s.view H x := by
  have hdb : ((removeEmptyAccounts H).run s).2.db = s.db := rfl
  have hcache : ((removeEmptyAccounts H).run s).2.cache x = (s.cache x).map fun a =>
    if a.isDirty ∧ a.isEmpty H then a.kill H else a := rfl
  have hempty (a : Account) : AccountView.isEmpty H (a.view H s.db) = a.isEmpty H := rfl
  unfold view
  rw [hcache, hdb]
  cases s.cache x with
  | none => simp
  | some a =>
    simp only [map_some, all_some, any_some, hempty]
    by_cases ha : a.isDirty ∧ a.isEmpty H
    · rw [if_pos ha, if_pos ⟨by simpa [Account.isDirty] using ha.1, ha.2⟩]
      simp [Account.view, Account.kill, Account.dead]
    · rw [if_neg ha, if_neg fun h => ha ⟨by simpa [Account.isDirty] using h.1, h.2⟩]

namespace Twins
variable {t : State}

theorem committedAt (h : Twins H s t) (hroots : Extensional roots s.db) (x : Address) :
    State.committedAt roots t x = State.committedAt roots s x := by
  by_cases hd : s.Dirty x
  · obtain ⟨hview, hflag⟩ := h.peers (h.cached hd)
    obtain ⟨b, hb, -⟩ := h.dirty_of hd
    obtain ⟨a, ha, -⟩ := hd
    rw [ha, hb] at hview hflag
    simp only [getD_some, Account.view, AccountView.mk.injEq] at hview hflag
    obtain ⟨halive, hnonce, hbalance, hroot, hcodeHash, -, hstorage⟩ := hview
    have hstored := hroots a.storageRoot a.storageOverlay b.storageOverlay fun key =>
      hroot ▸ congrFun hstorage key
    simp [State.committedAt, ha, hb, h.db, committed, Account.isDirty, hflag, halive, hnonce,
      hbalance, hroot, hcodeHash, hstored]
  · rw [committedAt_clean hd, committedAt_clean fun hd' => hd (h.symm.dirty_of hd'), h.db]

theorem removeEmptyAccounts (h : Twins H s t) :
    Twins H ((State.removeEmptyAccounts H).run s).2 ((State.removeEmptyAccounts H).run t).2 := by
  refine ⟨h.db, h.changeLog, h.accountStartNonce, funext fun x => ?_, fun x => ?_⟩
  · rw [view_removeEmptyAccounts, view_removeEmptyAccounts, h.view, h.clean, h.db]
  · rw [clean_removeEmptyAccounts, clean_removeEmptyAccounts, h.clean]

end Twins

end Root

section Together
variable {t t' : State}

theorem Twins.exec (h : Twins H s t) (hs : Grounded H s) (ht : t.Sound H) (m : Mutation)
    (hclear : ∀ addr, m = .clearStorage addr → s.Dirty addr) : Lock H s t (m.exec H) := by
  have hdrop {m : StateOp Unit} (hm : Lock H s t m.run) : Lock H s t (do let _ ← m.run) :=
    hm.bind fun _ h₁ => ⟨rfl, h₁⟩
  have hs' := hs.sound
  cases m with
  | clearStorage addr => exact h.clearStorage (hclear addr rfl)
  | kill addr => exact h.kill hs' ht addr
  | op o =>
    cases o with
    | addBalance addr amount => exact hdrop (h.addBalance hs' ht addr amount)
    | subBalance addr value => exact hdrop (h.subBalance hs' ht addr value)
    | transferBalance src dst value => exact hdrop (h.transferBalance hs' ht src dst value)
    | incNonce addr => exact hdrop (h.incNonce hs' ht addr)
    | setNonce addr newNonce => exact h.setNonce hs' ht addr newNonce
    | createContract addr => exact hdrop (h.createContract addr)
    | setStorage addr key value => exact h.setStorage hs' ht addr key value
    | setCode addr newCode => exact h.setCode hs' ht addr newCode
    | read r => exact ⟨rfl, h.of_reads (r.reads hs') (r.reads ht)⟩
    | rollback savepoint =>
      obtain ⟨s₀, hground, hsince⟩ := hs
      exact .get (by rw [h.changeLog]) (h.undoNewest hsince hground _)

theorem Twins.marked (h : Twins H s t) (hs : s.Sound H) (ht : t.Sound H) {m : Mutation}
    (hm : m.Marked H s) : m.Marked H t := by
  cases m with
  | clearStorage addr => trivial
  | kill addr =>
    show .touch addr ∉ t.changeLog
    rwa [h.changeLog]
  | op o =>
    cases o with
    | createContract addr =>
      change ((addressInUse H addr).run s).1 = false at hm
      show ((addressInUse H addr).run t).1 = false
      rwa [(addressInUse_spec ht addr).1, h.view, ← (addressInUse_spec hs addr).1]
    | setCode addr newCode =>
      obtain ⟨a, ha, hd⟩ := hm
      obtain ⟨b, hb, hu⟩ := h.dirty_of ⟨a, ha, by simpa [Account.isDirty] using hd⟩
      exact ⟨b, hb, by simpa [Account.isDirty] using hu⟩
    | rollback savepoint =>
      change savepoint ≤ t.changeLog.length
      exact h.changeLog ▸ hm
    | _ => trivial

/-- The same is done to both states. Storage is cleared for accounts that are dirty, since
`clearStorage` does not load the account. -/
inductive Together (H : Hasher) (s s' : State) : State → State → Prop where
  | start : Together H s s' s s'
  | step {t t' : State} (m : Mutation) (h : Together H s s' t t') (hm : m.Marked H t)
    (hclear : ∀ addr, m = .clearStorage addr → t.Dirty addr) :
    Together H s s' ((m.exec H).run t).2 ((m.exec H).run t').2

theorem Twins.together (h : Twins H s s') (hs : Grounded H s) (hs' : Grounded H s')
    (hrun : Together H s s' t t') : Twins H t t' ∧ Grounded H t ∧ Grounded H t' := by
  induction hrun with
  | start => exact ⟨h, hs, hs'⟩
  | step m _ hm hclear ih =>
    obtain ⟨h₁, hs₁, ht₁⟩ := ih
    exact ⟨(h₁.exec hs₁ ht₁.sound m hclear).2, m.grounded_exec hs₁ hm,
      m.grounded_exec ht₁ (h₁.marked hs₁.sound ht₁.sound hm)⟩

end Together

/-- The accounts that the mutators leave clean are as stored, so that eviction changes nothing that
is read afterwards, nor the root of the next commit, nor of a later one: as long as no account is
killed that the log has a touch of. -/
theorem eviction_invisible {db : StateDB}
    (hstored : ∀ addr v, db.view H addr = some v → H.hash v.code = v.codeHash)
    (accountStartNonce : U256) (codeSizes : CodeSizeCache) (random : ℕ → ℕ)
    (hrun : MarkedRun H (opened db accountStartNonce codeSizes random) s) (roots : TrieRoots) :
    Evicts s s.clearCacheIfTooLarge ∧ ∀ s', Evicts s s' →
      (∀ addr, ReadsAlike H addr s s') ∧
      (∀ behaviour walk walk', (∀ x, x ∈ walk ↔ (s.cache x).isSome = true) →
      (∀ x, x ∈ walk' ↔ (s'.cache x).isSome = true) →
        rootHash roots ((commit H roots walk' behaviour).run s').2 =
          rootHash roots ((commit H roots walk behaviour).run s).2) ∧
      ∀ t t', Together H s s' t t' → (∀ addr, ReadsAlike H addr t t') ∧
        (Extensional roots t.db → ∀ behaviour walk walk',
          (∀ x, x ∈ walk ↔ (t.cache x).isSome = true) →
          (∀ x, x ∈ walk' ↔ (t'.cache x).isSome = true) →
            rootHash roots ((commit H roots walk' behaviour).run t').2 =
              rootHash roots ((commit H roots walk behaviour).run t).2) := by
  have hopened : Grounded H (opened db accountStartNonce codeSizes random) :=
    ⟨_, rfl, .refl (sound_opened hstored accountStartNonce codeSizes random)⟩
  have hs := grounded_run hopened hrun
  have hread {t t' : State} (h : Twins H t t') (ht : t.Sound H) (ht' : t'.Sound H)
      (addr : Address) : ReadsAlike H addr t t' :=
    reads_agree ht addr ht' h.accountStartNonce (·.storageRoot)
      ((congrFun h.view addr).trans map_id'.symm)
  refine ⟨evicts_clearCacheIfTooLarge s, fun s' hev => ?_⟩
  have hr := hev.reads hs.sound
  refine ⟨hread hr.toTwins hs.sound hr.sound, fun behaviour walk walk' hwalk hwalk' => ?_,
    fun t t' hrun => ?_⟩
  · exact rootHash_commit hwalk hwalk' hev.committedAt hev.removeEmptyAccounts.committedAt behaviour
  · obtain ⟨h, ht, ht'⟩ := hr.toTwins.together hs (hs.of_later (.of_reads hr)) hrun
    refine ⟨hread h ht.sound ht'.sound, fun hroots behaviour walk walk' hwalk hwalk' => ?_⟩
    exact rootHash_commit hwalk hwalk' (h.committedAt hroots)
      (h.removeEmptyAccounts.committedAt hroots) behaviour

def emptyAccountState : State :=
  opened ⟨fun addr => if addr = 1 then some ⟨0, 0, lengthHasher.emptyTrie, lengthHasher.emptySHA3⟩
    else none, fun _ _ => 0, fun _ => []⟩ 0 ⟨[]⟩ id

theorem stored_emptyAccountState (addr : Address) (v : AccountView)
    (hv : emptyAccountState.db.view lengthHasher addr = some v) :
    lengthHasher.hash v.code = v.codeHash := by
  simp only [StateDB.view, emptyAccountState, opened] at hv
  split_ifs at hv
  · cases hv
    simp [Account.view, Account.load, Hasher.emptySHA3]
  · cases hv

def untouchedState : State := execAll lengthHasher emptyAccountState [.addBalance 1 5, .rollback 0]

def laterOps : List Op := [.addBalance 1 7, .setStorage 1 2 9, .transferBalance 1 2 3, .rollback 4]

/-- A root that tells the balance of one account. -/
def balanceRoots : TrieRoots :=
  ⟨fun accounts => ((accounts 1).map (·.balance)).getD 0, fun root _ => root, fun _ => rfl⟩

theorem eviction_invisible_untouchedState :
    let t := execAll lengthHasher untouchedState laterOps
    let t' := execAll lengthHasher (untouchedState.evict 1) laterOps
    ((balance lengthHasher 1).run (untouchedState.evict 1)).1 =
    ((balance lengthHasher 1).run untouchedState).1 ∧
      (untouchedState.cache 1).isSome = true ∧
      ((untouchedState.evict 1).cache 1).isSome = false ∧
      ((balance lengthHasher 1).run t').1 = ((balance lengthHasher 1).run t).1 ∧
      ∀ walk walk', (∀ x, x ∈ walk ↔ (t.cache x).isSome = true) →
        (∀ x, x ∈ walk' ↔ (t'.cache x).isSome = true) →
        rootHash balanceRoots
            ((commit lengthHasher balanceRoots walk' .RemoveEmptyAccounts).run t').2 =
          rootHash balanceRoots
            ((commit lengthHasher balanceRoots walk .RemoveEmptyAccounts).run t).2 := by
  have hrun : MarkedRun lengthHasher emptyAccountState untouchedState :=
    .step (.op (.rollback 0)) (.step (.op (.addBalance 1 5)) .start trivial) (Nat.zero_le _)
  obtain ⟨-, hinvisible⟩ :=
    eviction_invisible stored_emptyAccountState 0 ⟨[]⟩ id hrun balanceRoots
  obtain ⟨hread, -, hlater⟩ := hinvisible _ (evicts_evict untouchedState 1)
  obtain ⟨hread', hroot⟩ := hlater _ _ <| .step (.op (.rollback 4))
    (.step (.op (.transferBalance 1 2 3)) (.step (.op (.setStorage 1 2 9))
      (.step (.op (.addBalance 1 7)) .start trivial (by rintro _ ⟨⟩)) trivial (by rintro _ ⟨⟩))
      trivial (by rintro _ ⟨⟩)) (by change 4 ≤ savepoint _; decide +kernel) (by rintro _ ⟨⟩)
  exact ⟨(hread 1).balance, by decide +kernel, by decide +kernel, (hread' 1).balance,
    hroot (fun _ _ _ _ => rfl) .RemoveEmptyAccounts⟩

/-- The account is killed after the touch: it is made clean with a balance that the trie does not
have. -/
theorem eviction_visible :
    let s := ((rollback lengthHasher 0).run ((kill lengthHasher 1).run
      (execAll lengthHasher emptyAccountState [.addBalance 1 5])).2).2
    1 ∈ s.unchangedCacheEntries ∧ ((balance lengthHasher 1).run s).1 = 0 - 5 ∧
      ((balance lengthHasher 1).run (s.evict 1)).1 = 0 := by
  decide +kernel

end State
end Vapory
