import Vapory.State.Clear

/-! Two states that differ only in what their caches hold of clean accounts stay so when the same is
done to both. -/
namespace Vapory
open Option Function

namespace State
variable {H : Hasher} {s t s' t' s₀ : State} {addr : Address} {α β : Type}

/-- The accounts look the same, and both are dirty or none is. -/
def Peers (H : Hasher) (db : StateDB) (a b : Account) : Prop :=
  b.view H db = a.view H db ∧ b.isUnchanged = a.isUnchanged

/-- What is done to both states has one result and leaves twins. -/
def Lock (H : Hasher) (s t : State) (m : StateM State α) : Prop :=
  Post m s fun r s' => Post m t fun r' t' => r' = r ∧ Twins H s' t'

theorem lock_lift {m : StateM State α} {f : α → StateOp β} :
    Lock H s t (liftM m >>= f).run ↔ Lock H s t (m >>= fun a => (f a).run) := Iff.rfl

namespace Lock

theorem bind {m : StateM State α} {f : α → StateM State β} (h : Lock H s t m)
    (hf : ∀ r, Twins H (m.run s).2 (m.run t).2 → Lock H (m.run s).2 (m.run t).2 (f r)) :
    Lock H s t (m >>= f) := by
  have hr : (m.run t).1 = (m.run s).1 := h.1
  show Post (f _) _ fun r s' => Post (f (m.run t).1) _ fun r' t' => r' = r ∧ Twins H s' t'
  rw [hr]
  exact hf _ h.2

theorem get {f : State → StateM State β} (hf : f t = f s) (h : Lock H s t (f s)) :
    Lock H s t (get >>= f) := by
  show Post (f s) s fun r s' => Post (f t) t fun r' t' => r' = r ∧ Twins H s' t'
  rw [hf]
  exact h

theorem bindE {m : StateOp α} {f : α → StateOp β} (h : Lock H s t m.run)
    (hf : ∀ r, Twins H (m.run.run s).2 (m.run.run t).2 →
      Lock H (m.run.run s).2 (m.run.run t).2 (f r).run) : Lock H s t (m >>= f).run := by
  rw [ExceptT.run_bind]
  refine h.bind fun r h' => ?_
  cases r with
  | error e => exact ⟨rfl, h'⟩
  | ok a => exact hf a h'

theorem lift {m : StateM State α} (h : Lock H s t m) : Lock H s t (liftM m : StateOp α).run :=
  ⟨congrArg Except.ok h.1, h.2⟩

end Lock

namespace Twins

theorem symm (h : Twins H s t) : Twins H t s :=
  ⟨h.db.symm, h.changeLog.symm, h.accountStartNonce.symm, h.view.symm, fun x => (h.clean x).symm⟩

theorem of_reads (h : Twins H s t) (hs : Reads H s s') (ht : Reads H t t') : Twins H s' t' :=
  (hs.toTwins.symm.trans h).trans ht.toTwins

theorem put {c c' : Option Account} (h : Twins H s t)
    (hs : s'.cache = Function.update s.cache addr c)
    (ht : t'.cache = Function.update t.cache addr c')
    (hsdb : s'.db = s.db) (htdb : t'.db = t.db)
    (hnonce : t'.accountStartNonce = s'.accountStartNonce) (hlog : t'.changeLog = s'.changeLog)
    (hview : c'.map (Account.view H s.db) = c.map (Account.view H s.db))
    (hflag : c'.all (·.isUnchanged) = c.all (·.isUnchanged)) : Twins H s' t' := by
  refine ⟨htdb.trans (h.db.trans hsdb.symm), hlog, hnonce, ?_, fun x => ?_⟩
  · rw [view_replaced hs hsdb rfl, view_replaced ht htdb rfl, h.view, h.db, hview]
  · rw [hs, ht]
    by_cases hx : x = addr
    · rw [hx, update_self, update_self, hflag]
    · rw [update_of_ne hx, update_of_ne hx, h.clean]

theorem log (h : Twins H s t) (c : Change) : Lock H s t (State.log c) :=
  ⟨rfl, h.db, congrArg (c :: ·) h.changeLog, h.accountStartNonce, h.view, h.clean⟩

/-- Where both caches have the account or none has. -/
theorem peers (h : Twins H s t) (hc : (t.cache addr).isSome = (s.cache addr).isSome) :
    Peers H s.db ((s.cache addr).getD (.dead H)) ((t.cache addr).getD (.dead H)) := by
  have hview := congrFun h.view addr
  have hflag := h.clean addr
  cases ha : s.cache addr with
  | none =>
    rw [ha] at hc
    rw [not_isSome_iff_eq_none.mp (Bool.eq_false_iff.mp hc)]
    exact ⟨rfl, rfl⟩
  | some a =>
    rw [ha] at hc
    obtain ⟨b, hb⟩ := isSome_iff_exists.mp hc
    rw [view_of_cache ha, view_of_cache hb, h.db] at hview
    rw [ha, hb] at hflag
    rw [hb]
    exact ⟨some.inj hview, hflag⟩

theorem cached (h : Twins H s t) (hd : s.Dirty addr) :
    (t.cache addr).isSome = (s.cache addr).isSome := by
  obtain ⟨b, hb, -⟩ := h.dirty_of hd
  obtain ⟨a, ha, -⟩ := hd
  rw [ha, hb]
  rfl

theorem update {f : Account → Account} (h : Twins H s t)
    (hc : (t.cache addr).isSome = (s.cache addr).isSome)
    (hf : ∀ {a b : Account}, Peers H s.db a b → Peers H s.db (f a) (f b)) :
    Lock H s t (State.update H addr f) := by
  obtain ⟨hview, hflag⟩ := hf (h.peers hc)
  exact ⟨rfl, h.put rfl rfl rfl rfl h.accountStartNonce h.changeLog (congrArg some hview) hflag⟩

theorem createAccount (h : Twins H s t) (addr : Address) (a : Account) :
    Lock H s t (State.createAccount H addr a) :=
  ⟨rfl, h.put rfl rfl rfl rfl h.accountStartNonce (congrArg (Change.create addr :: ·) h.changeLog)
    rfl rfl⟩

theorem requireAccountStartNonce (h : Twins H s t) :
    Lock H s t State.requireAccountStartNonce.run := by
  refine Lock.get (f := fun s => (if s.accountStartNonce = BitVec.allOnes 256 then
      throw StateError.InvalidAccountStartNonceInState
    else pure s.accountStartNonce : StateOp U256).run)
    (by rw [h.accountStartNonce]) ?_
  split_ifs
  · exact ⟨rfl, h⟩
  · exact ⟨rfl, h⟩

theorem undo (h : Twins H s t) (c : Change) (hd : s.Dirty c.address) :
    Lock H s t (State.undo H c) := by
  have hplace {f : Account → Account}
      (hf : ∀ {a b : Account}, Peers H s.db a b → Peers H s.db (f a) (f b)) :=
    h.update (h.cached hd) hf
  cases c with
  | balance x value =>
    exact hplace fun hp =>
      ⟨congrArg (fun w => { w with balance := w.balance + (0 - value) }) hp.1, rfl⟩
  | storage x key value =>
    exact hplace fun hp => ⟨by rw [Account.view_setStorage, Account.view_setStorage, hp.1], rfl⟩
  | storageRoot x value =>
    exact hplace fun hp => ⟨congrArg (fun w =>
      { w with storageRoot := value, storage := s.db.storage value }) hp.1, rfl⟩
  | nonce x value =>
    exact hplace fun hp => ⟨congrArg (fun w => { w with nonce := value }) hp.1, rfl⟩
  | code x oldCode =>
    exact hplace fun hp => ⟨by rw [Account.view_setCode, Account.view_setCode, hp.1], hp.2⟩
  | create x => exact ⟨rfl, h.put rfl rfl rfl rfl h.accountStartNonce h.changeLog rfl rfl⟩
  | touch x =>
    exact (hplace (f := Account.untouch) fun hp => ⟨hp.1, rfl⟩).bind fun _ h₁ =>
      ⟨rfl, h₁.db, h₁.changeLog, h₁.accountStartNonce, h₁.view, h₁.clean⟩

theorem undoNewest (h : Twins H s t) (hs : Since H s₀ s) (hground : s₀.changeLog = []) (n : ℕ) :
    Lock H s t (State.undoNewest H n) := by
  induction n generalizing s t with
  | zero => exact ⟨rfl, h⟩
  | succ n ih =>
    unfold State.undoNewest
    refine .get (by rw [h.changeLog]) ?_
    cases hlog : s.changeLog with
    | nil => exact ⟨rfl, h⟩
    | cons c rest =>
      have hlen : s₀.savepoint ≤ rest.length := by simp [savepoint, hground]
      obtain ⟨-, -, -, hd, -⟩ := hs.newest hlog hlen
      refine (h.undo c hd).bind fun _ h₁ => ?_
      have h₂ : Twins H { ((State.undo H c).run s).2 with changeLog := rest }
          { ((State.undo H c).run t).2 with changeLog := rest } :=
        ⟨h₁.db, rfl, h₁.accountStartNonce, h₁.view, h₁.clean⟩
      exact ih h₂ (since_undo hs hlog hlen)

section
variable (h : Twins H s t) (hs : s.Sound H) (ht : t.Sound H)
include h hs ht

/-- Both caches have the account after it is looked up, or there is none. -/
theorem account {k : Option Account → StateM State α}
    (hk : ∀ {a b : Account}, Peers H s.db a b → k (some b) = k (some a))
    (hnone : ∀ {s₁ t₁ : State}, Twins H s₁ t₁ → Lock H s₁ t₁ (k none))
    (hsome : ∀ {s₁ t₁ : State} (a : Account), Twins H s₁ t₁ → s₁.Sound H → t₁.Sound H →
      (t₁.cache addr).isSome = (s₁.cache addr).isSome → Lock H s₁ t₁ (k (some a))) :
    Lock H s t (State.account H addr >>= k) := by
  show Post (State.account H addr) s fun r s₁ =>
    Post (State.account H addr) t fun r' t₁ => Post (k r) s₁ fun c s' =>
      Post (k r') t₁ fun c' t' => c' = c ∧ Twins H s' t'
  refine (account_spec hs addr).mono ?_
  rintro r s₁ ⟨hr, rfl, hv⟩
  refine (account_spec ht addr).mono ?_
  rintro r' t₁ ⟨hr', rfl, hv'⟩
  have h₁ := h.of_reads hr hr'
  rw [h.view, hv] at hv'
  have hc : (t₁.cache addr).isSome = (s₁.cache addr).isSome := by
    rw [← isSome_map, ← hv', isSome_map]
  cases ha : s₁.cache addr with
  | none =>
    rw [ha] at hc
    rw [not_isSome_iff_eq_none.mp (Bool.eq_false_iff.mp hc)]
    exact hnone h₁
  | some a =>
    have hp := h₁.peers hc
    obtain ⟨b, hb⟩ := isSome_iff_exists.mp (hc.trans (congrArg isSome ha))
    rw [ha, hb, getD_some, getD_some, hr.db] at hp
    rw [hb, hk hp]
    exact hsome a h₁ hr.sound hr'.sound hc

theorem incNonce (addr : Address) : Lock H s t (State.incNonce H addr).run := by
  unfold State.incNonce
  rw [lock_lift]
  refine h.account hs ht (fun {a b} hp => ?_) (fun h₁ => ?_) fun a h₁ _ _ hc => ?_
  · have hn : b.nonce = a.nonce := congrArg AccountView.nonce hp.1
    simp only [hn]
  · exact h₁.requireAccountStartNonce.bindE fun _ h₂ => (h₂.createAccount addr _).lift
  · refine (h₁.update hc fun hp => ⟨?_, rfl⟩).lift.bindE fun _ h₂ => (h₂.log _).lift
    exact congrArg (fun w => { w with nonce := w.nonce + 1 }) hp.1

theorem setNonce (addr : Address) (newNonce : U256) :
    Lock H s t (State.setNonce H addr newNonce) := by
  unfold State.setNonce
  refine h.account hs ht (fun {a b} hp => ?_) (fun h₁ => h₁.createAccount addr _)
    fun a h₁ _ _ hc => ?_
  · have hn : b.nonce = a.nonce := congrArg AccountView.nonce hp.1
    simp only [hn]
  · refine (h₁.update hc fun hp => ⟨?_, rfl⟩).bind fun _ h₂ => h₂.log _
    exact congrArg (fun w => { w with nonce := newNonce }) hp.1

theorem kill (addr : Address) : Lock H s t (State.kill H addr) := by
  unfold State.kill
  refine h.account hs ht (fun _ => rfl) (fun h₁ => ⟨rfl, h₁⟩) fun a h₁ _ _ hc => ?_
  refine h₁.update hc fun hp => ⟨?_, rfl⟩
  simp [Account.view, Account.kill]

theorem setStorage (addr : Address) (key value : U256) :
    Lock H s t (State.setStorage H addr key value) := by
  unfold State.setStorage
  obtain ⟨hr, hreads, hc⟩ := storage_spec hs addr key
  obtain ⟨hr', hreads', hc'⟩ := storage_spec ht addr key
  rw [h.view, ← hr] at hr'
  rw [h.view, ← hc] at hc'
  have hread : Lock H s t (State.storage H addr key) := ⟨hr', h.of_reads hreads hreads'⟩
  refine hread.bind fun v h₁ => (h₁.log _).bind fun _ h₂ => h₂.update hc' fun hp => ⟨?_, rfl⟩
  rw [Account.view_setStorage, Account.view_setStorage, hp.1]

theorem setCode (addr : Address) (newCode : Bytes) : Lock H s t (State.setCode H addr newCode) := by
  unfold State.setCode
  obtain ⟨hr, hreads, hc⟩ := code_spec hs addr
  obtain ⟨hr', hreads', hc'⟩ := code_spec ht addr
  rw [h.view, ← hr] at hr'
  rw [h.view, ← hc] at hc'
  have hread : Lock H s t (State.code H addr) := ⟨hr', h.of_reads hreads hreads'⟩
  refine hread.bind fun v h₁ => (h₁.log _).bind fun _ h₂ => h₂.update hc' fun hp => ⟨?_, hp.2⟩
  rw [Account.view_setCode, Account.view_setCode, hp.1]

theorem addBalance (addr : Address) (amount : U256) :
    Lock H s t (State.addBalance H addr amount).run := by
  have hlast {s t : State} (h : Twins H s t) :
      Lock H s t (if amount ≠ 0 then liftM (State.log (.balance addr amount)) else pure () :
        StateOp Unit).run := by
    split_ifs
    · exact (h.log _).lift
    · exact ⟨rfl, h⟩
  have hadd {s t : State} (h : Twins H s t) (hc : (t.cache addr).isSome = (s.cache addr).isSome) :=
    (h.update (f := (·.addBalance amount)) hc fun hp =>
      ⟨congrArg (fun w => { w with balance := w.balance + amount }) hp.1, rfl⟩).lift.bindE
        fun _ => hlast
  unfold State.addBalance
  rw [lock_lift]
  refine h.account hs ht (fun {a b} hp => ?_) (fun h₁ => ?_) fun a h₁ _ _ hc => ?_
  · have hdirty : b.isDirty = a.isDirty := congrArg not hp.2
    have hempty : b.isEmpty H = a.isEmpty H := congrArg (AccountView.isEmpty H) hp.1
    simp only [hdirty, hempty]
  · exact h₁.requireAccountStartNonce.bindE fun _ h₂ =>
      (h₂.createAccount addr _).lift.bindE fun _ => hlast
  · dsimp only
    by_cases htouch : !a.isDirty ∧ a.isEmpty H
    · rw [if_pos htouch]
      exact (h₁.log (.touch addr)).lift.bindE fun _ h₂ => hadd h₂ hc
    · rw [if_neg htouch]
      exact hadd h₁ hc

theorem subBalance (addr : Address) (value : U256) :
    Lock H s t (State.subBalance H addr value).run := by
  unfold State.subBalance
  by_cases hzero : value = 0
  · rw [if_pos hzero]
    exact ⟨rfl, h⟩
  · rw [if_neg hzero, lock_lift]
    refine h.account hs ht (fun {a b} hp => ?_) (fun h₁ => ⟨rfl, h₁⟩) fun a h₁ hs₁ ht₁ _ => ?_
    · have hbalance : b.balance = a.balance := congrArg AccountView.balance hp.1
      simp only [hbalance]
    · dsimp only
      split_ifs
      · exact ⟨rfl, h₁⟩
      · exact h₁.addBalance hs₁ ht₁ addr (0 - value)

theorem transferBalance (src dst : Address) (value : U256) :
    Lock H s t (State.transferBalance H src dst value).run := by
  refine (h.subBalance hs ht src value).bindE fun _ h₁ => ?_
  have hsound : KeepsE (Sound H) (State.subBalance H src value) := fun _ hs =>
    (later_subBalance hs value).mono (fun _ _ hl => hl.sound hs) fun _ hl => hl.sound hs
  exact h₁.addBalance (hsound.run s hs) (hsound.run t ht) dst value

omit hs ht in
theorem createContract (addr : Address) : Lock H s t (State.createContract H addr).run :=
  h.requireAccountStartNonce.bindE fun _ h₁ => (h₁.createAccount addr _).lift

omit hs ht in
theorem clearStorage (hd : s.Dirty addr) : Lock H s t (State.clearStorage H addr) := by
  have hsame {s : State} (hd : s.Dirty addr) : (State.update H addr id).run s = ((), s) := by
    obtain ⟨a, ha, -⟩ := hd
    show ((), { s with
      cache := Function.update s.cache addr (some ((s.cache addr).getD (.dead H))) }) = _
    rw [ha, getD_some, ← ha, update_eq_self]
  have hc := h.cached hd
  have hroot : ((t.cache addr).getD (.dead H)).storageRoot = _ :=
    congrArg AccountView.storageRoot (h.peers hc).1
  refine (h.update (f := id) hc id).bind fun _ h₁ => ?_
  rw [hsame hd, hsame (h.dirty_of hd)]
  refine .get (by simp only [hroot]; rfl) ?_
  dsimp only
  split_ifs
  · exact ⟨rfl, h⟩
  · exact (h.log _).bind fun _ h₂ => h₂.update hc fun hp => ⟨congrArg (fun w =>
      { w with storageRoot := H.emptyTrie, storage := s.db.storage H.emptyTrie }) hp.1, rfl⟩

end

end Twins
end State
end Vapory
