import Vapory.State.View

/-! The change log takes a state back. `Since` relates a state to the one at a savepoint; every
operation keeps it, and a rollback to the savepoint leads back to the same view. -/
namespace Vapory
open Function List Option

namespace Account
variable {H : Hasher} {db : StateDB} (a : Account)

theorem view_addBalance (value : U256) :
    (a.addBalance value).view H db = { a.view H db with balance := a.balance + value } := rfl

theorem addBalance_addBalance (x y : U256) : (a.addBalance x).addBalance y = a.addBalance (x + y) := by
  simp only [addBalance, BitVec.add_assoc]

theorem new_addBalance (nonce value : U256) :
    (new H nonce 0).addBalance value = new H nonce value := by
  have h0 : 0 + value = value := BitVec.zero_add value
  rw [addBalance, new, h0]
  rfl

theorem view_addBalance_zero : (a.addBalance 0).view H db = a.view H db := by
  have h0 : a.balance + 0 = a.balance := BitVec.add_zero a.balance
  rw [view_addBalance, h0]
  rfl

theorem view_setStorage (p v : U256) :
    (a.setStorage p v).view H db =
    { a.view H db with storage := Function.update (a.view H db).storage p v } := by
  refine AccountView.ext rfl rfl rfl rfl rfl rfl (funext fun k => ?_)
  by_cases hk : k = p
  · simp [Account.view, setStorage, hk]
  · simp [Account.view, setStorage, update_of_ne hk]

theorem view_setCode (code : Bytes) :
    (a.setCode H code).view H db =
      { a.view H db with
        codeHash := H.hash code, code := if H.hash code = H.emptySHA3 then [] else code } := by
  refine AccountView.ext rfl rfl rfl rfl rfl ?_ rfl
  by_cases hcode : code = []
  · simp [Account.view, setCode, hcode, Hasher.emptySHA3]
  · simp [Account.view, setCode, hcode]

theorem coded_setCode (code : Bytes) :
    H.hash ((a.setCode H code).view H db).code = (a.setCode H code).codeHash := by
  rw [view_setCode, setCode]
  simp only
  split_ifs with hempty
  · exact hempty.symm
  · rfl

end Account

/-- What undoing a change does to what can be observed of its account. -/
def Change.undoAccount (H : Hasher) (db : StateDB) (c : Change) (a : AccountView) :
    Option AccountView :=
  match c with
  | .balance _ value => some { a with balance := a.balance + (0 - value) }
  | .storage _ key value => some { a with storage := Function.update a.storage key value }
  | .storageRoot _ value => some { a with storageRoot := value, storage := db.storage value }
  | .nonce _ value => some { a with nonce := value }
  | .create _ => none
  | .code _ oldCode =>
    some { a with codeHash := H.hash oldCode, code := if H.hash oldCode = H.emptySHA3 then [] else oldCode }
  | .touch _ => some a

def Change.undoView (H : Hasher) (db : StateDB) (c : Change) (v : View) : View :=
  Function.update v c.address ((v c.address).bind (c.undoAccount H db))

/-- After a creation or a touch is undone, the account is left to the database. So it is
the database's account then, it was not dirty before, and no older change is about it. -/
def Change.Revocable (H : Hasher) (db : StateDB) (dirty : Address → Prop) (c : Change)
    (older : List Change) (v : View) : Prop :=
  match c with
  | .create a => db.account a = none ∧ ¬ dirty a ∧ ∀ e ∈ older, e.address ≠ a
  | .touch a => v a = db.view H a ∧ ¬ dirty a ∧ ∀ e ∈ older, e.address ≠ a
  | _ => True

/-- Undoing the changes, the newest first, leads from the view back to `v₀`. -/
inductive Reverts (H : Hasher) (db : StateDB) (dirty : Address → Prop) (v₀ : View) :
    List Change → View → Prop where
  | nil : Reverts H db dirty v₀ [] v₀
  | cons {c : Change} {older : List Change} {v : View} (hc : c.Revocable H db dirty older v)
      (h : Reverts H db dirty v₀ older (c.undoView H db v)) : Reverts H db dirty v₀ (c :: older) v

namespace State

/-- The account is in the cache and dirty, so that it stays there. -/
def Dirty (s : State) (addr : Address) : Prop := ∃ a, s.cache addr = some a ∧ a.isUnchanged = false

theorem Dirty.existing {H : Hasher} {s : State} {addr : Address} (h : s.Dirty addr) :
    (s.view H addr).isSome := by
  obtain ⟨a, ha, -⟩ := h
  rw [view_of_cache ha]
  rfl

/-- `s` came from `s₀` by changes that its log can take back. -/
structure Since (H : Hasher) (s₀ s : State) : Prop where
  sound : s.Sound H
  db : s.db = s₀.db
  accountStartNonce : s.accountStartNonce = s₀.accountStartNonce
  dirty : ∀ addr, s₀.Dirty addr → s.Dirty addr
  log : ∃ es, s.changeLog = es ++ s₀.changeLog ∧ (∀ c ∈ es, s.Dirty c.address) ∧
    Reverts H s.db s₀.Dirty (s₀.view H) es (s.view H)

variable {H : Hasher} {s₀ s s' : State} {addr : Address}

theorem dirty_iff : s.Dirty addr ↔ (s.cache addr).all (·.isUnchanged) = false := by
  unfold Dirty
  cases s.cache addr with
  | none => simp
  | some a => simp

theorem Twins.dirty_of (h : Twins H s s') (hd : s.Dirty addr) : s'.Dirty addr :=
  dirty_iff.mpr ((h.clean addr).trans (dirty_iff.mp hd))

namespace Since

theorem refl (h : s.Sound H) : Since H s s :=
  ⟨h, rfl, rfl, fun _ hd => hd, [], rfl, (by simp), .nil⟩

theorem read (h : Since H s₀ s) (hr : Reads H s s') : Since H s₀ s' := by
  obtain ⟨es, hlog, hdirty, hrev⟩ := h.log
  refine ⟨hr.sound, hr.db.trans h.db, hr.accountStartNonce.trans h.accountStartNonce,
    fun x hx => hr.dirty_of (h.dirty x hx), es, hr.changeLog.trans hlog, fun c hc =>
    hr.dirty_of (hdirty c hc), ?_⟩
  rw [hr.db, hr.view]
  exact hrev

theorem view_eq (h : Since H s₀ s) (hlen : s.savepoint = s₀.savepoint) : s.view H = s₀.view H := by
  obtain ⟨es, hlog, -, hrev⟩ := h.log
  have hes : es = [] := by
    apply length_eq_zero_iff.mp
    have := congrArg List.length hlog
    rw [length_append] at this
    unfold savepoint at hlen
    omega
  subst hes
  generalize s.view H = v at hrev ⊢
  cases hrev
  rfl

end Since

section
variable {c : Option Account} (hcache : s'.cache = Function.update s.cache addr c)
  (hdb : s'.db = s.db)
include hcache hdb

theorem view_replaced {v : Option AccountView}
    (hv : (c.map (Account.view H s.db)).or (s.db.view H addr) = v) :
    s'.view H = Function.update (s.view H) addr v := by
  funext x
  unfold State.view
  rw [hcache, hdb]
  by_cases hx : x = addr
  · subst hx
    cases c <;> simpa using hv
  · simp [update_of_ne hx]

theorem sound_replaced (hs : s.Sound H)
    (habsent : ∀ x, s'.nonExistingAccountsCache x = true → s.nonExistingAccountsCache x = true)
    (hclean : ∀ a, c = some a → a.isUnchanged = true → s.db.view H addr = some (a.view H s.db))
    (hcoded : ∀ a, c = some a → H.hash (a.view H s.db).code = a.codeHash) : s'.Sound H := by
  refine ⟨fun x a ha hu => ?_, fun x hx => ?_, fun x a ha => ?_, ?_⟩
  · rw [hcache] at ha
    rw [hdb]
    by_cases hx : x = addr
    · subst hx
      exact hclean a (by rwa [update_self] at ha) hu
    · exact hs.clean x a (by rwa [update_of_ne hx] at ha) hu
  · rw [hdb]
    exact hs.absent x (habsent x hx)
  · rw [hcache] at ha
    rw [hdb]
    by_cases hx : x = addr
    · subst hx
      exact hcoded a (by rwa [update_self] at ha)
    · exact hs.coded x a (by rwa [update_of_ne hx] at ha)
  · rw [hdb]
    exact hs.stored

omit hdb in
theorem dirty_replaced {x : Address} (hx : x ≠ addr) (h : s.Dirty x) : s'.Dirty x := by
  obtain ⟨a, ha, hu⟩ := h
  exact ⟨a, by rw [hcache, update_of_ne hx, ha], hu⟩

end

/-- `s'` is `s` with the changed account `a` at `addr`. -/
structure Writes (s s' : State) (addr : Address) (a : Account) : Prop where
  cache : s'.cache = Function.update s.cache addr (some a)
  changed : a.isUnchanged = false
  db : s'.db = s.db
  accountStartNonce : s'.accountStartNonce = s.accountStartNonce
  nonExisting : ∀ x, s'.nonExistingAccountsCache x = true → s.nonExistingAccountsCache x = true

namespace Writes
variable {a : Account}

theorem view (h : Writes s s' addr a) :
    s'.view H = Function.update (s.view H) addr (some (a.view H s.db)) :=
  view_replaced h.cache h.db rfl

theorem dirty_self (h : Writes s s' addr a) : s'.Dirty addr :=
  ⟨a, by rw [h.cache, update_self], h.changed⟩

theorem dirty_of (h : Writes s s' addr a) {x : Address} (hd : s.Dirty x) : s'.Dirty x := by
  by_cases hx : x = addr
  · exact hx ▸ h.dirty_self
  · exact dirty_replaced h.cache hx hd

theorem sound (h : Writes s s' addr a) (hs : s.Sound H)
    (hcoded : H.hash (a.view H s.db).code = a.codeHash) : s'.Sound H := by
  refine sound_replaced h.cache h.db hs h.nonExisting ?_ ?_
  · rintro _ ⟨⟩ hu
    rw [h.changed] at hu
    cases hu
  · rintro _ ⟨⟩
    exact hcoded

end Writes

namespace Since
variable {a : Account}

theorem mark (h : Since H s₀ s) (hw : Writes s s' addr a) (hlog : s'.changeLog = s.changeLog)
    (hview : s.view H addr = some (a.view H s.db))
    (hcoded : H.hash (a.view H s.db).code = a.codeHash) : Since H s₀ s' := by
  obtain ⟨es, hes, hdirty, hrev⟩ := h.log
  refine ⟨hw.sound h.sound hcoded, hw.db.trans h.db, hw.accountStartNonce.trans h.accountStartNonce,
    fun x hx => hw.dirty_of (h.dirty x hx), es, hlog.trans hes, fun c hc =>
    hw.dirty_of (hdirty c hc), ?_⟩
  rw [hw.db, hw.view, ← hview, update_eq_self]
  exact hrev

theorem push (h : Since H s₀ s) {c : Change} (hw : Writes s s' c.address a)
    (hlog : s'.changeLog = c :: s.changeLog) (hundo : c.undoView H s.db (s'.view H) = s.view H)
    (hcoded : H.hash (a.view H s.db).code = a.codeHash)
    (hok : ∀ es : List Change, (∀ e ∈ es, s.Dirty e.address) → c.Revocable H s.db s₀.Dirty es (s'.view H)) :
    Since H s₀ s' := by
  obtain ⟨es, hes, hdirty, hrev⟩ := h.log
  refine ⟨hw.sound h.sound hcoded, hw.db.trans h.db, hw.accountStartNonce.trans h.accountStartNonce,
    fun x hx => hw.dirty_of (h.dirty x hx), c :: es, by rw [hlog, hes, cons_append], ?_, ?_⟩
  · rintro e he
    rcases mem_cons.mp he with rfl | he
    · exact hw.dirty_self
    · exact hw.dirty_of (hdirty e he)
  · rw [hw.db]
    exact .cons (hok es hdirty) (hundo ▸ hrev)

theorem unlogged (h : Since H s₀ s) {es : List Change} (hes : ∀ e ∈ es, s.Dirty e.address)
    (hclean : ¬ s.Dirty addr) : ¬ s₀.Dirty addr ∧ ∀ e ∈ es, e.address ≠ addr := by
  refine ⟨fun hd => hclean (h.dirty addr hd), ?_⟩
  rintro e he rfl
  exact hclean (hes e he)

end Since

theorem undoView_writes {c : Change} {a : Account} (hw : Writes s s' c.address a)
    (h : c.undoAccount H s.db (a.view H s.db) = s.view H c.address) :
    c.undoView H s.db (s'.view H) = s.view H := by
  rw [Change.undoView, hw.view, update_self, bind_some, update_idem, h,
    update_eq_self]

/-- Nothing is in the storage trie of the account, if there is one. -/
def EmptyRoot (H : Hasher) (w : Option AccountView) : Prop :=
  ∀ v, w = some v → v.storageRoot = H.emptyTrie

/-- What an account may become: it does not cease to exist, and an empty root stays. -/
structure Tame (H : Hasher) (w w' : Option AccountView) : Prop where
  existing : w.isSome → w'.isSome
  emptyRoot : EmptyRoot H w → EmptyRoot H w'

theorem Tame.refl (w : Option AccountView) : Tame H w w := ⟨id, id⟩

theorem Tame.trans {w₁ w₂ w₃ : Option AccountView} (h₁ : Tame H w₁ w₂) (h₂ : Tame H w₂ w₃) :
    Tame H w₁ w₃ :=
  ⟨fun h => h₂.existing (h₁.existing h), fun h => h₂.emptyRoot (h₁.emptyRoot h)⟩

/-- `s'` came from `s` by changes that the log can take back, to this state and to any before. -/
structure Later (H : Hasher) (s s' : State) : Prop where
  since : ∀ s₀, Since H s₀ s → Since H s₀ s'
  tame : ∀ addr, Tame H (s.view H addr) (s'.view H addr)

namespace Later

theorem refl (s : State) : Later H s s := ⟨fun _ h => h, fun _ => .refl _⟩

theorem trans {s₁ s₂ s₃ : State} (h₁ : Later H s₁ s₂) (h₂ : Later H s₂ s₃) : Later H s₁ s₃ :=
  ⟨fun s₀ h => h₂.since s₀ (h₁.since s₀ h), fun addr => (h₁.tame addr).trans (h₂.tame addr)⟩

theorem of_reads (hr : Reads H s s') : Later H s s' :=
  ⟨fun _ h => h.read hr, fun _ => hr.view ▸ .refl _⟩

theorem sound (h : Later H s s') (hs : s.Sound H) : s'.Sound H := (h.since s (.refl hs)).sound

end Later

theorem later_create (hview : s.view H addr = none) (nonce : U256) :
    Later H s { s with
      cache := Function.update s.cache addr (some (.new H nonce 0))
      nonExistingAccountsCache := Function.update s.nonExistingAccountsCache addr false
      changeLog := .create addr :: s.changeLog } := by
  have hnone := cache_of_view_none hview
  have hdb : s.db.account addr = none := by
    rw [view_of_cache_none hnone, StateDB.view, map_eq_none_iff] at hview
    exact hview
  have hw : Writes s { s with
      cache := Function.update s.cache addr (some (.new H nonce 0))
      nonExistingAccountsCache := Function.update s.nonExistingAccountsCache addr false
      changeLog := .create addr :: s.changeLog } addr (.new H nonce 0) := by
    refine ⟨rfl, rfl, rfl, rfl, fun x hx => ?_⟩
    by_cases hxa : x = addr
    · simp [hxa] at hx
    · simpa [update_of_ne hxa] using hx
  refine ⟨fun s₀ h => ?_, fun x => ?_⟩
  · refine h.push (c := .create addr) hw rfl (undoView_writes hw hview.symm) ?_ fun es hes =>
      ⟨hdb, h.unlogged hes ?_⟩
    · simp [Account.new, Account.dead, Account.view, Hasher.emptySHA3]
    · rintro ⟨a, ha, -⟩
      rw [hnone] at ha
      cases ha
  · rw [hw.view]
    by_cases hx : x = addr
    · rw [hx, update_self, hview]
      refine ⟨fun _ => rfl, fun _ _ hv => ?_⟩
      cases hv
      rfl
    · rw [update_of_ne hx]
      exact .refl _

theorem later_write {a a' : Account} (ha : s.cache addr = some a) (c : Change)
    (haddr : c.address = addr) (hchanged : a'.isUnchanged = false)
    (hundo : c.undoAccount H s.db (a'.view H s.db) = some (a.view H s.db))
    (hcoded : H.hash (a'.view H s.db).code = a'.codeHash)
    (hok : ∀ s₀, Since H s₀ s → ∀ es : List Change, (∀ e ∈ es, s.Dirty e.address) →
      c.Revocable H s.db s₀.Dirty es (Function.update (s.view H) addr (some (a'.view H s.db))))
    (hroot : a'.storageRoot = a.storageRoot) : Later H s { s with
      cache := Function.update s.cache addr (some a'), changeLog := c :: s.changeLog } := by
  subst haddr
  have hw : Writes s { s with
      cache := Function.update s.cache c.address (some a'), changeLog := c :: s.changeLog }
      c.address a' := ⟨rfl, hchanged, rfl, rfl, fun _ hx => hx⟩
  constructor
  · intro s₀ h
    refine h.push hw rfl (undoView_writes hw ?_) hcoded fun es hes => ?_
    · rw [hundo, view_of_cache ha]
    · rw [hw.view]
      exact hok s₀ h es hes
  · intro x
    rw [hw.view]
    by_cases hx : x = c.address
    · rw [hx, update_self, view_of_cache ha]
      refine ⟨fun _ => rfl, fun hempty _ hv => ?_⟩
      cases hv
      exact hroot.trans (hempty _ rfl)
    · rw [update_of_ne hx]
      exact .refl _

section
variable (hs : s.Sound H)
include hs

theorem later_balance {a : Account} (ha : s.cache addr = some a) (amount : U256) :
    Later H s { s with
      cache := Function.update s.cache addr (some (a.addBalance amount))
      changeLog := .balance addr amount :: s.changeLog } := by
  have hback : a.balance + amount + (0 - amount) = a.balance := by bv_omega
  refine later_write ha (.balance addr amount) rfl rfl ?_ (hs.coded addr a ha)
    (fun _ _ _ _ => trivial) rfl
  rw [Account.view_addBalance, Change.undoAccount, hback]
  rfl

theorem later_touch {a : Account} (ha : s.cache addr = some a) (hclean : a.isUnchanged = true) :
    Later H s { s with
      cache := Function.update s.cache addr (some (a.addBalance 0))
      changeLog := .touch addr :: s.changeLog } := by
  have hsame : (a.addBalance 0).view H s.db = a.view H s.db := a.view_addBalance_zero
  refine later_write ha (.touch addr) rfl rfl (by rw [hsame]; rfl) (hs.coded addr a ha)
    (fun s₀ h es hes =>
    ⟨?_, h.unlogged hes ?_⟩) rfl
  · rw [update_self, hsame, hs.clean addr a ha hclean]
  · rintro ⟨b, hb, hu⟩
    rw [ha] at hb
    cases hb
    rw [hclean] at hu
    cases hu

theorem later_mark {a : Account} (ha : s.cache addr = some a) :
    Later H s { s with cache := Function.update s.cache addr (some (a.addBalance 0)) } := by
  have hw : Writes s { s with cache := Function.update s.cache addr (some (a.addBalance 0)) } addr
    (a.addBalance 0) :=
    ⟨rfl, rfl, rfl, rfl, fun _ hx => hx⟩
  have hsame : s.view H addr = some ((a.addBalance 0).view H s.db) := by
    rw [view_of_cache ha, a.view_addBalance_zero]
  refine ⟨fun s₀ h => h.mark hw rfl hsame (hs.coded addr a ha), fun x => ?_⟩
  rw [hw.view, ← hsame, update_eq_self]
  exact .refl _

theorem later_addBalance (amount : U256) :
    PostE (addBalance H addr amount) s (fun _ s' => Later H s s') (Later H s) := by
  unfold addBalance
  simp only [postE_bind, postE_lift]
  refine (account_spec hs addr).mono ?_
  rintro (_ | a) s₁ ⟨hr, hc, hv⟩
  · have hread : Later H s s₁ := .of_reads hr
    simp only [requireAccountStartNonce, postE_bind, postE_get, postE_ite, postE_pure, postE_throw,
      postE_lift]
    have hnone : s₁.view H addr = none := by
      rw [hr.view, hv]
      rfl
    have hcreate := later_create hnone s₁.accountStartNonce
    simp only [createAccount, update, log, post_bind, post_modify]
    split_ifs with hinvalid hamount
    · exact hread
    · refine hread.trans (hcreate.trans ?_)
      simpa only [Account.new_addBalance, update_idem] using
        later_balance (hcreate.sound hr.sound) (update_self ..) amount
    · simpa only [not_not.mp hamount] using hread.trans hcreate
  · have hread : Later H s s₁ := .of_reads hr
    simp only [postE_bind, postE_ite, postE_lift, postE_pure, update, log, post_modify, hc, getD_some]
    split_ifs with htouch hamount hamount
    · have hclean : a.isUnchanged = true := by simpa [Account.isDirty] using htouch.1
      have ht := later_touch hr.sound hc hclean
      refine hread.trans (ht.trans ?_)
      simpa [Account.addBalance_addBalance] using
        later_balance (ht.sound hr.sound) (update_self ..) amount
    · have hclean : a.isUnchanged = true := by simpa [Account.isDirty] using htouch.1
      rw [not_not.mp hamount]
      exact hread.trans (later_touch hr.sound hc hclean)
    · exact hread.trans (later_balance hr.sound hc amount)
    · rw [not_not.mp hamount]
      exact hread.trans (later_mark hr.sound hc)

theorem later_subBalance (value : U256) :
    PostE (subBalance H addr value) s (fun _ s' => Later H s s') (Later H s) := by
  unfold subBalance
  simp only [postE_ite, postE_pure, postE_bind, postE_lift]
  split_ifs
  · exact .refl s
  · refine (account_spec hs addr).mono ?_
    rintro (_ | a) s₁ ⟨hr, -, -⟩
    · exact .of_reads hr
    · simp only [postE_ite, postE_throw, postE_bind]
      have hread : Later H s s₁ := .of_reads hr
      split_ifs
      · exact hread
      · exact (later_addBalance hr.sound _).mono (fun _ _ h => hread.trans h) fun _ h => hread.trans h

theorem later_transferBalance (src dst : Address) (value : U256) :
    PostE (transferBalance H src dst value) s (fun _ s' => Later H s s') (Later H s) := by
  unfold transferBalance
  rw [postE_bind]
  refine (later_subBalance hs value).mono (fun _ s₁ h₁ => ?_) fun _ h₁ => h₁
  exact (later_addBalance (h₁.sound hs) value).mono (fun _ _ h₂ => h₁.trans h₂) fun _ h₂ => h₁.trans h₂

theorem later_incNonce : PostE (incNonce H addr) s (fun _ s' => Later H s s') (Later H s) := by
  unfold incNonce
  simp only [postE_bind, postE_lift]
  refine (account_spec hs addr).mono ?_
  rintro (_ | a) s₁ ⟨hr, hc, hv⟩
  · have hread : Later H s s₁ := .of_reads hr
    simp only [requireAccountStartNonce, postE_bind, postE_get, postE_ite, postE_pure, postE_throw,
      postE_lift]
    split_ifs
    · exact hread
    · exact hread.trans (later_create (by rw [hr.view, hv]; rfl) _)
  · simp only [postE_bind, postE_lift, update, log, post_modify, hc, getD_some]
    exact (Later.of_reads hr).trans
      (later_write hc (.nonce addr a.nonce) rfl rfl rfl (hr.sound.coded addr a hc)
      (fun _ _ _ _ => trivial) rfl)

theorem later_setNonce (newNonce : U256) :
    Post (setNonce H addr newNonce) s fun _ s' => Later H s s' := by
  unfold setNonce
  rw [post_bind]
  refine (account_spec hs addr).mono ?_
  rintro (_ | a) s₁ ⟨hr, hc, hv⟩
  · exact (Later.of_reads hr).trans (later_create (by rw [hr.view, hv]; rfl) _)
  · simp only [post_bind, update, log, post_modify, hc, getD_some]
    exact (Later.of_reads hr).trans
      (later_write hc (.nonce addr a.nonce) rfl rfl rfl (hr.sound.coded addr a hc)
      (fun _ _ _ _ => trivial) rfl)

omit hs in
theorem later_createContract (hview : s.view H addr = none) :
    PostE (createContract H addr) s (fun _ s' => Later H s s') (Later H s) := by
  unfold createContract
  simp only [requireAccountStartNonce, postE_bind, postE_get, postE_ite, postE_pure, postE_throw,
    postE_lift]
  split_ifs
  · exact .refl s
  · exact later_create hview _

/-- The value read before is the one that the entry restores. -/
theorem later_setStorage (hview : (s.view H addr).isSome) (key value : U256) :
    Post (setStorage H addr key value) s fun _ s' => Later H s s' := by
  unfold setStorage
  rw [post_bind]
  refine (storage_spec hs addr key).mono ?_
  rintro old s₁ ⟨hold, hr, hcached⟩
  obtain ⟨a, ha⟩ := isSome_iff_exists.mp (hcached.trans hview)
  have hview₁ : s.view H addr = some (a.view H s₁.db) := by rw [← hr.view, view_of_cache ha]
  simp only [post_bind, update, log, post_modify, ha, getD_some]
  refine (Later.of_reads hr).trans
    (later_write ha (.storage addr key old) rfl rfl ?_ (hr.sound.coded addr a ha)
    (fun _ _ _ _ => trivial) rfl)
  rw [Account.view_setStorage, Change.undoAccount, hold, hview₁, map_some, getD_some,
    update_idem, update_eq_self]

/-- The code goes to an account that is dirty, so that undoing it finds the account. -/
theorem later_setCode (hdirty : s.Dirty addr) (newCode : Bytes) :
    Post (setCode H addr newCode) s fun _ s' => Later H s s' := by
  unfold setCode
  rw [post_bind]
  refine (code_spec hs addr).mono ?_
  rintro old s₁ ⟨hold, hr, -⟩
  obtain ⟨a, ha, hu⟩ := hr.dirty_of hdirty
  have hview₁ : s.view H addr = some (a.view H s₁.db) := by rw [← hr.view, view_of_cache ha]
  rw [hview₁, map_some, getD_some] at hold
  have hhash : H.hash old = a.codeHash := hold ▸ hr.sound.coded addr a ha
  simp only [post_bind, update, log, post_modify, ha, getD_some]
  refine (Later.of_reads hr).trans (later_write ha (.code addr old) rfl hu ?_ (a.coded_setCode newCode)
    (fun _ _ _ _ => trivial) rfl)
  rw [Account.view_setCode, Change.undoAccount, hhash, hold]
  refine congrArg some (AccountView.ext rfl rfl rfl rfl rfl ?_ rfl)
  simp only [Account.view]
  split_ifs <;> rfl

omit hs in
/-- There is nothing to clear. -/
theorem clearStorage_same (hdirty : s.Dirty addr) (hroot : EmptyRoot H (s.view H addr)) :
    Post (clearStorage H addr) s fun _ s' => s' = s := by
  obtain ⟨a, ha, -⟩ := hdirty
  have hempty : a.storageRoot = H.emptyTrie := hroot _ (view_of_cache ha)
  simp only [clearStorage, update, post_bind, post_modify, post_get, post_ite, post_pure, ha,
    getD_some, update_self, id]
  rw [← ha, update_eq_self, if_pos hempty]

end

theorem Since.newest {c : Change} {rest : List Change} (h : Since H s₀ s)
    (hlog : s.changeLog = c :: rest) (hlen : s₀.savepoint ≤ rest.length) :
    ∃ es, rest = es ++ s₀.changeLog ∧ (∀ e ∈ es, s.Dirty e.address) ∧ s.Dirty c.address ∧
      c.Revocable H s.db s₀.Dirty es (s.view H) ∧
      Reverts H s.db s₀.Dirty (s₀.view H) es (c.undoView H s.db (s.view H)) := by
  obtain ⟨es, hes, hdirty, hrev⟩ := h.log
  rw [hlog] at hes
  cases es with
  | nil =>
    have := congrArg List.length hes
    simp only [savepoint, nil_append, length_cons] at this hlen
    omega
  | cons e es =>
    cases hes
    cases hrev with
    | cons hc hrev =>
      exact ⟨es, rfl, fun e he => hdirty e (mem_cons_of_mem _ he), hdirty _ mem_cons_self, hc, hrev⟩

theorem since_undo {c : Change} {rest : List Change} (h : Since H s₀ s)
    (hlog : s.changeLog = c :: rest) (hlen : s₀.savepoint ≤ rest.length) :
    Post (undo H c) s fun _ s' => Since H s₀ { s' with changeLog := rest } := by
  obtain ⟨es, rfl, hdirty, ⟨a, ha, hu⟩, hc, hrev⟩ := h.newest hlog hlen
  have hcoded := h.sound.coded _ a ha
  -- a change in place, with what it makes of the account
  have hplace (f : Account → Account) (hf : (f a).isUnchanged = false)
      (hundo : c.undoAccount H s.db (a.view H s.db) = some ((f a).view H s.db))
      (hcoded : H.hash ((f a).view H s.db).code = (f a).codeHash) :
      Post (update H c.address f) s fun _ s' => Since H s₀ { s' with changeLog := es ++ s₀.changeLog } := by
    simp only [update, post_modify, ha, getD_some]
    have hw : Writes s { s with
        cache := Function.update s.cache c.address (some (f a)), changeLog :=
          es ++ s₀.changeLog } c.address (f a) :=
      ⟨rfl, hf, rfl, rfl, fun _ hx => hx⟩
    refine ⟨hw.sound h.sound hcoded, h.db, h.accountStartNonce, fun x hx =>
      hw.dirty_of (h.dirty x hx), es, rfl, fun e he => hw.dirty_of (hdirty e he), ?_⟩
    rw [hw.view, ← hundo]
    rwa [Change.undoView, view_of_cache ha, bind_some] at hrev
  cases c with
  | balance addr value => exact hplace _ rfl rfl hcoded
  | storage addr key value => exact hplace _ rfl (by rw [Account.view_setStorage]; rfl) hcoded
  | storageRoot addr value => exact hplace _ rfl rfl hcoded
  | nonce addr value => exact hplace _ rfl rfl hcoded
  | code addr oldCode =>
    exact hplace _ hu (by rw [Account.view_setCode]; rfl) (a.coded_setCode oldCode)
  | create addr =>
    simp only [undo, post_modify]
    refine ⟨sound_replaced rfl rfl h.sound (fun _ hx => hx) (by simp) (by simp), h.db, h.accountStartNonce,
      fun x hx => dirty_replaced rfl (fun hxa => hc.2.1 (hxa ▸ hx)) (h.dirty x hx), es, rfl,
      fun e he => dirty_replaced rfl (hc.2.2 e he) (hdirty e he), ?_⟩
    have hnone : s.db.view H addr = none := by rw [StateDB.view, hc.1, map_none]
    rw [Change.undoView, view_of_cache ha, bind_some] at hrev
    convert hrev using 1
    apply view_replaced
    · rfl
    · rfl
    · exact hnone
  | touch addr =>
    simp only [undo, update, post_bind, post_modify]
    have ha : s.cache addr = some a := ha
    have hview : s.db.view H addr = some (a.view H s.db) := hc.1.symm.trans (view_of_cache ha)
    rw [ha, getD_some]
    refine ⟨sound_replaced rfl rfl h.sound (fun _ hx => hx) ?_ ?_, h.db, h.accountStartNonce,
      fun x hx => dirty_replaced rfl (fun hxa => hc.2.1 (hxa ▸ hx)) (h.dirty x hx), es, rfl,
      fun e he => dirty_replaced rfl (hc.2.2 e he) (hdirty e he), ?_⟩
    · rintro _ ⟨⟩ _
      exact hview
    · rintro _ ⟨⟩
      exact hcoded
    · rw [Change.undoView, Change.address, view_of_cache ha, bind_some] at hrev
      convert hrev using 1
      apply view_replaced
      · rfl
      · rfl
      · rfl

theorem since_rollback {n : ℕ} (h : Since H s₀ s) (hlow : s₀.savepoint ≤ n) (hhigh : n ≤ s.savepoint) :
    Post (rollback H n) s fun _ s' => Since H s₀ s' ∧ s'.savepoint = n := by
  unfold rollback
  rw [post_bind, post_get]
  change n ≤ s.changeLog.length at hhigh
  obtain ⟨k, hk⟩ := Nat.exists_eq_add_of_le hhigh
  rw [show s.changeLog.length - n = k by omega]
  clear hhigh
  induction k generalizing s with
  | zero => exact ⟨h, hk⟩
  | succ k ih =>
    unfold undoNewest
    rw [post_bind, post_get]
    cases hlog : s.changeLog with
    | nil =>
      rw [hlog] at hk
      simp at hk
    | cons c rest =>
      have hlen : rest.length = n + k := by
        rw [hlog, length_cons] at hk
        omega
      simp only [post_bind, post_modify]
      exact (since_undo h hlog (by omega)).mono fun _ s₁ h₁ => ih h₁ hlen

theorem Since.savepoint_le (h : Since H s₀ s) : s₀.savepoint ≤ s.savepoint := by
  obtain ⟨es, hes, -, -⟩ := h.log
  simp [savepoint, hes]

theorem view_rollback (h : Since H s₀ s) :
    Post (rollback H s₀.savepoint) s fun _ s' => Since H s₀ s' ∧ s'.view H = s₀.view H :=
  (since_rollback h le_rfl h.savepoint_le).mono fun _ _ h' => ⟨h'.1, h'.1.view_eq h'.2⟩

theorem later_rollback {s₁ : State} (h₁ : Later H s s₁) (hs₁ : s₁.Sound H) (h₂ : Later H s₁ s') :
    Post (rollback H s₁.savepoint) s' fun _ s'' => Later H s s'' ∧ s''.view H = s₁.view H := by
  have hback := view_rollback (h₂.since s₁ (.refl hs₁))
  refine ⟨⟨fun s₀ h => ?_, fun addr => ?_⟩, hback.2⟩
  · have h₁₀ := h₁.since s₀ h
    exact (since_rollback (h₂.since s₀ h₁₀) h₁₀.savepoint_le
      (h₂.since s₁ (.refl hs₁)).savepoint_le).1
  · rw [hback.2]
    exact h₁.tame addr

end State
end Vapory
