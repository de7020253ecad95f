import Vapory.State.Evict
import Vapory.State.Steady

/-! What `commit` leaves of a state, if it keeps the empty accounts: all that can be read of it, as
long as the mutators have marked what they changed. -/
namespace Vapory
open Function List Option

/-- A living account. Its code is in its own cache if it is new, and else in the database. -/
structure Account.Whole (H : Hasher) (db : StateDB) (a : Account) : Prop where
  isAlive : a.isAlive = true
  fresh : a.codeHash ≠ H.emptySHA3 → a.hasNewCode = true → a.codeCache ≠ []
  stored : a.codeHash ≠ H.emptySHA3 → a.hasNewCode = false → a.codeCache = [] ∨
    a.codeCache = db.code a.codeHash

namespace Account
variable {H : Hasher} {db : StateDB} {a b : Account}

theorem Whole.congr (h : a.Whole H db) (hb : a.Alike b) : b.Whole H db := by
  constructor
  · exact hb.isAlive.trans h.isAlive
  · rw [hb.codeHash, hb.hasNewCode, hb.codeCache]
    exact h.fresh
  · rw [hb.codeHash, hb.hasNewCode, hb.codeCache]
    exact h.stored

theorem whole_load (st : StoredAccount) : (load H st).Whole H db :=
  ⟨rfl, fun _ hnew => (Bool.false_ne_true hnew).elim, fun _ _ => .inl rfl⟩

theorem whole_new (nonce balance : U256) : (new H nonce balance).Whole H db :=
  ⟨rfl, fun hne => absurd rfl hne, fun hne => absurd rfl hne⟩

theorem Whole.setCode (h : a.Whole H db) (code : Bytes) : (a.setCode H code).Whole H db := by
  refine ⟨h.isAlive, fun hne _ => ?_, fun _ hnew => (Bool.false_ne_true hnew.symm).elim⟩
  rintro (hnil : code = [])
  subst hnil
  exact hne rfl

theorem Whole.noteCode (h : a.Whole H db) (hne : a.codeHash ≠ H.emptySHA3)
    (hcode : a.codeCache = []) : (a.noteCode (db.code a.codeHash)).Whole H db :=
  ⟨h.isAlive, fun _ hnew => absurd hcode (h.fresh hne hnew), fun _ _ => .inr rfl⟩

end Account

namespace State
variable {H : Hasher} {roots : TrieRoots} {s s₀ s' : State} {addr : Address}

/-- The accounts of the cache are whole, and not among those that are known not to exist. -/
def Whole (H : Hasher) (s : State) : Prop :=
  ∀ addr a, s.cache addr = some a → a.Whole H s.db ∧ s.nonExistingAccountsCache addr = false

namespace Whole

theorem replaced (h : Whole H s) {c : Option Account}
    (hc : ∀ a, c = some a → a.Whole H s.db ∧ s'.nonExistingAccountsCache addr = false)
    (hcache : s'.cache = Function.update s.cache addr c) (hdb : s'.db = s.db)
    (habsent : ∀ x, x ≠ addr → s'.nonExistingAccountsCache x = s.nonExistingAccountsCache x) :
    Whole H s' := by
  intro x a ha
  rw [hcache] at ha
  rw [hdb]
  by_cases hx : x = addr
  · subst hx
    rw [update_self] at ha
    exact hc a ha
  · rw [update_of_ne hx] at ha
    rw [habsent x hx]
    exact h x a ha

theorem recached (h : Whole H s) {a b : Account} (ha : s.cache addr = some a)
    (hb : b.Whole H s.db) : Whole H { s with cache := Function.update s.cache addr (some b) } := by
  refine h.replaced (c := some b) ?_ rfl rfl fun _ _ => rfl
  rintro _ ⟨⟩
  exact ⟨hb, (h addr a ha).2⟩

theorem steady : Steady H (Whole H) where
  fields _ _ h := h
  drop addr h := h.replaced (c := none) (fun a ha => by cases ha) rfl rfl fun _ _ => rfl
  absent {s addr} h hnone x a ha := by
    have hx : x ≠ addr := by
      rintro rfl
      rw [hnone] at ha
      cases ha
    exact ⟨(h x a ha).1, (update_of_ne hx ..).trans (h x a ha).2⟩
  load {s addr st} h habsent _ := by
    refine h.replaced (c := some _) ?_ rfl rfl fun _ _ => rfl
    rintro _ ⟨⟩
    exact ⟨Account.whole_load st, habsent⟩
  replace h hc hb := h.recached hc ((h _ _ hc).1.congr hb)
  create addr nonce balance h := by
    refine h.replaced (c := some _) ?_ rfl rfl fun x hx => update_of_ne hx ..
    rintro _ ⟨⟩
    exact ⟨Account.whole_new nonce balance, update_self ..⟩
  log h _ := h

theorem keeps_code (addr : Address) : KeepsS (Whole H) (code H addr) := by
  intro s h
  unfold code
  rw [post_bind]
  refine (steady.account h addr).mono ?_
  rintro (_ | a) s₁ ⟨h₁, hc⟩
  · exact h₁
  · simp only [post_ite, post_pure]
    split_ifs with hempty hcode
    · exact h₁
    · simp only [post_bind, post_get, update, storeCodeSize, post_modify, post_pure, hc, getD_some]
      exact h₁.recached hc ((h₁ addr a hc).1.noteCode hempty hcode)
    · exact h₁

theorem keeps_codeSize (addr : Address) : KeepsS (Whole H) (codeSize H addr) := by
  refine (steady.keeps_account addr).bind fun o => ?_
  cases o with
  | none => exact keepsS_pure _
  | some a =>
    intro s h
    simp only [post_ite, post_bind, post_get, post_pure]
    split_ifs
    · exact h
    · cases s.codeSizes.find a.codeHash with
      | some size => exact h
      | none => exact (keeps_code addr s h).mono fun _ s' h' => h'

theorem setStorage (h : Whole H s) (hs : s.Sound H) (huse : (s.view H addr).isSome = true)
    (key value : U256) : Post (setStorage H addr key value) s fun _ s' => Whole H s' := by
  have hread : Post (storage H addr key) s fun _ s₁ => (s₁.cache addr).isSome = true ∧ Whole H s₁ :=
    ⟨(storage_spec hs addr key).2.2.trans huse, steady.keeps_storage addr key s h⟩
  unfold State.setStorage
  rw [post_bind]
  refine hread.mono fun old s₁ hs₁ => ?_
  obtain ⟨a, ha⟩ := isSome_iff_exists.mp hs₁.1
  simp only [post_bind, log, update, post_modify, ha, getD_some]
  exact hs₁.2.recached ha ((hs₁.2 addr a ha).1.congr ⟨rfl, rfl, rfl, rfl⟩)

theorem setCode (h : Whole H s) (hs : s.Sound H) (huse : (s.view H addr).isSome = true)
    (newCode : Bytes) : Post (setCode H addr newCode) s fun _ s' => Whole H s' := by
  have hread : Post (code H addr) s fun _ s₁ => (s₁.cache addr).isSome = true ∧ Whole H s₁ :=
    ⟨(code_spec hs addr).2.2.trans huse, keeps_code addr s h⟩
  unfold State.setCode
  rw [post_bind]
  refine hread.mono fun old s₁ hs₁ => ?_
  obtain ⟨a, ha⟩ := isSome_iff_exists.mp hs₁.1
  simp only [post_bind, log, update, post_modify, ha, getD_some]
  exact hs₁.2.recached ha ((hs₁.2 addr a ha).1.setCode newCode)

theorem clearStorage (h : Whole H s) {a : Account} (ha : s.cache addr = some a) :
    Post (clearStorage H addr) s fun _ s' => Whole H s' := by
  simp only [State.clearStorage, update, post_bind, post_modify, post_get, post_ite, post_pure, ha,
    getD_some, update_self, id, log]
  have hwhole := (h addr a ha).1
  split_ifs
  · exact h.recached ha hwhole
  · rw [update_idem]
    exact h.recached ha (hwhole.congr ⟨rfl, rfl, rfl, rfl⟩)

end Whole

/-- Storage is written of an account that there is, it is cleared of an account in the cache, and
code is set for an account that is dirty. Nothing is killed, and nothing rolled back. -/
def Mutation.Kept (H : Hasher) (s : State) : Mutation → Prop
  | op (.setStorage addr _ _) => ((addressInUse H addr).run s).1 = true
  | op (.setCode addr _) => ∃ a, s.cache addr = some a ∧ a.isDirty
  | op (.rollback _) => False
  | clearStorage addr => (s.cache addr).isSome = true
  | kill _ => False
  | _ => True

theorem sound_createContract (addr : Address) : KeepsE (Sound H) (createContract H addr) := by
  intro s hs
  simp only [createContract, requireAccountStartNonce, createAccount, update, log, postE_bind,
    postE_get, postE_ite, postE_pure, postE_throw, postE_lift, post_bind, post_modify]
  split_ifs
  · exact hs
  · have hw : Writes s { s with
        cache := Function.update s.cache addr (some (.new H s.accountStartNonce 0))
        nonExistingAccountsCache := Function.update s.nonExistingAccountsCache addr false
        changeLog := .create addr :: s.changeLog } addr (.new H s.accountStartNonce 0) := by
      refine ⟨rfl, rfl, rfl, rfl, fun x hx => ?_⟩
      by_cases hxa : x = addr
      · simp [hxa] at hx
      · simpa only [update_of_ne hxa] using hx
    exact hw.sound hs (by simp [Account.new, Account.dead, Account.view, Hasher.emptySHA3])

theorem Mutation.sound_exec (hs : s.Sound H) (m : Mutation) (hm : m.Kept H s) :
    Post (m.exec H) s fun _ s' => s'.Sound H := by
  have hop (o : Op) (ho : o.Allowed H s s) : Post (o.exec H) s fun _ s' => s'.Sound H :=
    (o.since_exec (.refl hs) ho).mono fun _ s' hs' => hs'.sound
  cases m with
  | kill addr => exact hm.elim
  | clearStorage addr =>
    obtain ⟨a, ha⟩ := isSome_iff_exists.mp hm
    exact (since_clearStorage (.refl hs) ha).mono fun _ s' hs' => hs'.sound
  | op o =>
    cases o with
    | createContract addr => exact (sound_createContract addr).run s hs
    | setStorage addr key value => exact hop _ hm
    | setCode addr newCode => exact hop _ hm
    | rollback savepoint => exact hm.elim
    | _ => exact hop _ trivial

theorem Mutation.whole_exec (h : Whole H s) (hs : s.Sound H) (m : Mutation) (hm : m.Kept H s) :
    Post (m.exec H) s fun _ s' => Whole H s' := by
  cases m with
  | kill addr => exact hm.elim
  | clearStorage addr =>
    obtain ⟨a, ha⟩ := isSome_iff_exists.mp hm
    exact h.clearStorage ha
  | op o =>
    refine Whole.steady.op Whole.keeps_code Whole.keeps_codeSize h o ?_ ?_ ?_
    · rintro addr key value rfl
      exact h.setStorage hs ((addressInUse_spec hs addr).1.symm.trans hm) key value
    · rintro addr newCode rfl
      obtain ⟨a, ha, -⟩ := hm
      exact h.setCode hs (by rw [view_of_cache ha]; rfl) newCode
    · rintro savepoint rfl
      exact hm.elim

/-- The states that are reached from `s₀`. -/
inductive KeptRun (H : Hasher) (s₀ : State) : State → Prop where
  | start : KeptRun H s₀ s₀
  | step {s : State} (m : Mutation) (h : KeptRun H s₀ s) (hm : m.Kept H s) :
    KeptRun H s₀ ((m.exec H).run s).2

theorem whole_run (hs₀ : s₀.Sound H) (h₀ : Whole H s₀) (hrun : KeptRun H s₀ s) :
    s.Sound H ∧ Whole H s := by
  induction hrun with
  | start => exact ⟨hs₀, h₀⟩
  | step m _ hm ih => exact ⟨m.sound_exec ih.1 hm, m.whole_exec ih.2 ih.1 hm⟩

/-- The roots tell apart the storage tries that are there and those that `commit` makes, and the
hashes tell the codes apart. -/
structure Apart (H : Hasher) (roots : TrieRoots) (s : State) (content : H256 → U256 → U256)
    (codes : H256 → Bytes) : Prop where
  stored : ∀ addr w, s.view H addr = some w → s.db.storage w.storageRoot = content w.storageRoot
  written : ∀ addr a, s.cache addr = some a → a.isDirty = true →
    (a.view H s.db).storage = content (roots.storage a.storageRoot a.storageOverlay)
  coded : ∀ addr w, s.view H addr = some w → w.code = codes w.codeHash

section Commit
variable {content : H256 → U256 → U256} {codes : H256 → Bytes}

/-- What `commit` has done to the database when it has come to `t`. -/
structure Writing (H : Hasher) (roots : TrieRoots) (content : H256 → U256 → U256)
    (codes : H256 → Bytes) (s : State) (done : List Address) (t : State) : Prop where
  cache : t.cache = s.cache
  nonExisting : t.nonExistingAccountsCache = s.nonExistingAccountsCache
  accountStartNonce : t.accountStartNonce = s.accountStartNonce
  storage : ∀ root, t.db.storage root = s.db.storage root ∨ t.db.storage root = content root
  code : ∀ hash, hash ≠ H.emptySHA3 → t.db.code hash = s.db.code hash ∨ t.db.code hash = codes hash
  written : ∀ addr ∈ done, ∀ a, s.cache addr = some a → a.isDirty = true →
    t.db.storage (roots.storage a.storageRoot a.storageOverlay) =
    content (roots.storage a.storageRoot a.storageOverlay)
  coded : ∀ addr ∈ done, ∀ a, s.cache addr = some a → a.isDirty = true → a.hasNewCode = true →
    a.codeHash ≠ H.emptySHA3 → t.db.code a.codeHash = codes a.codeHash

theorem Writing.refl (s : State) : Writing H roots content codes s [] s :=
  ⟨rfl, rfl, rfl, fun _ => .inl rfl, fun _ _ => .inl rfl, fun _ hx => absurd hx not_mem_nil,
    fun _ hx => absurd hx not_mem_nil⟩

variable {done : List Address} {t : State}

theorem Writing.skip (h : Writing H roots content codes s done t)
    (hclean : ∀ a, s.cache addr = some a → a.isDirty = false) :
    Writing H roots content codes s (addr :: done) t := by
  refine { h with written := fun x hx a ha hd => ?_, coded := fun x hx a ha hd => ?_ }
  · rcases mem_cons.mp hx with rfl | hx
    · exact absurd ((hclean a ha).symm.trans hd) Bool.false_ne_true
    · exact h.written x hx a ha hd
  · rcases mem_cons.mp hx with rfl | hx
    · exact absurd ((hclean a ha).symm.trans hd) Bool.false_ne_true
    · exact h.coded x hx a ha hd

/-- What is written for a dirty account is what is read of it. -/
theorem Writing.account {t t' : State} {a : Account} (h : Writing H roots content codes s done t)
    (hapart : Apart H roots s content codes) (hwhole : Whole H s) (ha : s.cache addr = some a)
    (hd : a.isDirty = true) (hcache : t'.cache = t.cache)
    (hnon : t'.nonExistingAccountsCache = t.nonExistingAccountsCache)
    (hnonce : t'.accountStartNonce = t.accountStartNonce)
    (hstorage : t'.db.storage = Function.update t.db.storage (roots.storage a.storageRoot a.storageOverlay)
      fun key => (a.storageOverlay key).getD (t.db.storage a.storageRoot key))
    (hcode : t'.db.code = if a.hasNewCode then Function.update t.db.code a.codeHash a.codeCache
      else t.db.code) :
    Writing H roots content codes s (addr :: done) t' := by
  have hview : s.view H addr = some (a.view H s.db) := view_of_cache ha
  -- the trie under the old root is as it was, even if it has been written again
  have hbase : t.db.storage a.storageRoot = s.db.storage a.storageRoot := by
    rcases h.storage a.storageRoot with heq | heq
    · exact heq
    · exact heq.trans (hapart.stored addr _ hview).symm
  have hmerged : (fun key => (a.storageOverlay key).getD (t.db.storage a.storageRoot key)) =
      content (roots.storage a.storageRoot a.storageOverlay) := by
    rw [← hapart.written addr a ha hd, hbase]
    rfl
  rw [hmerged] at hstorage
  have hkeep (root : H256) : t'.db.storage root = t.db.storage root ∨
    t'.db.storage root = content root := by
    rw [hstorage]
    by_cases hroot : root = roots.storage a.storageRoot a.storageOverlay
    · subst hroot
      exact .inr (update_self ..)
    · exact .inl (update_of_ne hroot ..)
  have hnewCode (hnew : a.hasNewCode = true) (hne : a.codeHash ≠ H.emptySHA3) :
    a.codeCache = codes a.codeHash := by
    have hcoded := hapart.coded addr _ hview
    rw [Account.view] at hcoded
    simp only [if_neg hne, if_neg ((hwhole addr a ha).1.fresh hne hnew)] at hcoded
    exact hcoded
  have hkeepCode (hash : H256) (hne : hash ≠ H.emptySHA3) :
      t'.db.code hash = t.db.code hash ∨ t'.db.code hash = codes hash := by
    rw [hcode]
    split_ifs with hnew
    · by_cases hhash : hash = a.codeHash
      · subst hhash
        exact .inr ((update_self ..).trans (hnewCode hnew hne))
      · exact .inl (update_of_ne hhash ..)
    · exact .inl rfl
  refine ⟨hcache.trans h.cache, hnon.trans h.nonExisting, hnonce.trans h.accountStartNonce,
    fun root => ?_, fun hash hne => ?_, fun x hx b hb hdirty => ?_, fun x hx b hb hdirty hnew hne =>
    ?_⟩
  · rcases hkeep root with heq | heq
    · rw [heq]
      exact h.storage root
    · exact .inr heq
  · rcases hkeepCode hash hne with heq | heq
    · rw [heq]
      exact h.code hash hne
    · exact .inr heq
  · rcases mem_cons.mp hx with rfl | hx
    · obtain rfl : a = b := Option.some.inj (ha.symm.trans hb)
      rw [hstorage, update_self]
    · rcases hkeep (roots.storage b.storageRoot b.storageOverlay) with heq | heq
      · exact heq.trans (h.written x hx b hb hdirty)
      · exact heq
  · rcases mem_cons.mp hx with rfl | hx
    · obtain rfl : a = b := Option.some.inj (ha.symm.trans hb)
      rw [hcode, if_pos hnew, update_self]
      exact hnewCode hnew hne
    · rcases hkeepCode b.codeHash hne with heq | heq
      · exact heq.trans (h.coded x hx b hb hdirty hnew hne)
      · exact heq

theorem writing_commitAccount (h : Writing H roots content codes s done t)
    (hapart : Apart H roots s content codes) (hwhole : Whole H s) (addr : Address) :
    Post (commitAccount roots addr) t fun _ t' =>
    Writing H roots content codes s (addr :: done) t' := by
  simp only [commitAccount, post_bind, post_get]
  rw [h.cache]
  cases hc : s.cache addr with
  | none => exact h.skip fun a ha => by rw [hc] at ha; cases ha
  | some a =>
    simp only [post_ite, post_pure, post_bind, post_modify]
    have halive := (hwhole addr a hc).1.isAlive
    split_ifs with hclean hdead hnew
    · refine h.skip fun b hb => ?_
      rw [hc] at hb
      cases hb
      simpa using hclean
    · simp [halive] at hdead
    · exact h.account hapart hwhole hc (by simpa using hclean) rfl rfl rfl rfl (by rw [if_pos hnew]; rfl)
    · exact h.account hapart hwhole hc (by simpa using hclean) rfl rfl rfl rfl (by rw [if_neg hnew])

theorem writing_walk (hapart : Apart H roots s content codes) (hwhole : Whole H s)
    (walk : List Address) (h : Writing H roots content codes s done t) :
    Post (walk.forM (commitAccount roots)) t fun _ t' =>
    Writing H roots content codes s (walk.reverse ++ done) t' := by
  induction walk generalizing done t with
  | nil => exact h
  | cons addr walk ih =>
    show Post (commitAccount roots addr >>= fun _ => walk.forM (commitAccount roots)) t _
    rw [post_bind]
    refine (writing_commitAccount h hapart hwhole addr).mono fun _ t₁ h₁ => ?_
    rw [reverse_cons, append_assoc]
    exact ih h₁

theorem Writing.view_load (h : Writing H roots content codes s done t)
    (hapart : Apart H roots s content codes) {st : StoredAccount}
    (hview : s.view H addr = some ((Account.load H st).view H s.db)) :
    (Account.load H st).view H t.db = (Account.load H st).view H s.db := by
  refine AccountView.ext rfl rfl rfl rfl rfl ?_ ?_
  · show (if st.codeHash = H.emptySHA3 then [] else t.db.code st.codeHash) =
      if st.codeHash = H.emptySHA3 then [] else s.db.code st.codeHash
    split_ifs with hempty
    · rfl
    · rcases h.code st.codeHash hempty with heq | heq
      · exact heq
      · have hcoded := hapart.coded addr _ hview
        rw [Account.view] at hcoded
        exact heq.trans (hcoded.symm.trans (if_neg hempty))
  · show t.db.storage st.storageRoot = s.db.storage st.storageRoot
    rcases h.storage st.storageRoot with heq | heq
    · exact heq
    · exact heq.trans (hapart.stored addr _ hview).symm

theorem Writing.view_written {a : Account} (h : Writing H roots content codes s done t)
    (hapart : Apart H roots s content codes) (hwhole : Whole H s) (hdone : addr ∈ done)
    (ha : s.cache addr = some a) (hd : a.isDirty = true) :
    (Account.load H ⟨a.nonce, a.balance, roots.storage a.storageRoot a.storageOverlay,
      a.codeHash⟩).view H t.db =
      { a.view H s.db with storageRoot := roots.storage a.storageRoot a.storageOverlay } := by
  have hview : s.view H addr = some (a.view H s.db) := view_of_cache ha
  obtain ⟨halive, hfresh, hstored⟩ := (hwhole addr a ha).1
  refine AccountView.ext halive.symm rfl rfl rfl rfl ?_ ?_
  · show (if a.codeHash = H.emptySHA3 then [] else t.db.code a.codeHash) = (a.view H s.db).code
    have hcoded := hapart.coded addr _ hview
    by_cases hempty : a.codeHash = H.emptySHA3
    · rw [if_pos hempty, Account.view]
      exact (if_pos hempty).symm
    · rw [if_neg hempty]
      cases hnew : a.hasNewCode with
      | true => exact (h.coded addr hdone a ha hd hnew hempty).trans hcoded.symm
      | false =>
        rcases h.code a.codeHash hempty with heq | heq
        · rw [heq, Account.view]
          simp only [if_neg hempty]
          split_ifs with hnil
          · rfl
          · exact ((hstored hempty hnew).resolve_left hnil).symm
        · exact heq.trans hcoded.symm
  · exact (h.written addr hdone a ha hd).trans (hapart.written addr a ha hd).symm

theorem Writing.view (h : Writing H roots content codes s done t) (hs : s.Sound H)
    (hapart : Apart H roots s content codes) (hwhole : Whole H s)
    (hdone : ∀ x, (s.cache x).isSome = true → x ∈ done)
    (haccount : t.db.account = committedAt roots s) (x : Address) :
    ∃ root, t.db.view H x = (s.view H x).map fun w => { w with storageRoot := root } := by
  -- an account of the trie that is not written
  have hstored (hcommitted : committedAt roots s x = s.db.account x)
      (hview : s.view H x = s.db.view H x) : t.db.view H x = s.view H x := by
    rw [hview, StateDB.view, StateDB.view, haccount, hcommitted]
    cases hst : s.db.account x with
    | none => rfl
    | some st =>
      have hload : s.view H x = some ((Account.load H st).view H s.db) := by
        rw [hview, StateDB.view, hst]
        rfl
      exact congrArg some (h.view_load hapart hload)
  have hroot (w : Option AccountView) (hw : t.db.view H x = w) :
      ∃ root, t.db.view H x = w.map fun w => { w with storageRoot := root } := by
    cases w with
    | none => exact ⟨0, hw⟩
    | some w => exact ⟨w.storageRoot, hw⟩
  cases hc : s.cache x with
  | none => exact hroot _ (hstored (by rw [committedAt, hc]; rfl) (view_of_cache_none hc))
  | some a =>
    cases hd : a.isDirty with
    | false =>
      have hclean : s.db.view H x = some (a.view H s.db) :=
        hs.clean x a hc (by simpa [Account.isDirty] using hd)
      refine hroot _ (hstored ?_ ((view_of_cache hc).trans hclean.symm))
      rw [committedAt, hc, map_some, getD_some, committed, hd]
      rfl
    | true =>
      have halive := (hwhole x a hc).1.isAlive
      refine ⟨roots.storage a.storageRoot a.storageOverlay, ?_⟩
      rw [view_of_cache hc, StateDB.view, haccount, committedAt, hc, map_some, getD_some, committed,
        hd, halive]
      exact congrArg some (h.view_written hapart hwhole (hdone x (by rw [hc]; rfl)) hc hd)

theorem view_commit (hs : s.Sound H) (hwhole : Whole H s) (hapart : Apart H roots s content codes)
    {walk : List Address} (hwalk : ∀ x, x ∈ walk ↔ (s.cache x).isSome = true) :
    Post (commit H roots walk .KeepEmptyAccounts) s fun _ s' =>
      s'.Sound H ∧ s'.accountStartNonce = s.accountStartNonce ∧ s'.view H = s'.db.view H ∧
        ∀ x, ∃ root, s'.db.view H x = (s.view H x).map fun w => { w with storageRoot := root } := by
  have hwritten : Post (commit H roots walk .KeepEmptyAccounts) s fun _ s' => s'.cache = (fun _ => none) ∧
      Writing H roots content codes s walk.reverse { s' with cache := s.cache } := by
    unfold commit
    rw [if_neg (by decide), post_bind]
    refine (writing_walk hapart hwhole walk (.refl s)).mono fun _ t ht => ?_
    rw [append_nil] at ht
    exact ⟨rfl, ⟨rfl, ht.nonExisting, ht.accountStartNonce, ht.storage, ht.code, ht.written, ht.coded⟩⟩
  have haccount : ((commit H roots walk .KeepEmptyAccounts).run s).2.db.account =
    committedAt roots s :=
    trie_commit hwalk .KeepEmptyAccounts
  unfold Post at hwritten ⊢
  generalize ((commit H roots walk .KeepEmptyAccounts).run s).2 = s' at hwritten haccount ⊢
  obtain ⟨hcache, hw⟩ := hwritten
  have hview := hw.view hs hapart hwhole (fun x hx => mem_reverse.mpr ((hwalk x).mpr hx)) haccount
  have hnone (x : Address) : s'.cache x = none := congrFun hcache x
  have hempty {x : Address} {a : Account} (ha : s'.cache x = some a) : False := by
    rw [hnone] at ha
    cases ha
  refine ⟨⟨fun x a ha => (hempty ha).elim, fun x hx => ?_, fun x a ha => (hempty ha).elim,
    fun x w hx => ?_⟩, hw.accountStartNonce, funext fun x => view_of_cache_none (hnone x), hview⟩
  · -- an account that is known not to exist is not in the cache
    have hx : s.nonExistingAccountsCache x = true := congrFun hw.nonExisting x ▸ hx
    have hc : s.cache x = none := by
      cases hc : s.cache x with
      | none => rfl
      | some a => exact absurd ((hwhole x a hc).2.symm.trans hx) Bool.false_ne_true
    rw [haccount, committedAt, hc]
    exact hs.absent x hx
  · obtain ⟨root, hroot⟩ := hview x
    obtain ⟨v, hv, rfl⟩ := map_eq_some_iff.mp (hroot.symm.trans hx)
    cases hc : s.cache x with
    | none => exact hs.stored x v ((view_of_cache_none hc).symm.trans hv)
    | some a =>
      obtain rfl : a.view H s.db = v := Option.some.inj ((view_of_cache hc).symm.trans hv)
      exact hs.coded x a hc

end Commit

/-- If storage is written of accounts that there are and cleared of accounts in the cache, and code
is set for dirty accounts, then `commit` changes nothing that is read afterwards, nor is anything
else read in a state that is opened on the database that it leaves. -/
theorem commit_preserves {db : StateDB}
    (hstored : ∀ addr v, db.view H addr = some v → H.hash v.code = v.codeHash)
    (accountStartNonce : U256) (codeSizes : CodeSizeCache) (random : ℕ → ℕ)
    (hrun : KeptRun H (opened db accountStartNonce codeSizes random) s)
    {content : H256 → U256 → U256} {codes : H256 → Bytes} (hapart : Apart H roots s content codes)
    {walk : List Address} (hwalk : ∀ x, x ∈ walk ↔ (s.cache x).isSome = true) :
    let committed := ((commit H roots walk .KeepEmptyAccounts).run s).2
    ∀ s', (s' = committed ∨ ∃ codeSizes random, s' = opened committed.db s.accountStartNonce
      codeSizes random) → ∀ addr, ReadsAlike H addr s s' := by
  have hopened := sound_opened hstored accountStartNonce codeSizes random
  have hempty : Whole H (opened db accountStartNonce codeSizes random) := fun x a ha => by cases ha
  obtain ⟨hs, hwhole⟩ := whole_run hopened hempty hrun
  obtain ⟨hsound, hnonce, hcached, hview⟩ := view_commit hs hwhole hapart hwalk
  intro committed s' hs' addr
  obtain ⟨root, hroot⟩ := hview addr
  rcases hs' with rfl | ⟨codeSizes', random', rfl⟩
  · exact reads_agree hs addr hsound hnonce (fun _ => root) ((congrFun hcached addr).trans hroot)
  · exact reads_agree hs addr (sound_opened hsound.stored _ _ _) rfl (fun _ => root)
      ((view_of_cache_none rfl).trans hroot)

def firstKeyRoots : TrieRoots where
  state _ := 0
  storage root overlay := if (overlay 0).isSome then root + 1 else root
  storage_none _ := rfl

def filledState : State :=
  execAll lengthHasher emptyAccountState [.addBalance 1 5, .setStorage 1 0 7, .setCode 1 [1, 2]]

theorem cache_filledState {x : Address} (hx : x ≠ 1) : filledState.cache x = none := by
  have hupdates : ∃ a₁ a₂ a₃ a₄ a₅ :
      Account, filledState.cache = Function.update (Function.update (Function.update
      (Function.update (Function.update (fun _ => none) 1 (some a₁)) 1 (some a₂)) 1 (some a₃)) 1
        (some a₄)) 1 (some a₅) :=
    ⟨_, _, _, _, _, rfl⟩
  obtain ⟨a₁, a₂, a₃, a₄, a₅, h⟩ := hupdates
  simp only [h, update_of_ne hx]

theorem apart_filledState :
    Apart lengthHasher firstKeyRoots filledState
      (fun root key => if root = lengthHasher.emptyTrie + 1 ∧ key = 0 then 7 else 0)
      fun hash => if hash = lengthHasher.hash [1, 2] then [1, 2] else [] := by
  have hother {x : Address} (hx : x ≠ 1) : filledState.view lengthHasher x = none := by
    rw [view_of_cache_none (cache_filledState hx)]
    show Option.map _ (if x = 1 then _ else none) = none
    rw [if_neg hx]
    rfl
  have hroot : lengthHasher.emptyTrie ≠ lengthHasher.emptyTrie + 1 := by decide +kernel
  refine ⟨fun x w hw => ?_, fun x a ha hd => ?_, fun x w hw => ?_⟩
  · by_cases hx : x = 1
    · subst hx
      cases hw
      funext key
      exact (if_neg fun h => hroot h.1).symm
    · rw [hother hx] at hw
      cases hw
  · by_cases hx : x = 1
    · subst hx
      cases ha
      funext key
      by_cases hkey : key = 0
      · subst hkey
        decide +kernel
      · show Option.getD (Function.update (Function.update (fun _ => none) 0 _) 0 _ key) 0 = if _ ∧
          key = 0 then 7 else 0
        rw [update_of_ne hkey, update_of_ne hkey, if_neg fun h => hkey h.2]
        rfl
    · rw [cache_filledState hx] at ha
      cases ha
  · by_cases hx : x = 1
    · subst hx
      cases hw
      decide +kernel
    · rw [hother hx] at hw
      cases hw

theorem commit_preserves_filledState :
    let s' := ((commit lengthHasher firstKeyRoots [1] .KeepEmptyAccounts).run filledState).2
    (((balance lengthHasher 1).run s').1 = ((balance lengthHasher 1).run filledState).1 ∧
      (∀ key, ((storage lengthHasher 1 key).run s').1 = ((storage lengthHasher 1 key).run filledState).1) ∧
      ((code lengthHasher 1).run s').1 = ((code lengthHasher 1).run filledState).1) ∧
      ((storage lengthHasher 1 0).run filledState).1 = 7 ∧
        ((code lengthHasher 1).run filledState).1 = [1, 2] := by
  intro s'
  have hrun : KeptRun lengthHasher emptyAccountState filledState :=
    .step (.op (.setCode 1 [1, 2]))
      (.step (.op (.setStorage 1 0 7)) (.step (.op (.addBalance 1 5)) .start trivial) rfl)
      ⟨_, rfl, rfl⟩
  have hwalk (x : Address) : x ∈ [1] ↔ (filledState.cache x).isSome = true := by
    by_cases hx : x = 1
    · subst hx
      exact iff_of_true mem_cons_self rfl
    · rw [cache_filledState hx]
      exact iff_of_false (fun h => hx (mem_singleton.mp h)) Bool.false_ne_true
  have halike :=
    commit_preserves stored_emptyAccountState 0 ⟨[]⟩ id hrun apart_filledState hwalk s' (.inl rfl) 1
  exact ⟨⟨halike.balance, halike.storage, halike.code⟩, by decide +kernel, by decide +kernel⟩

/-- Code that is set for a clean account is lost, and so is what is written where there is no
account, or where storage was cleared of an account that was not in the cache. -/
theorem commit_loses :
    let committed (walk : List Address) (s : State) :=
      ((commit lengthHasher firstKeyRoots walk .KeepEmptyAccounts).run s).2
    let coded := execAll lengthHasher emptyAccountState [.setCode 1 [1, 2]]
    let written := execAll lengthHasher emptyAccountState [.setStorage 2 0 7]
    let cleared :=
      execAll lengthHasher ((clearStorage lengthHasher 1).run emptyAccountState).2 [.addBalance 1 5]
    (((code lengthHasher 1).run coded).1 = [1, 2] ∧
      ((code lengthHasher 1).run (committed [1] coded)).1 = []) ∧
      (((storage lengthHasher 2 0).run written).1 = 7 ∧
        ((storage lengthHasher 2 0).run (committed [2] written)).1 = 0) ∧
      ((balance lengthHasher 1).run cleared).1 = 5 ∧
        ((balance lengthHasher 1).run (committed [1] cleared)).1 = 0 := by
  decide +kernel

end State
end Vapory
