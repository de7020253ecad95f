import Vapory.State.Clear
import Vapory.State.Commit
import Vapory.State.Steady

/-! The size of a code and the code. Both readers look into the account and into the database; the
sizes are kept in a third place, by the hashes of the codes. -/
namespace Vapory
open Function List

theorem CodeSizeCache.mem_store {c : CodeSizeCache} {random hash : H256} {size : ℕ} {e : H256 × ℕ}
    (h : e ∈ (c.store random hash size).entries) : e = (hash, size) ∨ e ∈ c.entries := by
  have hremoved (he : e ∈ (c.removeRandomElement random).entries) : e ∈ c.entries := by
    unfold removeRandomElement at he
    split at he
    · exact (mem_filter.mp he).1
    · exact mem_of_mem_tail he
  have hkept {p : Prop} [Decidable p]
    (he : e ∈ (if p then c.removeRandomElement random else c).entries) : e ∈ c.entries := by
    split_ifs at he
    · exact hremoved he
    · exact he
  rcases mem_append.mp h with he | he
  · exact .inr (hkept (mem_filter.mp he).1)
  · rcases mem_cons.mp he with rfl | he
    · exact .inl rfl
    · exact .inr (hkept (mem_filter.mp he).1)

theorem CodeSizeCache.mem_of_find {c : CodeSizeCache} {hash : H256} {size : ℕ}
    (h : c.find hash = some size) : (hash, size) ∈ c.entries := by
  obtain ⟨l₁, l₂, heq, -⟩ := lookup_eq_some_iff.mp h
  rw [heq]
  simp

/-- `code` is one of the codes, and has this hash. -/
def CodeOf (H : Hasher) (K : Set Bytes) (hash : H256) (code : Bytes) : Prop :=
  code ∈ K ∧ H.hash code = hash

namespace Account
variable {H : Hasher} {K : Set Bytes} {db : StateDB} {a b : Account}

/-- The code of an account is in its own cache if it is new, and else in the database. -/
structure CodeRight (H : Hasher) (K : Set Bytes) (db : StateDB) (a : Account) : Prop where
  none : a.codeHash = H.emptySHA3 → a.hasNewCode = true → a.codeCache = []
  cached : a.codeHash ≠ H.emptySHA3 → a.codeCache ≠ [] → CodeOf H K a.codeHash a.codeCache
  fresh : a.codeHash ≠ H.emptySHA3 → a.hasNewCode = true → a.codeCache ≠ []
  stored : a.codeHash ≠ H.emptySHA3 → a.hasNewCode = false → CodeOf H K a.codeHash (db.code a.codeHash)

theorem CodeRight.congr (h : a.CodeRight H K db) (hb : a.Alike b) : b.CodeRight H K db := by
  constructor
  · rw [hb.codeHash, hb.hasNewCode, hb.codeCache]
    exact h.none
  · rw [hb.codeHash, hb.codeCache]
    exact h.cached
  · rw [hb.codeHash, hb.hasNewCode, hb.codeCache]
    exact h.fresh
  · rw [hb.codeHash, hb.hasNewCode]
    exact h.stored

theorem codeRight_load {st : StoredAccount}
    (hst : st.codeHash ≠ H.emptySHA3 → CodeOf H K st.codeHash (db.code st.codeHash)) :
    (load H st).CodeRight H K db where
  none _ hnew := (Bool.false_ne_true hnew).elim
  cached _ hne := absurd rfl hne
  fresh _ hnew := (Bool.false_ne_true hnew).elim
  stored hne _ := hst hne

theorem codeRight_of_empty (hhash : a.codeHash = H.emptySHA3)
    (hnone : a.hasNewCode = true → a.codeCache = []) : a.CodeRight H K db :=
  ⟨fun _ => hnone, fun hne => absurd hhash hne, fun hne => absurd hhash hne, fun hne =>
    absurd hhash hne⟩

end Account

namespace State
variable {H : Hasher} {K : Set Bytes} {roots : TrieRoots} {s : State} {addr : Address}

/-- All codes are in `K`, where hashes tell the sizes apart, and the sizes that are kept are
theirs. -/
structure CodeRight (H : Hasher) (K : Set Bytes) (s : State) : Prop where
  empty : [] ∈ K
  sizes_eq : ∀ b ∈ K, ∀ b' ∈ K, H.hash b = H.hash b' → b.length = b'.length
  cache : ∀ addr a, s.cache addr = some a → a.CodeRight H K s.db
  stored : ∀ addr st, s.db.account addr = some st → (Account.load H st).CodeRight H K s.db
  sizes : ∀ e ∈ s.codeSizes.entries, ∀ b ∈ K, H.hash b = e.1 → b.length = e.2
  log : ∀ addr old, .code addr old ∈ s.changeLog → old ∈ K

namespace CodeRight

theorem eq_nil (h : CodeRight H K s) {code : Bytes} (hcode : code ∈ K)
    (hhash : H.hash code = H.emptySHA3) : code = [] :=
  length_eq_zero_iff.mp (h.sizes_eq code hcode [] h.empty hhash)

theorem setCode (h : CodeRight H K s) (a : Account) {code : Bytes} (hcode : code ∈ K) :
    (a.setCode H code).CodeRight H K s.db where
  none hhash _ := h.eq_nil hcode hhash
  cached _ _ := ⟨hcode, rfl⟩
  fresh hne _ := by
    rintro (hnil : code = [])
    subst hnil
    exact hne rfl
  stored _ hnew := (Bool.false_ne_true hnew.symm).elim

theorem replaced (h : CodeRight H K s) {c : Option Account}
    (hc : ∀ a, c = some a → a.CodeRight H K s.db) {s' : State}
    (hcache : s'.cache = Function.update s.cache addr c) (hdb : s'.db = s.db)
    (hsizes : s'.codeSizes = s.codeSizes) (hlog : s'.changeLog = s.changeLog) :
    CodeRight H K s' := by
  refine ⟨h.empty, h.sizes_eq, fun x a ha => ?_, ?_, hsizes ▸ h.sizes, hlog ▸ h.log⟩
  · rw [hcache] at ha
    rw [hdb]
    by_cases hx : x = addr
    · rw [hx, update_self] at ha
      exact hc a ha
    · rw [update_of_ne hx] at ha
      exact h.cache x a ha
  · rw [hdb]
    exact h.stored

theorem steady : Steady H (CodeRight H K) where
  fields _ _ h := ⟨h.empty, h.sizes_eq, h.cache, h.stored, h.sizes, h.log⟩
  drop addr h := h.replaced (c := none) (fun a ha => by cases ha) rfl rfl rfl rfl
  absent h _ := ⟨h.empty, h.sizes_eq, h.cache, h.stored, h.sizes, h.log⟩
  load h _ hst := by
    refine h.replaced (c := some _) ?_ rfl rfl rfl rfl
    rintro _ ⟨⟩
    exact h.stored _ _ hst
  replace h hc hb := by
    refine h.replaced (c := some _) ?_ rfl rfl rfl rfl
    rintro _ ⟨⟩
    exact (h.cache _ _ hc).congr hb
  create addr nonce balance h := by
    refine h.replaced (c := some _) ?_ rfl rfl rfl rfl
    rintro _ ⟨⟩
    exact Account.codeRight_of_empty rfl fun _ => rfl
  log h hc := by
    refine ⟨h.empty, h.sizes_eq, h.cache, h.stored, h.sizes, fun x old hx => ?_⟩
    rcases mem_cons.mp hx with heq | hx
    · exact absurd heq.symm (hc x old)
    · exact h.log x old hx

theorem update (h : CodeRight H K s) (addr : Address) (f : Account → Account)
    (hf : (f ((s.cache addr).getD (.dead H))).CodeRight H K s.db) :
    Post (State.update H addr f) s fun _ s' => CodeRight H K s' := by
  refine h.replaced (c := some _) ?_ rfl rfl rfl rfl
  rintro a ⟨⟩
  exact hf

theorem cached (h : CodeRight H K s) (addr : Address) :
    ((s.cache addr).getD (.dead H)).CodeRight H K s.db := by
  cases hc : s.cache addr with
  | none => exact Account.codeRight_of_empty rfl fun _ => rfl
  | some a => exact h.cache addr a hc

theorem storeCodeSize (h : CodeRight H K s) {hash : H256} {code : Bytes}
    (hcode : CodeOf H K hash code) : Post (State.storeCodeSize hash code.length) s fun _ s' =>
    CodeRight H K s' := by
  refine ⟨h.empty, h.sizes_eq, h.cache, h.stored, fun e he b hb hbe => ?_, h.log⟩
  rcases CodeSizeCache.mem_store he with rfl | he
  · exact h.sizes_eq b hb code hcode.1 (hbe.trans hcode.2.symm)
  · exact h.sizes e he b hb hbe

theorem code (h : CodeRight H K s) (addr : Address) :
    Post (State.code H addr) s fun r s' => CodeRight H K s' ∧
      CodeOf H K (((State.account H addr).run s).1.map (·.codeHash) |>.getD H.emptySHA3) r := by
  unfold State.code
  rw [post_bind]
  have hread := steady.account h addr
  unfold Post at hread ⊢
  generalize (State.account H addr).run s = p at hread
  obtain ⟨_ | a, s₁⟩ := p
  · exact ⟨hread.1, h.empty, rfl⟩
  · obtain ⟨h₁, hc⟩ := hread
    have ha := h₁.cache addr a hc
    show Post _ s₁ fun r s' => CodeRight H K s' ∧ CodeOf H K a.codeHash r
    simp only [post_ite, post_pure]
    split_ifs with hempty hcode
    · exact ⟨h₁, h₁.empty, hempty.symm⟩
    · have hnew : a.hasNewCode = false := by
        by_contra hne
        exact ha.fresh hempty (Bool.not_eq_false _ ▸ hne) hcode
      have hstored := ha.stored hempty hnew
      simp only [post_bind, post_get]
      refine (h₁.update addr _ ?_).mono fun _ s₂ h₂ => ?_
      · rw [hc]
        exact ⟨fun he => absurd he hempty, fun _ _ => hstored, fun _ ht =>
          (Bool.false_ne_true (hnew.symm.trans ht)).elim, fun _ _ => hstored⟩
      · exact (h₂.storeCodeSize hstored).mono fun _ _ h₃ => ⟨h₃, hstored⟩
    · exact ⟨h₁, ha.cached hempty hcode⟩

end CodeRight

theorem account_of_cache {a : Account} (hc : s.cache addr = some a) :
    (account H addr).run s = (some a, s) := by
  have hpost : Post (account H addr) s fun r s' => (r, s') = (some a, s) := by
    simp only [account, post_bind, post_get, hc, post_pure]
  exact hpost

theorem code_run {a : Account} {s₁ : State} (ha : (account H addr).run s = (some a, s₁)) :
    ((code H addr).run s).1 = (a.view H s₁.db).code := by
  have hrun : (code H addr).run s = ((do
      if a.codeHash = H.emptySHA3 then return []
      else if a.codeCache = [] then
        let code := (← get).db.code a.codeHash
        update H addr fun a => a.noteCode code
        storeCodeSize a.codeHash code.length
        return code
      else return a.codeCache : StateM State Bytes)).run s₁ := by
    rw [code, StateT.run_bind, ha]
    rfl
  rw [hrun, Account.view]
  split_ifs <;> rfl

theorem code_run_none {s₁ : State} (ha : (account H addr).run s = (none, s₁)) :
    ((code H addr).run s).1 = [] := by
  rw [code, StateT.run_bind, ha]
  rfl

theorem CodeRight.codeSize (h : CodeRight H K s) (addr : Address) :
    Post (State.codeSize H addr) s fun r s' => CodeRight H K s' ∧
    r = ((State.code H addr).run s).1.length := by
  have hread := CodeRight.steady.account h addr
  have hcode := (h.code addr).2
  unfold State.codeSize
  rw [post_bind]
  unfold Post at hread ⊢
  cases hp : (State.account H addr).run s with
  | mk r s₁ =>
    rw [hp] at hread hcode
    obtain ⟨h₁, hc⟩ := hread
    cases r with
    | none =>
      rw [code_run_none hp]
      exact ⟨h₁, rfl⟩
    | some a =>
      have ha := h₁.cache addr a hc
      have hagain : (State.account H addr).run s₁ = (some a, s₁) := account_of_cache hc
      have hsame : ((State.code H addr).run s₁).1 = ((State.code H addr).run s).1 := by
        rw [code_run hagain, code_run hp]
      show Post _ s₁ fun r s' => CodeRight H K s' ∧ r = ((State.code H addr).run s).1.length
      simp only [post_ite, post_bind, post_get, post_pure]
      split_ifs with hnew
      · refine ⟨h₁, ?_⟩
        rw [code_run hp, Account.view]
        simp only
        split_ifs with hempty hcache
        · rw [ha.none hempty hnew]
        · exact absurd hcache (ha.fresh hempty hnew)
        · rfl
      · cases hfind : s₁.codeSizes.find a.codeHash with
        | some size =>
          exact ⟨h₁, (h₁.sizes _ (CodeSizeCache.mem_of_find hfind) _ hcode.1 hcode.2).symm⟩
        | none =>
          obtain ⟨h₂, hcode₂⟩ := h₁.code addr
          rw [hagain] at hcode₂
          rw [← hsame]
          exact ⟨h₂.storeCodeSize hcode₂, rfl⟩

section Keeps

theorem keeps_update (f : Account → Account) (hf : ∀ a : Account, a.Alike (f a)) (addr : Address) :
    KeepsS (CodeRight H K) (update H addr f) :=
  fun _ h => h.update addr f ((h.cached addr).congr (hf _))

theorem keeps_setStorage (addr : Address) (key value : U256) :
    KeepsS (CodeRight H K) (setStorage H addr key value) := by
  refine (CodeRight.steady.keeps_storage addr key).bind fun old => ?_
  refine (CodeRight.steady.keeps_log fun x c hx => by cases hx).bind fun _ => ?_
  exact keeps_update (fun a => a.setStorage key value) (fun _ => ⟨rfl, rfl, rfl, rfl⟩) addr

theorem keeps_clearStorage (addr : Address) : KeepsS (CodeRight H K) (clearStorage H addr) := by
  refine (keeps_update id (fun _ => ⟨rfl, rfl, rfl, rfl⟩) addr).bind fun _ s h => ?_
  simp only [post_bind, post_get, post_ite, post_pure]
  split_ifs
  · exact h
  · exact (CodeRight.steady.keeps_log fun x c hx => by cases hx).bind
      (fun _ => keeps_update (fun a => a.clearStorage H) (fun _ => ⟨rfl, rfl, rfl, rfl⟩) addr) s h

theorem keeps_setCode (addr : Address) {newCode : Bytes} (hcode : newCode ∈ K) :
    KeepsS (CodeRight H K) (setCode H addr newCode) := by
  intro s h
  unfold setCode
  rw [post_bind]
  refine (h.code addr).mono fun old s₁ hs₁ => ?_
  have h₁ : CodeRight H K { s₁ with changeLog := .code addr old :: s₁.changeLog } := by
    refine ⟨h.empty, h.sizes_eq, hs₁.1.cache, hs₁.1.stored, hs₁.1.sizes, fun x c hx => ?_⟩
    rcases mem_cons.mp hx with heq | hx
    · cases heq
      exact hs₁.2.1
    · exact hs₁.1.log x c hx
  exact h₁.update addr (fun a => a.setCode H newCode) (h₁.setCode _ hcode)

theorem keeps_undo (c : Change) (hc : ∀ x old, c = .code x old → old ∈ K) :
    KeepsS (CodeRight H K) (undo H c) := by
  cases c with
  | storage a key value =>
    exact keeps_update (fun acc => acc.setStorage key value) (fun _ => ⟨rfl, rfl, rfl, rfl⟩) a
  | storageRoot a value =>
    exact keeps_update (fun acc => acc.setStorageRoot value) (fun _ => ⟨rfl, rfl, rfl, rfl⟩) a
  | balance a value =>
    exact keeps_update (fun acc => acc.addBalance (0 - value)) (fun _ => ⟨rfl, rfl, rfl, rfl⟩) a
  | nonce a value =>
    exact keeps_update (fun acc => acc.setNonce value) (fun _ => ⟨rfl, rfl, rfl, rfl⟩) a
  | create a =>
    exact fun s h => h.replaced (c := none) (fun b hb => by cases hb) rfl rfl rfl rfl
  | code a old => exact fun s h => h.update a _ (h.setCode _ (hc a old rfl))
  | touch a =>
    refine (keeps_update Account.untouch (fun _ => ⟨rfl, rfl, rfl, rfl⟩) a).bind fun _ s h => ?_
    exact CodeRight.steady.fields (s.unchangedCacheEntries ++ [a]) s.random h

theorem keeps_undoNewest (n : ℕ) : KeepsS (CodeRight H K) (undoNewest H n) := by
  induction n with
  | zero => exact keepsS_pure _
  | succ n ih =>
    intro s h
    simp only [undoNewest, post_bind, post_get]
    cases hlog : s.changeLog with
    | nil => exact h
    | cons c rest =>
      have hc (x : Address) (old : Bytes) (heq : c = .code x old) : old ∈ K := by
        refine h.log x old ?_
        rw [hlog, heq]
        exact mem_cons_self
      rw [post_bind]
      refine (keeps_undo c hc s h).mono fun _ s₁ h₁ => ?_
      refine ih _ ⟨h₁.empty, h₁.sizes_eq, h₁.cache, h₁.stored, h₁.sizes, fun x old hx => h.log x old ?_⟩
      rw [hlog]
      exact mem_cons_of_mem c hx

/-- `kill` leaves the code where it was; the size is still taken from there if the code is new. -/
theorem CodeRight.kill (h : CodeRight H K s)
    (hnew : ∀ a, ((State.account H addr).run s).1 = some a → a.hasNewCode = true → a.codeCache = []) :
    Post (State.kill H addr) s fun _ s' => CodeRight H K s' := by
  have hread := CodeRight.steady.account h addr
  unfold State.kill
  rw [post_bind]
  unfold Post at hread ⊢
  generalize (State.account H addr).run s = p at hread hnew
  obtain ⟨_ | a, s₁⟩ := p
  · exact hread.1
  · obtain ⟨h₁, hc⟩ := hread
    have hc : s₁.cache addr = some a := hc
    refine h₁.update addr (fun a => a.kill H) (Account.codeRight_of_empty rfl ?_)
    rw [hc]
    exact hnew a rfl

theorem CodeRight.op (h : CodeRight H K s) {o : Op} (ho : ∀ x code, o = .setCode x code → code ∈ K) :
    Post (o.exec H) s fun _ s' => CodeRight H K s' := by
  refine CodeRight.steady.op (fun addr s h => (h.code addr).1) (fun addr s h => (h.codeSize addr).1)
    h o ?_ ?_ ?_
  · exact fun addr key value _ => keeps_setStorage addr key value s h
  · exact fun addr newCode heq => keeps_setCode addr (ho addr newCode heq) s h
  · exact fun savepoint _ => keeps_undoNewest _ s h

theorem keeps_removeEmptyAccounts : KeepsS (CodeRight H K) (removeEmptyAccounts H) := by
  refine fun s h => ⟨h.empty, h.sizes_eq, fun x a ha => ?_, h.stored, h.sizes, h.log⟩
  obtain ⟨b, hb, rfl⟩ := Option.map_eq_some_iff.mp ha
  have hright := h.cache x b hb
  split_ifs with hempty
  · have hhash : b.codeHash = H.emptySHA3 := (of_decide_eq_true hempty.2).2.2
    exact Account.codeRight_of_empty rfl (hright.none hhash)
  · exact hright

theorem CodeRight.withDB (h : CodeRight H K s) {db : StateDB}
    (hcode : ∀ hash, db.code hash = s.db.code hash ∨ CodeOf H K hash (db.code hash))
    (hstored : ∀ x st, db.account x = some st → s.db.account x = some st ∨
      (Account.load H st).CodeRight H K db) :
    CodeRight H K { s with db := db } := by
  have hright {a : Account} (ha : a.CodeRight H K s.db) : a.CodeRight H K db := by
    refine ⟨ha.none, ha.cached, ha.fresh, fun hne hnew => ?_⟩
    rcases hcode a.codeHash with heq | hof
    · rw [heq]
      exact ha.stored hne hnew
    · exact hof
  refine ⟨h.empty, h.sizes_eq, fun x a ha => hright (h.cache x a ha), fun x st hst => ?_, h.sizes,
    h.log⟩
  rcases hstored x st hst with hst | hload
  · exact hright (h.stored x st hst)
  · exact hload

theorem keeps_commitAccount (addr : Address) : KeepsS (CodeRight H K) (commitAccount roots addr) := by
  intro s h
  simp only [commitAccount, post_bind, post_get]
  cases hc : s.cache addr with
  | none => exact h
  | some a =>
    have ha := h.cache addr a hc
    have hof (hnew : a.hasNewCode = true) : CodeOf H K a.codeHash a.codeCache := by
      by_cases hempty : a.codeHash = H.emptySHA3
      · rw [ha.none hempty hnew, hempty]
        exact ⟨h.empty, rfl⟩
      · exact ha.cached hempty (ha.fresh hempty hnew)
    -- the other accounts of the trie stay
    have hother {db : StateDB} {o : Option StoredAccount} {x : Address} {st : StoredAccount}
        (ho : ∀ st, o = some st → (Account.load H st).CodeRight H K db)
        {account : Address → Option StoredAccount}
        (hst : Function.update account addr o x = some st) : account x = some st ∨
          (Account.load H st).CodeRight H K db := by
      by_cases hx : x = addr
      · rw [hx, update_self] at hst
        exact .inr (ho st hst)
      · rw [update_of_ne hx] at hst
        exact .inl hst
    simp only [post_ite, post_pure, post_bind, post_modify]
    split_ifs with hclean halive hnew
    · exact h
    · exact h.withDB (fun _ => .inl rfl) fun x st hst => hother (fun _ hnone => by cases hnone) hst
    · have h₁ (storage : H256 → U256 → U256) :
        CodeRight H K { s with db := { s.db with storage := storage } } :=
        h.withDB (fun _ => .inl rfl) fun _ _ hst => .inl hst
      have hself (f : H256 → Bytes) :
        CodeOf H K a.codeHash (Function.update f a.codeHash a.codeCache a.codeHash) := by
        rw [update_self]
        exact hof hnew
      refine ((h₁ _).storeCodeSize (hof hnew)).mono fun _ s₂ h₂ =>
        h₂.withDB (fun hash => ?_) fun x st hst => hother ?_ hst
      · by_cases hhash : hash = a.codeHash
        · subst hhash
          exact .inr (hself _)
        · exact .inl (update_of_ne hhash ..)
      · rintro _ ⟨⟩
        exact Account.codeRight_load fun _ => hself _
    · refine h.withDB (fun _ => .inl rfl) fun x st hst => hother ?_ hst
      rintro _ ⟨⟩
      exact Account.codeRight_load fun hne => ha.stored hne (Bool.eq_false_iff.mpr hnew)

theorem keeps_commit (walk : List Address) (behaviour : CommitBehaviour) :
    KeepsS (CodeRight H K) (commit H roots walk behaviour) := by
  have hwalk : KeepsS (CodeRight H K) (do
      walk.forM (commitAccount roots)
      modify fun s => { s with changeLog := [], cache := fun _ => none, unchangedCacheEntries := [] }) := by
    refine (keepsS_forM fun addr _ => keeps_commitAccount addr).bind fun _ s h => ?_
    exact ⟨h.empty, h.sizes_eq, fun x a ha => (by cases ha), h.stored, h.sizes, fun x old hx => (by cases hx)⟩
  unfold commit
  split_ifs
  · exact keeps_removeEmptyAccounts.bind fun _ => hwalk
  · exact hwalk

end Keeps

inductive Act where
  | mutate (m : Mutation)
  | commit (walk : List Address) (behaviour : CommitBehaviour)

namespace Act

def exec (H : Hasher) (roots : TrieRoots) : Act → StateM State Unit
  | mutate m => m.exec H
  | commit walk behaviour => State.commit H roots walk behaviour

/-- The codes are among `K`, and an account is not killed with the code that it has just got. -/
def Sized (H : Hasher) (K : Set Bytes) (s : State) : Act → Prop
  | mutate (.op (.setCode _ newCode)) => newCode ∈ K
  | mutate (.kill addr) =>
    ∀ a, ((account H addr).run s).1 = some a → a.hasNewCode = true → a.codeCache = []
  | _ => True

theorem codeRight_exec (act : Act) (h : CodeRight H K s) (hact : act.Sized H K s) :
    Post (act.exec H roots) s fun _ s' => CodeRight H K s' := by
  cases act with
  | mutate m =>
    cases m with
    | op o =>
      refine h.op ?_
      rintro x code rfl
      exact hact
    | clearStorage addr => exact keeps_clearStorage addr s h
    | kill addr => exact h.kill hact
  | commit walk behaviour => exact keeps_commit walk behaviour s h

end Act

/-- The states that are reached from `s₀`. -/
inductive ActRun (H : Hasher) (roots : TrieRoots) (K : Set Bytes) (s₀ : State) : State → Prop where
  | start : ActRun H roots K s₀ s₀
  | step {s : State} (act : Act) (h : ActRun H roots K s₀ s) (hact : act.Sized H K s) :
    ActRun H roots K s₀ ((act.exec H roots).run s).2

theorem codeRight_run {s₀ : State} (h : CodeRight H K s₀) (hrun : ActRun H roots K s₀ s) :
    CodeRight H K s := by
  induction hrun with
  | start => exact h
  | step act _ hact ih => exact act.codeRight_exec ih hact

variable {codeSizes : CodeSizeCache}

theorem codeRight_opened {db : StateDB} (hempty : [] ∈ K)
    (hsizes_eq : ∀ b ∈ K, ∀ b' ∈ K, H.hash b = H.hash b' → b.length = b'.length)
    (hstored : ∀ addr st, db.account addr = some st → st.codeHash ≠ H.emptySHA3 →
      db.code st.codeHash ∈ K ∧ H.hash (db.code st.codeHash) = st.codeHash)
    (hsizes : ∀ e ∈ codeSizes.entries, ∀ b ∈ K, H.hash b = e.1 → b.length = e.2)
    (accountStartNonce : U256) (random : ℕ → ℕ) :
    CodeRight H K (opened db accountStartNonce codeSizes random) :=
  ⟨hempty, hsizes_eq, fun x a ha => (by cases ha), fun x st hst => Account.codeRight_load fun hne =>
    hstored x st hst hne, hsizes, fun x old hx => (by cases hx)⟩

/-- As long as no account is killed with a new code, the size that is read of a code is that of the
code that is read, in every state that is reached, whatever the caches hold. -/
theorem codeSize_eq_length {db : StateDB} (hempty : [] ∈ K)
    (hsizes_eq : ∀ b ∈ K, ∀ b' ∈ K, H.hash b = H.hash b' → b.length = b'.length)
    (hstored : ∀ addr st, db.account addr = some st → st.codeHash ≠ H.emptySHA3 →
      db.code st.codeHash ∈ K ∧ H.hash (db.code st.codeHash) = st.codeHash)
    (hsizes : ∀ e ∈ codeSizes.entries, ∀ b ∈ K, H.hash b = e.1 → b.length = e.2)
    (accountStartNonce : U256) (random : ℕ → ℕ)
    (hrun : ActRun H roots K (opened db accountStartNonce codeSizes random) s) (addr : Address) :
    ((codeSize H addr).run s).1 = ((code H addr).run s).1.length := by
  have h :=
    codeRight_run (codeRight_opened hempty hsizes_eq hstored hsizes accountStartNonce random) hrun
  exact (h.codeSize addr).2

def bareState : State := opened ⟨fun _ => none, fun _ _ => 0, fun _ => []⟩ 0 ⟨[]⟩ id

def codedState : State :=
  ((commit lengthHasher .trivial [1] .KeepEmptyAccounts).run
    (execAll lengthHasher bareState [.addBalance 1 5, .setCode 1 [1, 2]])).2

theorem codeSize_eq_length_codedState :
    ((codeSize lengthHasher 1).run codedState).1 = 2 ∧
      ((codeSize lengthHasher 1).run codedState).1 = ((code lengthHasher 1).run codedState).1.length := by
  refine ⟨by decide +kernel, ?_⟩
  have hhash : lengthHasher.hash [1, 2] ≠ lengthHasher.hash [] := by decide +kernel
  have hrun : ActRun lengthHasher TrieRoots.trivial {[], [1, 2]} bareState codedState := by
    refine .step (.commit [1] .KeepEmptyAccounts) (.step (.mutate (.op (.setCode 1 [1, 2])))
      (.step (.mutate (.op (.addBalance 1 5))) .start trivial) ?_) trivial
    exact .inr rfl
  refine codeSize_eq_length (.inl rfl) ?_ ?_ ?_ 0 id hrun 1
  · rintro b (rfl | rfl) b' (rfl | rfl) heq
    · rfl
    · exact absurd heq.symm hhash
    · exact absurd heq hhash
    · rfl
  · intro x st hst
    cases hst
  · intro e he
    cases he

/-- An account that is killed with its new code has no code, and the size is still that of the old
one. -/
theorem codeSize_of_killed :
    let s := ((kill lengthHasher 1).run
      (execAll lengthHasher bareState [.addBalance 1 5, .setCode 1 [1, 2]])).2
    ((code lengthHasher 1).run s).1 = [] ∧ ((codeSize lengthHasher 1).run s).1 = 2 := by
  decide +kernel

end State
end Vapory
