import Vapory.Client.LogFilter

/-! The watches of `ClientBase.h`, `ClientBase.cpp` and `Client.cpp`: filters that watches share,
and how log entries reach the watches. -/
namespace Vapory
open Function List

inductive BlockPolarity where
  | Unknown
  | Dead
  | Live
deriving DecidableEq

structure LocalisedLogEntry extends LogEntry where
  blockHash : H256 := 0
  blockNumber : ℕ := 0
  transactionHash : H256 := 0
  transactionIndex : ℕ := 0
  logIndex : ℕ := 0
  polarity : BlockPolarity := .Unknown
  mined : Bool := false
  isSpecial : Bool := false
  special : H256 := 0
deriving DecidableEq

structure InstalledFilter where
  filter : LogFilter
  refCount : UInt32 := 1
  changes : List LocalisedLogEntry := []
deriving DecidableEq

structure ClientWatch where
  id : H256
  changes : List LocalisedLogEntry := []
deriving DecidableEq

def pendingChangedFilter : H256 := 0

def chainChangedFilter : H256 := 1

def specialLogEntry : LogEntry := ⟨0, [], []⟩

/-- The part of `ClientBase` that is about watches; `m_watches` is in the order of its keys. -/
structure ClientBase where
  filters : H256 → Option InstalledFilter := fun _ => none
  specialFilters : H256 → Option (List H256) :=
    fun h => if h = pendingChangedFilter ∨ h = chainChangedFilter then some [] else none
  watches : List (UInt32 × ClientWatch) := []

/-- What `appendFromBlock` reads of the chain for a block. -/
structure MinedBlock where
  hash : H256
  number : ℕ
  polarity : BlockPolarity
  /-- The receipts with the hashes of their transactions. -/
  receipts : List (TransactionReceipt × H256)

namespace ClientBase
variable (H : Hasher) (past : LogEntry → H256)

def nextWatch (c : ClientBase) : UInt32 :=
  match c.watches.getLast? with
  | some w => w.1 + 1
  | none => 0

/-- `m_watches[_] = _`. -/
def setWatch (c : ClientBase) (i : UInt32) (w : ClientWatch) : ClientBase :=
  { c with watches := c.watches.filter (·.1 < i) ++ (i, w) :: c.watches.filter (i < ·.1) }

/-- `installWatch` on an identifier. -/
def installWatchId (c : ClientBase) (h : H256) : UInt32 × ClientBase :=
  let ret := c.nextWatch
  (ret, c.setWatch ret { id := h })

/-- `installWatch` on a filter. -/
def installWatch (c : ClientBase) (f : LogFilter) : Except RLPError (UInt32 × ClientBase) := do
  let h ← f.sha3 H
  let c := if (c.filters h).isNone then
    { c with filters := update c.filters h (some { filter := f }) } else c
  return c.installWatchId h

def uninstallWatch (c : ClientBase) (i : UInt32) : Bool × ClientBase :=
  match c.watches.find? (·.1 = i) with
  | none => (false, c)
  | some (_, w) =>
    let c := { c with watches := c.watches.filter (·.1 ≠ i) }
    match c.filters w.id with
    | none => (true, c)
    | some fit =>
      let refCount := fit.refCount - 1
      (true, { c with
        filters := update c.filters w.id
          (if refCount = 0 then none else some { fit with refCount := refCount }) })

/-- `checkWatch`; a key without a watch throws. -/
def checkWatch (c : ClientBase) (i : UInt32) : Option (List LocalisedLogEntry × ClientBase) :=
  match c.watches.find? (·.1 = i) with
  | none => none
  | some (_, w) =>
    some (w.changes, { c with watches := c.watches.map fun e => if e.1 = i then (e.1, { e.2 with changes := [] }) else e })

/-- `push_back` on a special filter. -/
def noteSpecial (c : ClientBase) (id h : H256) : ClientBase :=
  { c with specialFilters := update c.specialFilters id ((c.specialFilters id).map (· ++ [h])) }

/-- The changes that every filter gets from `news`, with the set of the filters that got one, as a
predicate. -/
def appendNews (c : ClientBase) (news : LogFilter → List LocalisedLogEntry)
    (changed : H256 → Bool) : (H256 → Bool) × ClientBase :=
  (fun id => changed id || (c.filters id).any fun f => !(news f.filter).isEmpty,
    { c with filters := fun id => (c.filters id).map fun f =>
    { f with changes := f.changes ++ news f.filter } })

/-- What a filter catches of a pending transaction. -/
def pendingNews (receipt : TransactionReceipt) (f : LogFilter) : List LocalisedLogEntry :=
  (f.matches_ H past receipt).map fun l => { toLogEntry := l }

def blockNews (b : MinedBlock) (f : LogFilter) : List LocalisedLogEntry :=
  (List.range b.receipts.length).flatMap fun j =>
    ((b.receipts[j]?.map fun r => (f.matches_ H past r.1).map fun l =>
      { toLogEntry := l, blockHash := b.hash, blockNumber := b.number, transactionHash := r.2,
        transactionIndex := j, polarity := b.polarity, mined := true : LocalisedLogEntry }).getD [])

def appendFromNewPending (c : ClientBase) (receipt : TransactionReceipt) (changed : H256 → Bool)
    (sha3 : H256) : (H256 → Bool) × ClientBase :=
  (c.noteSpecial pendingChangedFilter sha3).appendNews (pendingNews H past receipt)
    (update changed pendingChangedFilter true)

def appendFromBlock (c : ClientBase) (b : MinedBlock) (changed : H256 → Bool) :
    (H256 → Bool) × ClientBase :=
  (c.noteSpecial chainChangedFilter b.hash).appendNews (blockNews H past b)
    (update changed chainChangedFilter true)

def accrued (c : ClientBase) (id : H256) : List LocalisedLogEntry :=
  match c.filters id with
  | some f => f.changes
  | none =>
    ((c.specialFilters id).getD []).map fun h => { toLogEntry := specialLogEntry, isSpecial := true, special := h }

def noteChanged (c : ClientBase) (changed : H256 → Bool) : ClientBase where
  watches := c.watches.map fun w =>
    if changed w.2.id then (w.1, { w.2 with changes := w.2.changes ++ c.accrued w.2.id }) else w
  filters := fun id => (c.filters id).map fun f => { f with changes := [] }
  specialFilters := fun id => (c.specialFilters id).map fun _ => []

inductive Call where
  | installWatch (f : LogFilter)
  | installWatchId (h : H256)
  | uninstallWatch (i : UInt32)
  | checkWatch (i : UInt32)
  | appendFromNewPending (receipt : TransactionReceipt) (changed : H256 → Bool) (sha3 : H256)
  | appendFromBlock (b : MinedBlock) (changed : H256 → Bool)
  | noteChanged (changed : H256 → Bool)

def Call.exec (c : ClientBase) : Call → ClientBase
  | installWatch f => ((c.installWatch H f).toOption.map Prod.snd).getD c
  | installWatchId h => (c.installWatchId h).2
  | uninstallWatch i => (c.uninstallWatch i).2
  | checkWatch i => ((c.checkWatch i).map Prod.snd).getD c
  | appendFromNewPending receipt changed sha3 => (c.appendFromNewPending H past receipt changed sha3).2
  | appendFromBlock b changed => (c.appendFromBlock H past b changed).2
  | noteChanged changed => c.noteChanged changed

/-- The watches that were installed on a filter, each with the identifier of that filter: by
`installWatch` on the filter, or on the identifier of one that is in `m_filters`. -/
def Call.live (c : ClientBase) (live : List (UInt32 × H256)) : Call → List (UInt32 × H256)
  | installWatch f =>
    match f.sha3 H with
    | .ok h => (c.nextWatch, h) :: live.filter (·.1 ≠ c.nextWatch)
    | .error _ => live
  | installWatchId h =>
    (if (c.filters h).isSome then [(c.nextWatch, h)] else []) ++ live.filter (·.1 ≠ c.nextWatch)
  | uninstallWatch i => live.filter (·.1 ≠ i)
  | _ => live

/-- The key of a new watch is free, and the watch that is uninstalled is the only one on its
filter. -/
def Call.Meets (c : ClientBase) (live : List (UInt32 × H256)) : Call → Prop
  | installWatch _ => ∀ e ∈ c.watches, e.1 ≠ c.nextWatch
  | installWatchId _ => ∀ e ∈ c.watches, e.1 ≠ c.nextWatch
  | uninstallWatch i => ∀ x ∈ c.watches, x.1 = i → ∀ e ∈ live, e.2 = x.2.id → e.1 = i
  | _ => True

instance Call.decidableMeets (c : ClientBase) (live : List (UInt32 × H256)) : ∀ call :
    Call, Decidable (call.Meets c live)
  | installWatch _ => inferInstanceAs (Decidable (∀ e ∈ c.watches, e.1 ≠ c.nextWatch))
  | installWatchId _ => inferInstanceAs (Decidable (∀ e ∈ c.watches, e.1 ≠ c.nextWatch))
  -- through the list, since there is also an instance that goes through all pairs of words
  | uninstallWatch i =>
    decidable_of_iff (∀ x ∈ c.watches, x.1 = i → live.all (fun e => e.2 = x.2.id → e.1 = i) = true)
    <| by
      simp only [all_eq_true, decide_eq_true_eq, Meets]
  | checkWatch _ => inferInstanceAs (Decidable True)
  | appendFromNewPending _ _ _ => inferInstanceAs (Decidable True)
  | appendFromBlock _ _ => inferInstanceAs (Decidable True)
  | noteChanged _ => inferInstanceAs (Decidable True)

/-- The client after calls that all meet the condition, with its watches on filters. -/
inductive Run : ClientBase → List (UInt32 × H256) → Prop
  | start : Run {} []
  | step {c : ClientBase} {live : List (UInt32 × H256)} (call : Call) (h : Run c live)
  (hmeets : call.Meets c live) :
      Run (call.exec H past c) (call.live H c live)

/-- A filter is in `m_filters` as long as a watch on it is installed. -/
def FiltersLive (c : ClientBase) (live : List (UInt32 × H256)) : Prop :=
  ∀ id, (c.filters id).isSome ↔ ∃ e ∈ live, e.2 = id

/-- What the calls keep. No call ever counts a second watch on a filter. -/
structure Tracks (c : ClientBase) (live : List (UInt32 × H256)) : Prop where
  sorted : c.watches.Pairwise fun e e' => e.1 < e'.1
  refCount : ∀ id f, c.filters id = some f → f.refCount = 1
  sha3 : ∀ id f, c.filters id = some f → f.filter.sha3 H = .ok id
  watch : ∀ e ∈ live, ∃ w, (e.1, w) ∈ c.watches ∧ w.id = e.2
  filters : FiltersLive c live

variable {H past} {c c' : ClientBase} {live : List (UInt32 × H256)}

theorem update_some_cases {α : Type} {m : H256 → Option α} {id id' : H256} {a a' : α}
    (h : update m id (some a) id' = some a') : (id' = id ∧ a' = a) ∨ (id' ≠ id ∧ m id' = some a') := by
  by_cases heq : id' = id
  · subst heq
    rw [update_self] at h
    exact .inl ⟨rfl, (Option.some.inj h).symm⟩
  · rw [update_of_ne heq] at h
    exact .inr ⟨heq, h⟩

theorem watch_unique (hs : c.watches.Pairwise fun e e' => e.1 < e'.1) {e e' : UInt32 × ClientWatch}
    (he : e ∈ c.watches) (he' : e' ∈ c.watches) (hkey : e.1 = e'.1) : e = e' := by
  have hnodup : (c.watches.map Prod.fst).Nodup := by
    rw [List.Nodup, pairwise_map]
    exact hs.imp UInt32.ne_of_lt
  exact inj_on_of_nodup_map hnodup he he' hkey

variable {i : UInt32} {w : ClientWatch}

theorem find?_watches (hs : c.watches.Pairwise fun e e' => e.1 < e'.1)
    (hw : (i, w) ∈ c.watches) : c.watches.find? (·.1 = i) = some (i, w) := by
  cases hfind : c.watches.find? (·.1 = i) with
  | none =>
    have hnone := List.find?_eq_none.mp hfind (i, w) hw
    simp at hnone
  | some e =>
    have hkey : e.1 = i := by simpa using List.find?_some hfind
    rw [watch_unique hs (mem_of_find?_eq_some hfind) hw hkey]

@[simp]
theorem installWatchId_filters (c : ClientBase) (id : H256) :
    (c.installWatchId id).2.filters = c.filters := rfl

theorem mem_setWatch (hfree : ∀ e ∈ c.watches, e.1 ≠ i) {e : UInt32 × ClientWatch} :
    e ∈ (c.setWatch i w).watches ↔ e = (i, w) ∨ e ∈ c.watches := by
  unfold setWatch
  simp only [mem_append, mem_cons, mem_filter, decide_eq_true_eq]
  constructor
  · intro h
    obtain h | h | h := h
    · exact .inr h.1
    · exact .inl h
    · exact .inr h.1
  · intro h
    obtain h | h := h
    · exact .inr (.inl h)
    · obtain hlt | hlt := UInt32.lt_or_lt_of_ne (hfree e h)
      · exact .inl ⟨h, hlt⟩
      · exact .inr (.inr ⟨h, hlt⟩)

theorem sorted_setWatch (hs : c.watches.Pairwise fun e e' => e.1 < e'.1) (i : UInt32)
    (w : ClientWatch) : (c.setWatch i w).watches.Pairwise fun e e' => e.1 < e'.1 := by
  unfold setWatch
  rw [pairwise_append, pairwise_cons]
  refine ⟨hs.filter _, ⟨?_, hs.filter _⟩, ?_⟩
  · intro e he
    simpa using (mem_filter.mp he).2
  · intro e he e' he'
    have hlt : e.1 < i := by simpa using (mem_filter.mp he).2
    obtain rfl | he' := mem_cons.mp he'
    · exact hlt
    · have hgt : i < e'.1 := by simpa using (mem_filter.mp he').2
      exact UInt32.lt_trans hlt hgt

theorem Tracks.uninstallWatch_eq (h : Tracks H c live) (hw : (i, w) ∈ c.watches) :
    (c.uninstallWatch i).2 =
      { c with watches := c.watches.filter (·.1 ≠ i), filters := update c.filters w.id none } := by
  unfold uninstallWatch
  rw [find?_watches h.sorted hw]
  cases hf : c.filters w.id with
  | none =>
    have hsame : update c.filters w.id none = c.filters := by
      rw [update_eq_self_iff, hf]
    simp only [hf, hsame]
  | some f =>
    have hzero : f.refCount - 1 = 0 := by
      rw [h.refCount w.id f hf]
      rfl
    simp only [hf, hzero, if_true]

theorem uninstallWatch_absent (hw : ∀ w, (i, w) ∉ c.watches) : (c.uninstallWatch i).2 = c := by
  unfold uninstallWatch
  have hnone : c.watches.find? (·.1 = i) = none := by
    apply List.find?_eq_none.mpr
    intro e he hkey
    have heq : e.1 = i := by simpa using hkey
    exact hw e.2 (heq ▸ he)
  rw [hnone]

theorem Tracks.filter_live_absent (h : Tracks H c live) (hw : ∀ w, (i, w) ∉ c.watches) :
    live.filter (·.1 ≠ i) = live := by
  apply filter_eq_self.mpr
  intro e he
  obtain ⟨w, hmem, -⟩ := h.watch e he
  simp only [ne_eq, decide_not, Bool.not_eq_true', decide_eq_false_iff_not]
  intro heq
  exact hw w (heq ▸ hmem)

theorem Tracks.id_eq (h : Tracks H c live) (hw : (i, w) ∈ c.watches)
    {e : UInt32 × H256} (he : e ∈ live) (hkey : e.1 = i) : e.2 = w.id := by
  obtain ⟨w', hmem, hid⟩ := h.watch e he
  have heq : w' = w := congrArg Prod.snd (watch_unique h.sorted hmem hw hkey)
  rw [← hid, heq]

theorem Tracks.filtersLive_uninstallWatch_iff (h : Tracks H c live) (i : UInt32) :
    FiltersLive (c.uninstallWatch i).2 (live.filter (·.1 ≠ i)) ↔
    (Call.uninstallWatch i).Meets c live := by
  by_cases hw : ∃ w, (i, w) ∈ c.watches
  · obtain ⟨w, hw⟩ := hw
    rw [h.uninstallWatch_eq hw]
    constructor
    · intro hlive x hx hkey e he hid
      have heq : x = (i, w) := watch_unique h.sorted hx hw hkey
      by_contra hne
      have hsome := (hlive w.id).mpr ⟨e, mem_filter.mpr ⟨he, by simpa using hne⟩, by rw [hid, heq]⟩
      simp at hsome
    · intro hmeets id
      by_cases hid : id = w.id
      · subst hid
        simp only [update_self, Option.isSome_none, Bool.false_eq_true, false_iff]
        rintro ⟨e, he, heid⟩
        have hmem := mem_filter.mp he
        have hne : e.1 ≠ i := by simpa using hmem.2
        exact hne (hmeets (i, w) hw rfl e hmem.1 heid)
      · simp only [update_of_ne hid]
        rw [h.filters id]
        constructor
        · rintro ⟨e, he, heid⟩
          refine ⟨e, mem_filter.mpr ⟨he, ?_⟩, heid⟩
          have hne : e.1 ≠ i := fun hkey => hid (heid ▸ h.id_eq hw he hkey)
          simpa using hne
        · rintro ⟨e, he, heid⟩
          exact ⟨e, (mem_filter.mp he).1, heid⟩
  · have hw' : ∀ w, (i, w) ∉ c.watches := not_exists.mp hw
    rw [uninstallWatch_absent hw', h.filter_live_absent hw']
    constructor
    · intro _ x hx hkey
      exact absurd (hkey ▸ hx) (hw' x.2)
    · intro _
      exact h.filters

theorem Tracks.uninstallWatch (h : Tracks H c live) (hmeets : (Call.uninstallWatch i).Meets c live) :
    Tracks H (c.uninstallWatch i).2 (live.filter (·.1 ≠ i)) := by
  have hfilters := (h.filtersLive_uninstallWatch_iff i).mpr hmeets
  by_cases hw : ∃ w, (i, w) ∈ c.watches
  · obtain ⟨w, hw⟩ := hw
    have hold : ∀ id f, (c.uninstallWatch i).2.filters id = some f → c.filters id = some f := by
      intro id f hf
      rw [h.uninstallWatch_eq hw] at hf
      by_cases hid : id = w.id
      · simp [hid] at hf
      · simpa [update_of_ne hid] using hf
    refine ⟨?_, fun id f hf => h.refCount id f (hold id f hf), fun id f hf =>
      h.sha3 id f (hold id f hf), ?_, hfilters⟩
    · rw [h.uninstallWatch_eq hw]
      exact h.sorted.filter _
    · intro e he
      have hmem := mem_filter.mp he
      obtain ⟨w', hw', hid⟩ := h.watch e hmem.1
      rw [h.uninstallWatch_eq hw]
      exact ⟨w', mem_filter.mpr ⟨hw', hmem.2⟩, hid⟩
  · have hw' : ∀ w, (i, w) ∉ c.watches := not_exists.mp hw
    rw [uninstallWatch_absent hw', h.filter_live_absent hw']
    exact h

theorem Tracks.filter_live_free (h : Tracks H c live) (hfree : ∀ e ∈ c.watches, e.1 ≠ i) :
    live.filter (·.1 ≠ i) = live :=
  h.filter_live_absent fun w hw => hfree (i, w) hw rfl

variable {id : H256}

theorem Tracks.watch_setWatch (h : Tracks H c live) (hfree : ∀ e ∈ c.watches, e.1 ≠ i)
    {new : List (UInt32 × H256)} (hnew : ∀ e ∈ new, e = (i, id)) {e : UInt32 × H256}
    (he : e ∈ new ++ live) : ∃ w, (e.1, w) ∈ (c.setWatch i { id := id }).watches ∧ w.id = e.2 := by
  obtain he | he := mem_append.mp he
  · rw [hnew e he]
    exact ⟨{ id := id }, (mem_setWatch hfree).mpr (.inl rfl), rfl⟩
  · obtain ⟨w, hw, hid⟩ := h.watch e he
    exact ⟨w, (mem_setWatch hfree).mpr (.inr hw), hid⟩

theorem Tracks.installWatchId (h : Tracks H c live) (id : H256)
    (hfree : ∀ e ∈ c.watches, e.1 ≠ c.nextWatch) : Tracks H (c.installWatchId id).2
      ((if (c.filters id).isSome then [(c.nextWatch, id)] else []) ++ live.filter (·.1 ≠ c.nextWatch)) := by
  rw [h.filter_live_free hfree]
  have hnew : ∀ e ∈ if (c.filters id).isSome then [(c.nextWatch, id)] else [],
    e = (c.nextWatch, id) ∧ (c.filters id).isSome := by
    intro e he
    split_ifs at he with hsome
    · exact ⟨mem_singleton.mp he, hsome⟩
    · cases he
  refine ⟨sorted_setWatch h.sorted _ _, h.refCount, h.sha3, fun e he =>
    h.watch_setWatch hfree (fun e he => (hnew e he).1) he, ?_⟩
  intro id'
  rw [installWatchId_filters, h.filters id']
  constructor
  · rintro ⟨e, he, heid⟩
    exact ⟨e, mem_append_right _ he, heid⟩
  · rintro ⟨e, he, heid⟩
    obtain he | he := mem_append.mp he
    · obtain ⟨rfl, hsome⟩ := hnew e he
      exact heid ▸ (h.filters id).mp hsome
    · exact ⟨e, he, heid⟩

/-- The filter that `installWatch` puts in place before it installs the watch. -/
def addFilter (c : ClientBase) (h : H256) (f : LogFilter) : ClientBase :=
  if (c.filters h).isNone then { c with filters := update c.filters h (some { filter := f }) } else c

theorem installWatch_eq {f : LogFilter} (hf : f.sha3 H = .ok id) :
    c.installWatch H f = .ok ((c.addFilter id f).installWatchId id) := by
  unfold installWatch
  rw [hf]
  rfl

theorem Tracks.installWatch (h : Tracks H c live) {f : LogFilter} (hf : f.sha3 H = .ok id)
    (hfree : ∀ e ∈ c.watches, e.1 ≠ c.nextWatch) :
    Tracks H ((c.addFilter id f).installWatchId id).2
    ((c.nextWatch, id) :: live.filter (·.1 ≠ c.nextWatch)) := by
  cases hid : c.filters id with
  | some f' =>
    have hsame : c.addFilter id f = c := by simp [addFilter, hid]
    have hnew := h.installWatchId id hfree
    rw [hid, Option.isSome_some, if_pos rfl] at hnew
    rw [hsame]
    exact hnew
  | none =>
    have hadd : c.addFilter id f = { c with filters := update c.filters id (some { filter := f }) } := by
      simp [addFilter, hid]
    rw [hadd, h.filter_live_free hfree]
    have hnew : ∀ e ∈ [(c.nextWatch, id)], e = (c.nextWatch, id) := fun e he => mem_singleton.mp he
    refine ⟨sorted_setWatch h.sorted _ _, ?_, ?_, fun e he => h.watch_setWatch hfree hnew he, ?_⟩
    · intro id' f' hf'
      obtain ⟨rfl, rfl⟩ | ⟨-, hold⟩ := update_some_cases hf'
      · rfl
      · exact h.refCount id' f' hold
    · intro id' f' hf'
      obtain ⟨rfl, rfl⟩ | ⟨-, hold⟩ := update_some_cases hf'
      · exact hf
      · exact h.sha3 id' f' hold
    · intro id'
      by_cases heq : id' = id
      · subst heq
        simp
      · have hold := h.filters id'
        simp only [installWatchId_filters, update_of_ne heq, mem_cons]
        rw [hold]
        constructor
        · rintro ⟨e, he, heid⟩
          exact ⟨e, .inr he, heid⟩
        · rintro ⟨e, rfl | he, heid⟩
          · exact absurd heid.symm heq
          · exact ⟨e, he, heid⟩

/-- The watches and the filters are the same but for their changes. -/
structure Kept (c c' : ClientBase) : Prop where
  watches : c'.watches.map (fun e => (e.1, e.2.id)) = c.watches.map fun e => (e.1, e.2.id)
  filters : ∀ id, (c'.filters id).map (fun f => (f.filter, f.refCount)) =
    (c.filters id).map fun f => (f.filter, f.refCount)

theorem Kept.tracks (hk : Kept c c') (h : Tracks H c live) : Tracks H c' live := by
  have hold : ∀ id f, c'.filters id = some f → ∃ f', c.filters id = some f' ∧ f'.filter = f.filter ∧
    f'.refCount = f.refCount := by
    intro id f hf
    have heq := hk.filters id
    rw [hf, Option.map_some] at heq
    obtain ⟨f', hf', hsame⟩ := Option.map_eq_some_iff.mp heq.symm
    exact ⟨f', hf', congrArg Prod.fst hsame, congrArg Prod.snd hsame⟩
  refine ⟨?_, ?_, ?_, ?_, ?_⟩
  · have hkeys : c'.watches.map Prod.fst = c.watches.map Prod.fst := by
      have heq := congrArg (List.map Prod.fst) hk.watches
      rwa [map_map, map_map] at heq
    have hs : (c.watches.map Prod.fst).Pairwise (· < ·) := pairwise_map.mpr h.sorted
    rw [← hkeys] at hs
    exact pairwise_map.mp hs
  · intro id f hf
    obtain ⟨f', hf', -, hcount⟩ := hold id f hf
    exact hcount ▸ h.refCount id f' hf'
  · intro id f hf
    obtain ⟨f', hf', hfilter, -⟩ := hold id f hf
    exact hfilter ▸ h.sha3 id f' hf'
  · intro e he
    obtain ⟨w, hw, hid⟩ := h.watch e he
    have hmem : (e.1, w.id) ∈ c'.watches.map fun e => (e.1, e.2.id) := by
      rw [hk.watches]
      exact mem_map.mpr ⟨(e.1, w), hw, rfl⟩
    obtain ⟨⟨i, w'⟩, hw', heq⟩ := mem_map.mp hmem
    obtain ⟨rfl, hid'⟩ := Prod.mk.injEq .. ▸ heq
    exact ⟨w', hw', hid'.trans hid⟩
  · intro id
    have hsome := congrArg Option.isSome (hk.filters id)
    rw [Option.isSome_map, Option.isSome_map] at hsome
    rw [hsome]
    exact h.filters id

theorem kept_checkWatch (c : ClientBase) (i : UInt32) :
    Kept c (((c.checkWatch i).map Prod.snd).getD c) := by
  unfold checkWatch
  cases c.watches.find? (·.1 = i) with
  | none => exact ⟨rfl, fun _ => rfl⟩
  | some e =>
    refine ⟨?_, fun _ => rfl⟩
    simp only [Option.map_some, Option.getD_some, map_map]
    apply map_congr_left
    intro e _
    simp only [Function.comp_apply]
    split_ifs <;> rfl

theorem kept_appendNews (c : ClientBase) (news : LogFilter → List LocalisedLogEntry)
    (changed : H256 → Bool) (id h : H256) :
    Kept c ((c.noteSpecial id h).appendNews news changed).2 := by
  refine ⟨rfl, fun id' => ?_⟩
  simp only [appendNews, noteSpecial, Option.map_map]
  rfl

theorem kept_noteChanged (c : ClientBase) (changed : H256 → Bool) :
    Kept c (c.noteChanged changed) := by
  constructor
  · simp only [noteChanged, map_map]
    apply map_congr_left
    intro e _
    simp only [Function.comp_apply]
    split_ifs <;> rfl
  · intro id
    simp only [noteChanged, Option.map_map]
    rfl

theorem Tracks.start : Tracks H {} [] where
  sorted := .nil
  refCount _ _ h := by cases h
  sha3 _ _ h := by cases h
  watch _ h := by cases h
  filters id := by simp

theorem Tracks.step (h : Tracks H c live) (call : Call) (hmeets : call.Meets c live) :
    Tracks H (call.exec H past c) (call.live H c live) := by
  cases call with
  | installWatch f =>
    simp only [Call.exec, Call.live]
    cases hf : f.sha3 H with
    | error e =>
      have herr : c.installWatch H f = .error e := by
        unfold ClientBase.installWatch
        rw [hf]
        rfl
      rw [herr]
      exact h
    | ok id =>
      rw [installWatch_eq hf]
      exact h.installWatch hf hmeets
  | installWatchId id => exact h.installWatchId id hmeets
  | uninstallWatch i => exact h.uninstallWatch hmeets
  | checkWatch i => exact (kept_checkWatch c i).tracks h
  | appendFromNewPending receipt changed sha3 => exact (kept_appendNews c _ _ _ _).tracks h
  | appendFromBlock b changed => exact (kept_appendNews c _ _ _ _).tracks h
  | noteChanged changed => exact (kept_noteChanged c changed).tracks h

theorem Run.tracks (h : Run H past c live) : Tracks H c live := by
  induction h with
  | start => exact .start
  | step call _ hmeets ih => exact ih.step call hmeets

theorem mem_noteChanged_appendFromBlock {f : InstalledFilter} (b : MinedBlock) (changed : H256 → Bool)
    (hw : (i, w) ∈ c.watches) (hf : c.filters w.id = some f)
    (hnews : blockNews H past b f.filter ≠ []) :
    (i, { w with changes := w.changes ++ f.changes ++ blockNews H past b f.filter }) ∈
      ((c.appendFromBlock H past b changed).2.noteChanged
      (c.appendFromBlock H past b changed).1).watches := by
  refine mem_map.mpr ⟨(i, w), hw, ?_⟩
  have hchanged : (c.appendFromBlock H past b changed).1 w.id = true := by
    simp [appendFromBlock, appendNews, noteSpecial, hf, hnews]
  have haccrued : (c.appendFromBlock H past b changed).2.accrued w.id = f.changes ++
    blockNews H past b f.filter := by
    simp [accrued, appendFromBlock, appendNews, noteSpecial, hf]
  rw [if_pos hchanged, haccrued, append_assoc]

/-- In a run in which a watch is uninstalled only when no other watch on its filter is left, every
filter with a watch is in `m_filters` and no other one is, and the log entries that it catches reach
the watch. After such a run the next `uninstallWatch` keeps this just if it meets the condition as
well. -/
theorem filters_of_run (h : Run H past c live) :
    FiltersLive c live ∧
      (∀ e ∈ live, ∃ w f, (e.1, w) ∈ c.watches ∧ c.filters e.2 = some f ∧
        f.filter.sha3 H = .ok e.2 ∧ ∀ b changed, blockNews H past b f.filter ≠ [] →
          (e.1, { w with changes := w.changes ++ f.changes ++ blockNews H past b f.filter }) ∈
            ((c.appendFromBlock H past b changed).2.noteChanged
            (c.appendFromBlock H past b changed).1).watches) ∧
      ∀ i, FiltersLive ((Call.uninstallWatch i).exec H past c)
        ((Call.uninstallWatch i).live H c live) ↔ (Call.uninstallWatch i).Meets c live := by
  have htracks := h.tracks
  refine ⟨htracks.filters, ?_, htracks.filtersLive_uninstallWatch_iff⟩
  intro e he
  obtain ⟨w, hw, hid⟩ := htracks.watch e he
  obtain ⟨f, hf⟩ := Option.isSome_iff_exists.mp ((htracks.filters e.2).mpr ⟨e, he, rfl⟩)
  refine ⟨w, f, hw, hf, htracks.sha3 e.2 f hf, ?_⟩
  intro b changed hnews
  exact mem_noteChanged_appendFromBlock b changed hw (hid ▸ hf) hnews

def exampleHasher : Hasher := ⟨fun _ => List.replicate 31 0 ++ [7], fun _ => rfl⟩

def exampleCalls (calls : List Call) : ClientBase :=
  calls.foldl (Call.exec exampleHasher fun _ => 0) {}

theorem Run.next (h : Run H past c live) (call : Call) {live' : List (UInt32 × H256)}
    (hmeets : call.Meets c live) (hlive : call.live H c live = live') :
    Run H past (call.exec H past c) live' := by
  rw [← hlive]
  exact h.step call hmeets

theorem filters_of_run_example :
    let c := exampleCalls [.installWatch {}, .installWatchId chainChangedFilter, .uninstallWatch 0,
      .installWatch {}]
    Run exampleHasher (fun _ => 0) c [(2, 7)] ∧ FiltersLive c [(2, 7)] := by
  have hstart : Run exampleHasher (fun _ => 0) (exampleCalls []) [] := .start
  have hfirst :=
    hstart.next (.installWatch {}) (by decide +kernel) (show _ = [(0, 7)] by decide +kernel)
  have hchain := hfirst.next (.installWatchId chainChangedFilter) (by decide +kernel)
    (show _ = [(0, 7)] by decide +kernel)
  have hleft := hchain.next (.uninstallWatch 0) (by decide +kernel) (show _ = [] by decide +kernel)
  have hagain :=
    hleft.next (.installWatch {}) (by decide +kernel) (show _ = [(2, 7)] by decide +kernel)
  exact ⟨hagain, (filters_of_run hagain).1⟩

def exampleLogBlock : MinedBlock where
  hash := 5
  number := 1
  polarity := .Live
  receipts := [(.new exampleHasher (.inl 1) 0 [⟨9, [], []⟩], 6)]

def exampleNews (c : ClientBase) : List (UInt32 × List LogEntry) :=
  let appended := c.appendFromBlock exampleHasher (fun _ => 0) exampleLogBlock fun _ => false
  (appended.2.noteChanged appended.1).watches.map fun e =>
    (e.1, e.2.changes.map LocalisedLogEntry.toLogEntry)

/-- Of two watches on one filter the first takes the filter with it, and the second gets no entries
any more. -/
theorem uninstallWatch_shared :
    exampleNews (exampleCalls [.installWatch {}, .installWatch {}]) =
    [(0, [⟨9, [], []⟩]), (1, [⟨9, [], []⟩])] ∧
      exampleNews (exampleCalls [.installWatch {}, .installWatch {}, .uninstallWatch 0]) =
      [(1, [])] ∧ LogFilter.sha3 exampleHasher {} = .ok 7 ∧
      (exampleCalls [.installWatch {}, .installWatch {}, .uninstallWatch 0]).filters 7 = none := by
  decide +kernel

end ClientBase
end Vapory
