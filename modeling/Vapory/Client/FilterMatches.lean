import Vapory.Chain.Canonical
import Vapory.Client.FilterBlooms

/-! Which entries of a receipt a filter matches, with the reads of the entries' topics: an entry
whose topics end at a position with alternatives is read behind their end. -/
namespace Vapory.LogFilter
open List Bool
open BlockChain (tailHasher)
variable {H : Hasher} {f : LogFilter} {e : LogEntry} {m : TransactionReceipt}

/-- The loop over the positions in `matches`; a read behind the end of the topics is an error that
tells the position. -/
def testTopics (f : LogFilter) (e : LogEntry) : List (Fin 4) → Except ℕ Bool
  | [] => .ok true
  | i :: is =>
    if f.topics i = [] then testTopics f e is
    else if e.topics.length < i.val then .ok false
    else match e.topics[i.val]? with
      | none => .error i.val
      | some t => if t ∈ f.topics i then testTopics f e is else .ok false

theorem testTopics_nil : f.testTopics e [] = .ok true := rfl

theorem testTopics_cons (i : Fin 4) (is : List (Fin 4)) : f.testTopics e (i :: is) =
    if f.topics i = [] then f.testTopics e is
    else if e.topics.length < i.val then .ok false
    else match e.topics[i.val]? with
      | none => .error i.val
      | some t => if t ∈ f.topics i then f.testTopics e is else .ok false := rfl

def testEntry (f : LogFilter) (e : LogEntry) : Except ℕ Bool :=
  if f.addresses ≠ [] ∧ e.address ∉ f.addresses then .ok false else f.testTopics e (List.finRange 4)

def matchLoop (f : LogFilter) : List LogEntry → List LogEntry → Except ℕ (List LogEntry)
  | [], ret => .ok ret
  | e :: es, ret => do
    let ok ← f.testEntry e
    matchLoop f es (if ok then ret ++ [e] else ret)

/-- `matches` of a receipt, with the reads checked. -/
def matchesChecked (H : Hasher) (f : LogFilter) (m : TransactionReceipt) : Except ℕ (List LogEntry) :=
  if f.isRangeFilter then .ok m.log
  else if f.matchesBloom H m.bloom then f.matchLoop m.log []
  else .ok []

/-- The topic of the entry at a position is among the alternatives there, if there are any. -/
def Passes (f : LogFilter) (e : LogEntry) (i : Fin 4) : Prop :=
  f.topics i ≠ [] → ∃ t ∈ f.topics i, e.topics[i.val]? = some t

/-- The test comes to a position with alternatives at which the entry has no more topics. -/
structure Overruns (f : LogFilter) (e : LogEntry) : Prop where
  address : f.addresses ≠ [] → e.address ∈ f.addresses
  topic : ∃ i : Fin 4, f.topics i ≠ [] ∧ e.topics.length = i.val ∧ ∀ j < i, f.Passes e j

/-- No entry that the loop tests ends where the filter has alternatives. -/
def InBounds (H : Hasher) (f : LogFilter) (m : TransactionReceipt) : Prop :=
  f.isRangeFilter = false → f.matchesBloom H m.bloom = true → ∀ e ∈ m.log, ¬ f.Overruns e

theorem testTopics_eq_true {is : List (Fin 4)} :
    f.testTopics e is = .ok true ↔ ∀ i ∈ is, f.Passes e i := by
  induction is with
  | nil => exact iff_of_true rfl (forall_mem_nil _)
  | cons i is ih =>
    rw [testTopics_cons, forall_mem_cons]
    by_cases hnone : f.topics i = []
    · rw [if_pos hnone, ih]
      exact (and_iff_right fun h => absurd hnone h).symm
    rw [if_neg hnone]
    have hpass : f.Passes e i ↔ ∃ t ∈ f.topics i, e.topics[i.val]? = some t := forall_prop_of_true hnone
    by_cases hshort : e.topics.length < i.val
    · rw [if_pos hshort, hpass, List.getElem?_eq_none hshort.le]
      simp
    rw [if_neg hshort, hpass]
    cases ht : e.topics[i.val]? with
    | none => simp
    | some t =>
      by_cases hmem : t ∈ f.topics i
      · simp [hmem, ih]
      · simp [hmem]

/-- The loop fails at the first position with alternatives at which the topics end. -/
theorem exists_testTopics_error {is : List (Fin 4)} (hsorted : is.Pairwise (· < ·)) :
    (∃ n, f.testTopics e is = .error n) ↔ ∃ i ∈ is, f.topics i ≠ [] ∧ e.topics.length = i.val ∧
    ∀ j ∈ is, j < i → f.Passes e j := by
  induction is with
  | nil => simp [testTopics_nil]
  | cons k is ih =>
    obtain ⟨hk, hsorted⟩ := pairwise_cons.mp hsorted
    have ih := ih hsorted
    -- what comes later in the list is a later position
    have htail (hpass : f.Passes e k) (hends : f.topics k ≠ [] → e.topics.length ≠ k.val) :
        (∃ i ∈ k :: is, f.topics i ≠ [] ∧ e.topics.length = i.val ∧ ∀ j ∈ k :: is, j < i → f.Passes e j) ↔
          ∃ i ∈ is, f.topics i ≠ [] ∧ e.topics.length = i.val ∧ ∀ j ∈ is, j < i → f.Passes e j := by
      constructor
      · rintro ⟨i, hi, hne, hlen, hall⟩
        rcases mem_cons.mp hi with rfl | hi
        · exact absurd hlen (hends hne)
        · exact ⟨i, hi, hne, hlen, fun j hj => hall j (mem_cons_of_mem _ hj)⟩
      · rintro ⟨i, hi, hne, hlen, hall⟩
        refine ⟨i, mem_cons_of_mem _ hi, hne, hlen, fun j hj hlt => ?_⟩
        rcases mem_cons.mp hj with rfl | hj
        · exact hpass
        · exact hall j hj hlt
    rw [testTopics_cons]
    by_cases hnone : f.topics k = []
    · rw [if_pos hnone, ih, htail (fun h => absurd hnone h) fun h => absurd hnone h]
    rw [if_neg hnone]
    by_cases hshort : e.topics.length < k.val
    · rw [if_pos hshort]
      refine iff_of_false (by simp) ?_
      rintro ⟨i, hi, -, hlen, -⟩
      rcases mem_cons.mp hi with rfl | hi
      · omega
      · have := hk i hi
        omega
    rw [if_neg hshort]
    cases ht : e.topics[k.val]? with
    | none =>
      have hlen : e.topics.length = k.val := by
        have := List.getElem?_eq_none_iff.mp ht
        omega
      refine iff_of_true ⟨k.val, rfl⟩ ⟨k, mem_cons_self, hnone, hlen, fun j hj hlt => ?_⟩
      rcases mem_cons.mp hj with rfl | hj
      · exact absurd hlt (lt_irrefl _)
      · exact absurd (hk j hj) (lt_asymm hlt)
    | some t =>
      have hlt := (List.getElem?_eq_some_iff.mp ht).1
      by_cases hmem : t ∈ f.topics k
      · have hpass : f.Passes e k := fun _ => ⟨t, hmem, ht⟩
        rw [htail hpass fun _ => hlt.ne', ← ih]
        simp [hmem]
      · refine iff_of_false (by simp [hmem]) ?_
        rintro ⟨i, hi, -, hlen, hall⟩
        rcases mem_cons.mp hi with rfl | hi
        · omega
        · obtain ⟨t', ht', hget⟩ := hall k mem_cons_self (hk i hi) hnone
          rw [ht] at hget
          obtain rfl := Option.some.inj hget
          exact hmem ht'

def wants (f : LogFilter) (e : LogEntry) : Bool :=
  (f.addresses.isEmpty || f.addresses.contains e.address) &&
    (List.finRange 4).all fun i => (f.topics i).isEmpty || (e.topics[i.val]?).any (f.topics i).contains

theorem wants_eq_true : f.wants e = true ↔ f.Wants e := by
  unfold wants
  simp only [and_eq_true, or_eq_true, List.isEmpty_iff, contains_iff_mem, all_eq_true,
    mem_finRange, forall_true_left, Option.any_eq_true]
  constructor
  · rintro ⟨haddress, htopics⟩
    constructor
    · exact fun hne => haddress.resolve_left hne
    · intro i hne
      obtain ⟨t, hget, hmem⟩ := (htopics i).resolve_left hne
      exact ⟨t, hmem, hget⟩
  · intro h
    constructor
    · exact or_iff_not_imp_left.mpr h.address
    · intro i
      apply or_iff_not_imp_left.mpr
      intro hne
      obtain ⟨t, hmem, hget⟩ := h.topic i hne
      exact ⟨t, hget, hmem⟩

theorem testEntry_eq_true : f.testEntry e = .ok true ↔ f.Wants e := by
  have hwants : f.Wants e ↔ (f.addresses ≠ [] → e.address ∈ f.addresses) ∧ ∀ i, f.Passes e i :=
    ⟨fun h => ⟨h.address, h.topic⟩, fun h => ⟨h.1, h.2⟩⟩
  rw [testEntry, hwants]
  split_ifs with haddress
  · exact iff_of_false (by simp) fun h => haddress.2 (h.1 haddress.1)
  · have hin : f.addresses ≠ [] → e.address ∈ f.addresses := fun hne => not_not.mp (not_and.mp haddress hne)
    rw [testTopics_eq_true, and_iff_right hin]
    exact forall_congr' fun i => forall_prop_of_true (mem_finRange i)

theorem exists_testEntry_error : (∃ n, f.testEntry e = .error n) ↔ f.Overruns e := by
  have hsorted : (List.finRange 4).Pairwise (· < ·) := by decide
  rw [testEntry]
  split_ifs with haddress
  · exact iff_of_false (by simp) fun h => haddress.2 (h.address haddress.1)
  · have hin : f.addresses ≠ [] → e.address ∈ f.addresses := fun hne => not_not.mp (not_and.mp haddress hne)
    rw [exists_testTopics_error hsorted]
    constructor
    · rintro ⟨i, -, hne, hlen, hall⟩
      exact ⟨hin, i, hne, hlen, fun j hlt => hall j (mem_finRange j) hlt⟩
    · rintro ⟨-, i, hne, hlen, hall⟩
      exact ⟨i, mem_finRange i, hne, hlen, fun j _ hlt => hall j hlt⟩

theorem testEntry_of_not_overruns (h : ¬ f.Overruns e) : f.testEntry e = .ok (f.wants e) := by
  cases htest : f.testEntry e with
  | error n => exact absurd (exists_testEntry_error.mp ⟨n, htest⟩) h
  | ok b =>
    have hb : b = true ↔ f.wants e = true := by
      rw [wants_eq_true, ← testEntry_eq_true, htest]
      exact ⟨fun h => h ▸ rfl, fun h => Except.ok.inj h⟩
    rw [Bool.eq_iff_iff.mpr hb]

theorem matchLoop_eq_ok {es ret : List LogEntry} (h : ∀ e ∈ es, ¬ f.Overruns e) :
    f.matchLoop es ret = .ok (ret ++ es.filter f.wants) := by
  induction es generalizing ret with
  | nil => simp [matchLoop]
  | cons e es ih =>
    obtain ⟨he, hes⟩ := forall_mem_cons.mp h
    rw [matchLoop, testEntry_of_not_overruns he, Except.ok_bind, ih hes, filter_cons]
    split_ifs <;> simp

theorem matchLoop_error {es : List LogEntry} (ret : List LogEntry) (h : ∃ e ∈ es, f.Overruns e) :
    ∃ n, f.matchLoop es ret = .error n := by
  induction es generalizing ret with
  | nil => exact absurd h (by simp)
  | cons e es ih =>
    rw [matchLoop]
    cases htest : f.testEntry e with
    | error n => exact ⟨n, rfl⟩
    | ok b =>
      rw [Except.ok_bind]
      apply ih
      obtain ⟨e', hmem, hover⟩ := h
      rcases mem_cons.mp hmem with rfl | hmem
      · obtain ⟨n, hn⟩ := exists_testEntry_error.mpr hover
        rw [htest] at hn
        cases hn
      · exact ⟨e', hmem, hover⟩

/-- What stands behind the topics does not matter for an entry that is not read there. -/
theorem matchesEntry_of_not_overruns (h : ¬ f.Overruns e) (past : LogEntry → H256) :
    f.matchesEntry past e = f.wants e := by
  rw [Bool.eq_iff_iff, wants_eq_true]
  refine ⟨fun hmatch => ?_, fun hwants => hwants.matchesEntry past⟩
  unfold matchesEntry at hmatch
  simp only [and_eq_true, or_eq_true, List.isEmpty_iff, contains_iff_mem, all_eq_true,
    mem_finRange, forall_true_left, not_eq_true', or_eq_false_iff,
    decide_eq_false_iff_not, not_eq_false'] at hmatch
  obtain ⟨haddress, htopics⟩ := hmatch
  have hin : f.addresses ≠ [] → e.address ∈ f.addresses := fun hne => haddress.resolve_left hne
  refine ⟨hin, fun i => ?_⟩
  -- by the first position at which the topics end
  induction i using WellFoundedLT.induction with
  | ind i ih =>
    intro hne
    obtain ⟨hlen, hmem⟩ := (htopics i).resolve_left hne
    rcases Nat.lt_or_ge i.val e.topics.length with hlt | hge
    · rw [getD_eq_getElem?_getD, List.getElem?_eq_getElem hlt] at hmem
      exact ⟨_, hmem, List.getElem?_eq_getElem hlt⟩
    · exact absurd ⟨hin, i, hne, by omega, fun j hj => ih j hj⟩ h

/-- If the bloom of a receipt is that of its entries, `matches` reads no topic behind the end of an
entry's topics exactly if no entry that it tests ends where the filter has alternatives. In this
case it returns the entries that the filter asks for, in their order. -/
theorem matches_exact (H : Hasher) (f : LogFilter) (m : TransactionReceipt)
    (hbloom : m.bloom = m.log.foldl (fun ret e => ret ||| e.bloom H) 0) :
    ((∃ r, f.matchesChecked H m = .ok r) ↔ InBounds H f m) ∧
      (InBounds H f m → f.matchesChecked H m = .ok (m.log.filter f.wants) ∧
        ∀ past, f.matches_ H past m = m.log.filter f.wants) := by
  have hcontains (e : LogEntry) (he : e ∈ m.log) : bloomContains m.bloom (e.bloom H) = true := by
    have hself := bloomContains_refl m.bloom
    nth_rewrite 2 [hbloom] at hself
    exact (bloomContains_foldl_iff.mp hself).2 e he
  have hright (hin : InBounds H f m) : f.matchesChecked H m = .ok (m.log.filter f.wants) ∧
      ∀ past, f.matches_ H past m = m.log.filter f.wants := by
    unfold matchesChecked matches_
    cases hrange : f.isRangeFilter with
    | true =>
      obtain ⟨haddresses, hunused⟩ := isRangeFilter_iff.mp hrange
      have hall : m.log.filter f.wants = m.log := by
        apply filter_eq_self.mpr
        intro e _
        rw [wants_eq_true]
        exact ⟨fun hne => absurd haddresses hne, fun i hi => absurd hi (hunused i)⟩
      rw [hall]
      exact ⟨rfl, fun _ => rfl⟩
    | false =>
      cases hpre : f.matchesBloom H m.bloom with
      | false =>
        -- an entry that is asked for would have been let through
        have hnone : m.log.filter f.wants = [] := by
          apply filter_eq_nil_iff.mpr
          intro e he hwants
          have hmatch := (wants_eq_true.mp hwants).matchesBloom (hcontains e he)
          rw [hpre] at hmatch
          cases hmatch
        rw [hnone]
        exact ⟨rfl, fun _ => rfl⟩
      | true =>
        have hentries := hin hrange hpre
        constructor
        · exact matchLoop_eq_ok hentries
        · intro past
          exact filter_congr fun e he => matchesEntry_of_not_overruns (hentries e he) past
  refine ⟨⟨fun hok hrange hpre => ?_, fun hin => ⟨_, (hright hin).1⟩⟩, hright⟩
  intro e he hover
  obtain ⟨r, hr⟩ := hok
  obtain ⟨n, hn⟩ := matchLoop_error [] ⟨e, he, hover⟩
  rw [matchesChecked, hrange, hpre] at hr
  exact absurd (hn.symm.trans hr) (by simp)

def oneTopic : LogEntry := ⟨0, [7], []⟩

def oneReceipt : TransactionReceipt := .new tailHasher (.inl 1) 0 [oneTopic]

def atPosition (i : Fin 4) (t : H256) : LogFilter :=
  { topics := fun j => if j = i then [t] else [] }

theorem matches_exact_example : ((∃ r, (atPosition 0 7).matchesChecked tailHasher oneReceipt = .ok r) ↔
      InBounds tailHasher (atPosition 0 7) oneReceipt) ∧
    (InBounds tailHasher (atPosition 0 7) oneReceipt →
      (atPosition 0 7).matchesChecked tailHasher oneReceipt =
      .ok (oneReceipt.log.filter (atPosition 0 7).wants) ∧
        ∀ past, (atPosition 0 7).matches_ tailHasher past oneReceipt =
          oneReceipt.log.filter (atPosition 0 7).wants) :=
  matches_exact tailHasher (atPosition 0 7) oneReceipt rfl

/-- A filter for the second topic reads it, though there is none, and matches if by chance it stands
there. -/
theorem matches_behind_end :
    oneReceipt.bloom = oneReceipt.log.foldl (fun ret e => ret ||| e.bloom tailHasher) 0 ∧ oneTopic.topics[1]? = none ∧
    (atPosition 1 7).matchesChecked tailHasher oneReceipt = .error 1 ∧
    (atPosition 1 7).matches_ tailHasher (fun _ => 7) oneReceipt = [oneTopic] ∧
    (atPosition 1 7).matches_ tailHasher (fun _ => 0) oneReceipt = [] := by
  have hrange : (atPosition 1 7).isRangeFilter = false := by decide
  have hpre : (atPosition 1 7).matchesBloom tailHasher oneReceipt.bloom = true := by decide +kernel
  refine ⟨rfl, rfl, ?_, ?_, ?_⟩
  · rw [matchesChecked, hrange, hpre]
    rfl
  · rw [matches_, hrange, hpre]
    rfl
  · rw [matches_, hrange, hpre]
    rfl

end Vapory.LogFilter
