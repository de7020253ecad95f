import Vapory.Chain.BloomIndex
import Vapory.Client.LogFilter

/-! The entries that a filter asks for, and the blooms that it is searched by. -/
namespace Vapory
open List

theorem bloomContains_foldl_iff {ι : Type} {f : ι → LogBloom} {l : List ι} {a acc : LogBloom} :
    bloomContains a (l.foldl (fun acc i => acc ||| f i) acc) = true ↔
      bloomContains a acc = true ∧ ∀ i ∈ l, bloomContains a (f i) = true := by
  induction l generalizing acc with
  | nil => simp
  | cons i l ih =>
    have hor : bloomContains a (acc ||| f i) = true ↔ bloomContains a acc = true ∧
      bloomContains a (f i) = true := by
      simp only [bloomContains_iff, BitVec.getLsbD_or, Bool.or_eq_true]
      constructor
      · intro h
        exact ⟨fun k hk => h k (.inl hk), fun k hk => h k (.inr hk)⟩
      · rintro ⟨h, h'⟩ k (hk | hk)
        · exact h k hk
        · exact h' k hk
    rw [foldl_cons, ih, hor, forall_mem_cons, and_assoc]

namespace LogEntry
variable {H : Hasher} {e : LogEntry}

theorem bloomContains_address (H : Hasher) (e : LogEntry) :
    bloomContains (e.bloom H) (LogFilter.addressBloom H e.address) = true :=
  (bloomContains_foldl_iff.mp (bloomContains_refl _)).1

theorem bloomContains_topic {t : H256} (ht : t ∈ e.topics) :
    bloomContains (e.bloom H) (LogFilter.topicBloom H t) = true :=
  (bloomContains_foldl_iff.mp (bloomContains_refl (e.bloom H))).2 t ht

end LogEntry

namespace LogFilter
variable {H : Hasher} {f : LogFilter} {e : LogEntry} {b : LogBloom}

/-- The filter asks for the entry: its address is one of the filter's, and so is its topic at each
position at which the filter has alternatives. -/
structure Wants (f : LogFilter) (e : LogEntry) : Prop where
  address : f.addresses ≠ [] → e.address ∈ f.addresses
  topic : ∀ i : Fin 4, f.topics i ≠ [] → ∃ t ∈ f.topics i, e.topics[i.val]? = some t

def Used (f : LogFilter) (i : Fin 4) : Prop := f.topics i ≠ []

theorem mem_topicLists {ts : List H256} : ts ∈ f.topicLists ↔ ∃ i, f.topics i = ts := by
  unfold topicLists
  rewrite [mem_ofFn]
  exact Iff.rfl

theorem isRangeFilter_iff : f.isRangeFilter = true ↔ f.addresses = [] ∧ ∀ i, ¬ f.Used i := by
  simp only [isRangeFilter, Bool.and_eq_true, List.isEmpty_iff, all_eq_true, mem_topicLists, Used,
    not_not]
  constructor
  · rintro ⟨haddresses, htopics⟩
    exact ⟨haddresses, fun i => htopics _ ⟨i, rfl⟩⟩
  · rintro ⟨haddresses, htopics⟩
    refine ⟨haddresses, ?_⟩
    rintro _ ⟨i, rfl⟩
    exact htopics i

theorem Wants.matchesBloom (h : f.Wants e) (hb : bloomContains b (e.bloom H) = true) :
    f.matchesBloom H b = true := by
  unfold LogFilter.matchesBloom
  rw [Bool.and_eq_true, Bool.or_eq_true, List.isEmpty_iff, any_eq_true, all_eq_true]
  constructor
  · by_cases haddresses : f.addresses = []
    · exact .inl haddresses
    · exact .inr ⟨e.address, h.address haddresses, bloomContains_trans hb (e.bloomContains_address H)⟩
  · intro ts hts
    obtain ⟨i, rfl⟩ := mem_topicLists.mp hts
    rw [Bool.or_eq_true, List.isEmpty_iff, any_eq_true]
    by_cases htopics : f.topics i = []
    · exact .inl htopics
    · obtain ⟨t, ht, hget⟩ := h.topic i htopics
      exact .inr ⟨t, ht, bloomContains_trans hb (LogEntry.bloomContains_topic (mem_of_getElem? hget))⟩

theorem Wants.matchesEntry (h : f.Wants e) (past : LogEntry → H256) :
    f.matchesEntry past e = true := by
  unfold LogFilter.matchesEntry
  rw [Bool.and_eq_true, Bool.or_eq_true, List.isEmpty_iff, contains_iff_mem, all_eq_true]
  constructor
  · by_cases haddresses : f.addresses = []
    · exact .inl haddresses
    · exact .inr (h.address haddresses)
  · intro i _
    by_cases htopics : f.topics i = []
    · simp [htopics]
    · obtain ⟨t, ht, hget⟩ := h.topic i htopics
      have hlt := (List.getElem?_eq_some_iff.mp hget).1
      have hgetD : e.topics.getD i.val (past e) = t := by rw [getD_eq_getElem?_getD, hget]; rfl
      rw [hgetD]
      simp [ht, not_lt.mpr hlt.le]

end LogFilter
end Vapory
