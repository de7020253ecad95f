import Vapory.Chain.QueueBad

/-! The set of the hashes that are ready is that of the blocks in the three queues. -/
namespace Vapory.BlockQueue
open List

variable {H : Hasher} {R : BlockReader H} {q q' q₁ : BlockQueue}

/-- The blocks without a parent have different hashes, and these are in `m_unknownSet`. -/
structure Waiting (q : BlockQueue) : Prop where
  nodup : (q.unknown.map (·.2.1)).Nodup
  hashes : q.unknownSet = (q.unknown.map (·.2.1)).toFinset

theorem toFinset_sdiff_filter {α β : Type*} [DecidableEq β] {f : α → β} (p : α → Bool) {l : List α}
    (h : (l.map f).Nodup) : (l.map f).toFinset \ ((l.filter p).map f).toFinset =
    ((l.filter fun x => !p x).map f).toFinset := by
  ext y
  rw [Finset.mem_sdiff, mem_toFinset, mem_toFinset, mem_toFinset]
  constructor
  · intro hy
    obtain ⟨x, hx, rfl⟩ := mem_map.mp hy.1
    have hp : p x = false := by
      by_contra hp
      exact hy.2 (mem_map_of_mem (mem_filter.mpr ⟨hx, by simpa using hp⟩))
    exact mem_map_of_mem (mem_filter.mpr ⟨hx, by rw [hp]; rfl⟩)
  · intro hy
    obtain ⟨x, hx, rfl⟩ := mem_map.mp hy
    obtain ⟨hxl, hp⟩ := mem_filter.mp hx
    refine ⟨mem_map_of_mem hxl, fun hmem => ?_⟩
    obtain ⟨x', hx', heq⟩ := mem_map.mp hmem
    obtain ⟨hxl', hp'⟩ := mem_filter.mp hx'
    obtain rfl := inj_on_of_nodup_map h hxl' hxl heq
    rw [hp'] at hp
    cases hp

theorem children_hashes (m : SizedBlockMap H256) (parent : H256) :
    (m.removeByKeyEqual parent).2.map (·.1) =
      (m.filter fun e => decide (e.1 = parent)).map (·.2.1) := by
  rw [SizedBlockMap.removeByKeyEqual, map_map]
  rfl

theorem children_sublist (m : SizedBlockMap H256) (parent : H256) :
    ((m.removeByKeyEqual parent).2.map (·.1)).Sublist (m.map (·.2.1)) := by
  rw [children_hashes]
  exact filter_sublist.map _

namespace Waiting

theorem children (h : Waiting q) (parent : H256) :
    ((q.unknown.removeByKeyEqual parent).1.map (·.2.1)).Nodup ∧
    q.unknownSet \ ((q.unknown.removeByKeyEqual parent).2.map (·.1)).toFinset =
      ((q.unknown.removeByKeyEqual parent).1.map (·.2.1)).toFinset := by
  constructor
  · exact h.nodup.sublist (filter_sublist.map _)
  · rw [h.hashes, children_hashes, toFinset_sdiff_filter _ h.nodup]
    simp [SizedBlockMap.removeByKeyEqual]

theorem badChildren (h : Waiting q) (parent : H256) : Waiting (badChildren parent q).2 :=
  ⟨(h.children parent).1, (h.children parent).2⟩

theorem foldl_markBad (h : Waiting q) (hashes : List H256) : Waiting (hashes.foldl markBad q) :=
  foldl_markBad_keeps (fun parent _ _ h => h.badChildren parent) (fun _ _ _ h => ⟨h.nodup, h.hashes⟩) h

end Waiting

theorem mem_filter_iff_notMem {α β : Type*} [DecidableEq β] {f : α → β} (p : α → Bool)
    (front back : List β) {l : List α} (hnodup : (front ++ l.map f ++ back).Nodup) {y : β}
    (hy : y ∈ front ++ l.map f ++ back) : y ∈ (l.filter p).map f ↔
    y ∉ front ++ (l.filter fun x => !p x).map f ++ back := by
  obtain ⟨hleft, -, hback⟩ := nodup_append'.mp hnodup
  obtain ⟨-, hl, hfront⟩ := nodup_append'.mp hleft
  have hfilter := Finset.ext_iff.mp (toFinset_sdiff_filter p hl) y
  simp only [Finset.mem_sdiff, mem_toFinset] at hfilter
  simp only [mem_append] at hy ⊢
  constructor
  · intro hp hmem
    have hyl : y ∈ l.map f := (filter_sublist.map f).subset hp
    rcases hmem with (hmem | hmem) | hmem
    · exact hfront hmem hyl
    · exact (hfilter.mpr hmem).2 hp
    · exact hback (mem_append_right _ hyl) hmem
  · intro hnot
    obtain ⟨hnot, hnotBack⟩ := not_or.mp hnot
    obtain ⟨hnotFront, hnotKept⟩ := not_or.mp hnot
    have hyl : y ∈ l.map f := (hy.resolve_right hnotBack).resolve_left hnotFront
    by_contra hp
    exact hnotKept (hfilter.mp ⟨hyl, hp⟩)

theorem eq_iff_notMem {α : Type*} {l l' : List α} {x y : α} (hnodup : (l ++ y :: l').Nodup)
    (hx : x ∈ l ++ y :: l') : x = y ↔ x ∉ l ++ l' := by
  obtain ⟨hnot, -⟩ := nodup_cons.mp (nodup_middle.mp hnodup)
  constructor
  · intro heq
    rwa [heq]
  · intro hx'
    rcases mem_cons.mp (perm_middle.mem_iff.mp hx) with heq | hmem
    · exact heq
    · exact absurd hmem hx'

/-- The ready hashes are those of the blocks in the queues, which are different; and a thread's work
is among these, or it was found to be bad. -/
structure Matches (R : BlockReader H) (q : BlockQueue) : Prop where
  genuine : Genuine R q
  waiting : Waiting q
  nodup : (q.pipe H).Nodup
  ready : q.readySet = (q.pipe H).toFinset
  apart : ∀ x ∈ q.unknownSet, x ∉ q.readySet
  working : ∀ i work, q.verifiers i = some work → .placeholder work ∈ q.verifying ∨
    work.hash ∈ q.knownBad ∧ work.hash ∉ q.readySet ∧ work.hash ∉ q.unknownSet
  single : ∀ i j work work', q.verifiers i = some work → q.verifiers j = some work' →
    work.hash = work'.hash → i = j

theorem mem_pipe_verifying {b : QueuedBlock} (hb : b ∈ q.verifying) : b.jobHash H ∈ q.pipe H :=
  mem_append_left _ (mem_append_right _ (mem_map_of_mem hb))

theorem mem_replace_of_ne {hash : H256} {b x : QueuedBlock} {l : List QueuedBlock} (hx : x ∈ l)
    (hne : x.info.sha3Uncles ≠ hash) : x ∈ replace hash b l := by
  induction l with
  | nil => cases hx
  | cons y rest ih =>
    unfold replace
    rcases mem_cons.mp hx with rfl | hx
    · rw [if_neg hne]
      exact mem_cons_self
    · split_ifs
      · exact mem_cons_of_mem _ hx
      · exact mem_cons_of_mem _ (ih hx)

namespace Matches

theorem mem_ready (h : Matches R q) {x : H256} : x ∈ q.readySet ↔ x ∈ q.pipe H := by
  rw [h.ready, mem_toFinset]

theorem drop (h : Matches R q) (hashes : Finset H256) (hgenuine : Genuine R q') (hwaiting : Waiting q')
    (hpipe : (q'.pipe H).Sublist (q.pipe H)) (hhashes : ∀ x ∈ q.pipe H, x ∈ hashes ↔ x ∉ q'.pipe H)
    (hready : q'.readySet = q.readySet \ hashes) (hunknown : q'.unknownSet ⊆ q.unknownSet)
    (hknown : q.knownBad ⊆ q'.knownBad) (hverifiers : ∀ i work, q'.verifiers i = some work →
      q.verifiers i = some work ∧
      (.placeholder work ∈ q.verifying → .placeholder work ∈ q'.verifying ∨ work.hash ∈ hashes ∧
      work.hash ∈ q'.knownBad)) :
    Matches R q' where
  genuine := hgenuine
  waiting := hwaiting
  nodup := h.nodup.sublist hpipe
  ready := by
    ext x
    rw [hready, Finset.mem_sdiff, mem_toFinset, h.mem_ready]
    constructor
    · intro hx
      by_contra hnot
      exact hx.2 ((hhashes x hx.1).mpr hnot)
    · intro hx
      have hold := hpipe.subset hx
      exact ⟨hold, fun hmem => (hhashes x hold).mp hmem hx⟩
  apart x hx hmem := by
    rw [hready] at hmem
    exact h.apart x (hunknown hx) (Finset.mem_sdiff.mp hmem).1
  working i work hi := by
    obtain ⟨hold, hstays⟩ := hverifiers i work hi
    rw [hready, Finset.mem_sdiff]
    rcases h.working i work hold with hplace | ⟨hknownBad, hnot, hnotUnknown⟩
    · rcases hstays hplace with hplace' | ⟨hmem, hbad⟩
      · exact .inl hplace'
      · right
        have hwas : work.hash ∈ q.readySet := h.mem_ready.mpr (mem_pipe_verifying hplace)
        exact ⟨hbad, fun hx => hx.2 hmem, fun hx => h.apart _ (hunknown hx) hwas⟩
    · exact .inr ⟨hknown hknownBad, fun hx => hnot hx.1, fun hx => hnotUnknown (hunknown hx)⟩
  single i j work work' hi hj :=
    h.single i j work work' (hverifiers i work hi).1 (hverifiers j work' hj).1

theorem keep (h : Matches R q) (hgenuine : Genuine R q') (hwaiting : Waiting q')
    (hpipe : q'.pipe H = q.pipe H) (hready : q'.readySet = q.readySet)
    (hunknown : q'.unknownSet ⊆ q.unknownSet) (hknown : q.knownBad ⊆ q'.knownBad)
    (hverifiers : ∀ i work, q'.verifiers i = some work → q.verifiers i = some work ∧
      (.placeholder work ∈ q.verifying → .placeholder work ∈ q'.verifying)) : Matches R q' := by
  apply h.drop ∅ hgenuine hwaiting _ _ _ hunknown hknown fun i work hi =>
    ⟨(hverifiers i work hi).1, .inl ∘ (hverifiers i work hi).2⟩
  · rw [hpipe]
  · intro x hx
    rw [hpipe]
    exact iff_of_false (Finset.notMem_empty x) (not_not_intro hx)
  · rw [hready, Finset.sdiff_empty]

theorem foldl_markBad {hashes : List H256} (h : Matches R q) (hgenuine : Genuine R q₁)
    (hsame : q₁ = { q with verified := q₁.verified, verifying := q₁.verifying, unverified := q₁.unverified })
    (hpipe : (q₁.pipe H).Sublist (q.pipe H)) (hhashes : ∀ x ∈ q.pipe H, x ∈ hashes ↔ x ∉ q₁.pipe H)
    (hplaces : ∀ work, .placeholder work ∈ q.verifying → .placeholder work ∈ q₁.verifying ∨
      work.hash ∈ hashes) :
    Matches R (hashes.foldl markBad q₁) := by
  obtain ⟨hs, hbad⟩ := spoils_foldl_markBad hashes q₁
  have hwaiting : Waiting q₁ := by
    rw [hsame]
    exact ⟨h.waiting.nodup, h.waiting.hashes⟩
  apply h.drop hashes.toFinset (hgenuine.spoils hs) (hwaiting.foldl_markBad hashes)
  · rwa [pipe_spoils hs]
  · intro x hx
    rw [pipe_spoils hs, mem_toFinset]
    exact hhashes x hx
  · rw [hs.readySet, hsame]
  · apply hs.unknownSet.trans
    rw [hsame]
  · apply subset_trans _ hs.knownBad
    rw [hsame]
  · intro i work hi
    rw [hs.verifiers, hsame] at hi
    rw [hs.verifying]
    exact ⟨hi, fun hplace => (hplaces work hplace).imp_right fun hmem =>
      ⟨mem_toFinset.mpr hmem, hbad (mem_toFinset.mpr hmem)⟩⟩

theorem dropBadVerified (ht : AtEnd (isBadVerified H q) q.verified) (h : Matches R q) :
    Matches R (dropBadVerified H q).2 := by
  have hkept :=
    h.genuine.of_verified (l := (removeIf QueuedBlock.moved (isBadVerified H q) q.verified).1)
    filter_sublist.subset
  apply h.foldl_markBad hkept rfl
  · exact ((filter_sublist.map _).append_right _).append_right _
  · intro x hx
    rw [removeIf_of_atEnd ht]
    have hnodup := h.nodup
    simp only [pipe, append_assoc] at hx hnodup ⊢
    exact mem_filter_iff_notMem (isBadVerified H q) [] _ hnodup hx
  · exact fun work hwork => .inl hwork

theorem dropBadUnverified (ht : AtEnd (isBadUnverified q) q.unverified) (h : Matches R q) :
    Matches R (dropBadUnverified q).2 := by
  have hkept := h.genuine.of_unverified
    (l := (removeIf UnverifiedBlock.moved (isBadUnverified q) q.unverified).1) filter_sublist.subset
  apply h.foldl_markBad hkept rfl
  · exact (filter_sublist.map _).append_left _
  · intro x hx
    rw [removeIf_of_atEnd ht]
    have hnodup := h.nodup
    rw [pipe, ← append_nil (List.map _ q.unverified), ← append_assoc] at hx hnodup
    rw [mem_filter_iff_notMem (isBadUnverified q) _ _ hnodup hx, append_nil]
    rfl
  · exact fun work hwork => .inl hwork

theorem dropBadVerifying (ht : AtEnd (isBadVerifying q) q.verifying) (h : Matches R q) :
    Matches R (dropBadVerifying H q).2 := by
  have hkept :=
    h.genuine.of_verifying (l := (removeIf QueuedBlock.moved (isBadVerifying q) q.verifying).1)
    filter_sublist.subset
  apply h.foldl_markBad hkept rfl
  · exact ((filter_sublist.map _).append_left _).append_right _
  · intro x hx
    rw [removeIf_of_atEnd ht]
    exact mem_filter_iff_notMem (isBadVerifying q) _ _ h.nodup hx
  · intro work hwork
    rw [removeIf_of_atEnd ht]
    by_cases hisBad : isBadVerifying q (.placeholder work) = true
    · exact .inr (mem_map_of_mem (mem_filter.mpr ⟨hwork, hisBad⟩))
    · exact .inl (mem_filter.mpr ⟨hwork, by simpa using hisBad⟩)

theorem badChildren (parent : H256) (h : Matches R q) : Matches R (badChildren parent q).2 := by
  have hs := spoils_badChildren parent q
  exact h.keep (h.genuine.spoils hs) (h.waiting.badChildren parent) rfl rfl hs.unknownSet
    hs.knownBad fun i work hi => ⟨hi, id⟩

theorem steady : Steady H True (Matches R) where
  badChildren parent _ _ h := h.badChildren parent
  verified _ ht h := h.dropBadVerified (ht trivial)
  unverified _ ht h := h.dropBadUnverified (ht trivial)
  verifying _ ht h := h.dropBadVerifying (ht trivial)

theorem readyChildren (parent : H256) (h : Matches R q) : Matches R (readyChildren parent q).2 := by
  have hsub := children_sublist q.unknown parent
  have hwas : ∀ x ∈ (q.unknown.removeByKeyEqual parent).2.map (·.1), x ∈ q.unknownSet := by
    intro x hx
    rw [h.waiting.hashes, mem_toFinset]
    exact hsub.subset hx
  have hpipe : (BlockQueue.readyChildren parent q).2.pipe H = q.pipe H ++
    (q.unknown.removeByKeyEqual parent).2.map (·.1) := by
    simp [pipe, BlockQueue.readyChildren, map_map, Function.comp_def]
  constructor
  · exact h.genuine.readyChildren parent
  · exact ⟨(h.waiting.children parent).1, (h.waiting.children parent).2⟩
  · rw [hpipe]
    apply h.nodup.append (h.waiting.nodup.sublist hsub)
    intro x hx hxnew
    exact h.apart x (hwas x hxnew) (h.mem_ready.mpr hx)
  · rw [hpipe, toFinset_append, ← h.ready]
    rfl
  · intro x hx hmem
    obtain ⟨hold, hnot⟩ := Finset.mem_sdiff.mp hx
    rcases Finset.mem_union.mp hmem with hmem | hmem
    · exact h.apart x hold hmem
    · exact hnot hmem
  · intro i work hi
    rcases h.working i work hi with hplace | ⟨hbad, hready, hunknown⟩
    · exact .inl hplace
    · right
      refine ⟨hbad, fun hmem => ?_, fun hmem => hunknown (Finset.mem_sdiff.mp hmem).1⟩
      rcases Finset.mem_union.mp hmem with hmem | hmem
      · exact hready hmem
      · exact hunknown (hwas _ (mem_toFinset.mp hmem))
  · exact h.single

theorem noteReady (good : H256) (h : Matches R q) : Matches R (noteReady good q) :=
  walkUnknown_keeps (fun parent _ h => h.readyChildren parent) _ _ h

theorem verifierTakes (i : ℕ) (h : Matches R q) : Matches R (verifierTakes i q) := by
  have hpipe := pipe_verifierTakes (H := H) i q
  have hgenuine := h.genuine.verifierTakes i
  rcases verifierTakes_cases i q with hsame | ⟨work, rest, hidle, hwork, heq⟩
  · rwa [hsame]
  rw [heq] at hpipe hgenuine ⊢
  -- no other thread has this block
  have hother : ∀ j work', q.verifiers j = some work' → work'.hash ≠ work.hash := by
    intro j work' hj hhash
    have hmem : work.hash ∈ q.unverified.map (·.hash) := by
      rw [hwork]
      exact mem_cons_self
    rcases h.working j work' hj with hplace | ⟨-, hnot, -⟩
    · obtain ⟨-, -, hdisjoint⟩ := nodup_append'.mp h.nodup
      apply hdisjoint (a := work.hash) _ hmem
      apply mem_append_right
      exact hhash ▸ mem_map_of_mem hplace
    · apply hnot
      rw [h.mem_ready, hhash]
      exact mem_append_right _ hmem
  constructor
  · exact hgenuine
  · exact ⟨h.waiting.nodup, h.waiting.hashes⟩
  · rw [hpipe]
    exact h.nodup
  · rw [hpipe]
    exact h.ready
  · exact h.apart
  · intro j work' hj
    rcases update_eq_some hj with ⟨-, hsome⟩ | ⟨-, hold⟩
    · obtain rfl := Option.some.inj hsome
      exact .inl (mem_append_right _ mem_cons_self)
    · exact (h.working j work' hold).imp_left (mem_append_left _)
  · intro j k work₁ work₂ hj hk hhash
    rcases update_eq_some hj with ⟨hji, hsome⟩ | ⟨-, holdj⟩
    · rcases update_eq_some hk with ⟨hki, -⟩ | ⟨-, holdk⟩
      · exact hji.trans hki.symm
      · obtain rfl := Option.some.inj hsome
        exact absurd hhash.symm (hother k work₂ holdk)
    · rcases update_eq_some hk with ⟨-, hsome⟩ | ⟨-, holdk⟩
      · obtain rfl := Option.some.inj hsome
        exact absurd hhash (hother j work₁ holdj)
      · exact h.single j k work₁ work₂ holdj holdk hhash

variable {work : UnverifiedBlock} {b : QueuedBlock}

theorem replaced {i : ℕ} (h : Matches R q) (hi : q.verifiers i = some work)
    (hb : Finished R b) (hhash : b.info.hash H = work.hash) : Matches R
      { q with
        verifying := replace work.hash b q.verifying
        verifiers := Function.update q.verifiers i none } := by
  have hgenuine : Genuine R
      { q with
        verifying := replace work.hash b q.verifying
        verifiers := Function.update q.verifiers i none } :=
    { h.genuine.idle i with
      verifying := by
        intro x hx
        rcases mem_replace hx with rfl | hx
        · exact .inr hb
        · exact h.genuine.verifying x hx }
  have hjob : ∀ x ∈ q.verifying, x.info.sha3Uncles = work.hash → x.jobHash H = b.jobHash H := by
    intro x hx huncles
    rw [← hhash, ← hb.1.hash] at huncles
    rw [(h.genuine.jobHash_of_sha3Uncles hx huncles).1, hb.jobHash, hb.1.hash]
  apply h.keep hgenuine ⟨h.waiting.nodup, h.waiting.hashes⟩ _ rfl subset_rfl subset_rfl
  · intro j work' hj
    rcases update_eq_some hj with ⟨-, hnone⟩ | ⟨hji, hold⟩
    · cases hnone
    · have hne : work'.hash ≠ work.hash := fun heq => hji (h.single j i work' work hold hi heq)
      exact ⟨hold, fun hplace => mem_replace_of_ne hplace hne⟩
  · simp only [pipe, map_jobHash_replace hjob]

theorem pass {rest : List QueuedBlock} (h : Matches R q) (hq : q.verifying = b :: rest)
    (hb : Finished R b) : Matches R (pass H b { q with verifying := rest }) := by
  have hrest : rest ⊆ q.verifying := hq ▸ subset_cons_self _ _
  have hgenuine := (h.genuine.of_verifying hrest).pass hb
  have hplaces : ∀ work, .placeholder work ∈ q.verifying → .placeholder work ∈ rest := by
    intro work hplace
    rw [hq] at hplace
    rcases mem_cons.mp hplace with heq | hplace
    · exact absurd (heq ▸ rfl) hb.blockData_ne
    · exact hplace
  unfold BlockQueue.pass at hgenuine ⊢
  split_ifs at hgenuine ⊢ with hparent
  · have hpipe : q.pipe H = q.verified.map (·.info.hash H) ++
      b.info.hash H :: (rest.map (·.jobHash H) ++ q.unverified.map (·.hash)) := by
      simp [pipe, hq, hb.jobHash]
    have hnodup := h.nodup
    rw [hpipe] at hnodup
    apply h.drop {b.info.hash H} hgenuine ⟨h.waiting.nodup, h.waiting.hashes⟩ _ _
      (Finset.erase_eq _ _) subset_rfl (Finset.subset_insert _ _)
      fun i work hi => ⟨hi, fun hplace => .inl (hplaces work hplace)⟩
    · rw [hpipe, pipe, append_assoc]
      exact (sublist_cons_self _ _).append_left _
    · intro x hx
      rw [hpipe] at hx
      rw [Finset.mem_singleton, eq_iff_notMem hnodup hx, pipe, append_assoc]
  · apply h.keep hgenuine ⟨h.waiting.nodup, h.waiting.hashes⟩ _ rfl subset_rfl subset_rfl
      fun i work hi => ⟨hi, hplaces work⟩
    simp [pipe, hq, hb.jobHash]

theorem drainVerified (h : Matches R q) : Matches R (drainVerified H q) := by
  apply drainVerified_keeps _ h
  intro q b rest hq hdata h
  exact h.pass hq (h.genuine.finished (hq ▸ mem_cons_self) hdata)

theorem verifierSucceeds {i : ℕ} (h : Matches R q) (hi : q.verifiers i = some work)
    (hb : Finished R b) (hhash : b.info.hash H = work.hash) :
    Matches R (verifierSucceeds H work.hash b
      { q with verifiers := Function.update q.verifiers i none }) := by
  have hreplaced := h.replaced hi hb hhash
  unfold BlockQueue.verifierSucceeds
  split
  · rename_i hq
    have hnil : q.verifying = [] := hq
    rwa [hnil, replace, ← hnil] at hreplaced
  · rename_i next rest hq
    have hcons : q.verifying = next :: rest := hq
    split_ifs with hnext
    · rw [hcons, replace, if_pos hnext] at hreplaced
      exact (hreplaced.pass rfl hb).drainVerified
    · exact hreplaced

theorem verifierFails {i : ℕ} (h : Matches R q) (hi : q.verifiers i = some work) :
    Matches R (verifierFails H work.hash { q with verifiers := Function.update q.verifiers i none }) := by
  have hread := h.genuine.verifiers i work hi
  have hgenuine := (h.genuine.idle i).of_verifying
    (l := (removeIf QueuedBlock.moved (·.info.sha3Uncles = work.hash) q.verifying).1)
    filter_sublist.subset
  apply drainVerified
  apply h.drop {work.hash}
  · exact { hgenuine with }
  · exact ⟨h.waiting.nodup, h.waiting.hashes⟩
  · exact ((filter_sublist.map _).append_left _).append_right _
  · intro x hx
    have hremoved := mem_filter_iff_notMem
      (fun b : QueuedBlock => decide (b.info.sha3Uncles = work.hash)) _ _ h.nodup hx
    rw [Finset.mem_singleton]
    apply Iff.trans _ hremoved
    constructor
    · intro heq
      subst heq
      rcases h.working i work hi with hplace | ⟨-, hnot, -⟩
      · exact mem_map.mpr ⟨_, mem_filter.mpr ⟨hplace, decide_eq_true rfl⟩, rfl⟩
      · exact absurd (h.mem_ready.mpr hx) hnot
    · intro hmem
      obtain ⟨b, hb, rfl⟩ := mem_map.mp hmem
      obtain ⟨hbq, huncles⟩ := mem_filter.mp hb
      rw [← hread.hash] at huncles ⊢
      exact (h.genuine.jobHash_of_sha3Uncles hbq (of_decide_eq_true huncles)).1
  · exact Finset.erase_eq _ _
  · exact subset_rfl
  · exact Finset.subset_insert _ _
  · intro j work' hj
    rcases update_eq_some hj with ⟨-, hnone⟩ | ⟨hji, hold⟩
    · cases hnone
    · have hne : work'.hash ≠ work.hash := fun heq => hji (h.single j i work' work hold hi heq)
      have hkept : (!decide ((QueuedBlock.placeholder work').info.sha3Uncles = work.hash)) = true :=
        congrArg not (decide_eq_false hne)
      exact ⟨hold, fun hplace => .inl (mem_filter.mpr ⟨hplace, hkept⟩)⟩

theorem verifierEnds (i : ℕ) (h : Matches R q) : Matches R (verifierEnds R i q) := by
  unfold BlockQueue.verifierEnds
  cases hi : q.verifiers i with
  | none => exact h
  | some work =>
    dsimp only
    cases hinfo : R.verifyBlock .OutOfOrderChecks work.blockData with
    | none => exact h.verifierFails hi
    | some info =>
      obtain ⟨hfinished, hhash, -⟩ := finished_of_verifyBlock (h.genuine.verifiers i work hi) hinfo
      exact h.verifierSucceeds hi hfinished hhash

theorem drain (max : ℕ) (h : Matches R q) : Matches R (drain H max q).2 := by
  have hpipe := pipe_drain (H := H) max q
  have hgenuine := h.genuine.drain max
  unfold BlockQueue.drain at hpipe hgenuine ⊢
  split_ifs at hpipe hgenuine ⊢
  · dsimp only at hpipe hgenuine ⊢
    have hnodup := h.nodup
    rw [← hpipe] at hnodup
    obtain ⟨-, -, hdisjoint⟩ := nodup_append'.mp hnodup
    apply h.drop _ hgenuine ⟨h.waiting.nodup, h.waiting.hashes⟩ _ _ rfl subset_rfl subset_rfl
      fun i work hi => ⟨hi, .inl⟩
    · rw [← hpipe]
      exact sublist_append_right _ _
    · intro x hx
      rw [← hpipe] at hx
      rw [mem_toFinset]
      exact ⟨fun hout hmem => hdisjoint hout hmem, fun hnot => (mem_append.mp hx).resolve_right hnot⟩
  · exact h

theorem idle (hidle : ∀ i, q.verifiers i = none) (hverified : q.verified = [])
    (hverifying : q.verifying = []) (hunverified : q.unverified = []) (hready : q.readySet = ∅)
    (hunknown : q.unknown = []) (hset : q.unknownSet = ∅) (hfuture : q.future = []) :
    Matches R q := by
  have hpipe : q.pipe H = [] := by
    simp [pipe, hverified, hverifying, hunverified]
  constructor
  · constructor
    · simp [hverified]
    · simp [hverifying]
    · simp [hunverified]
    · intro i work hi
      exact absurd hi (by simp [hidle i])
    · simp [hunknown]
    · simp [hfuture]
  · constructor
    · simp [hunknown]
    · rw [hset, hunknown]
      rfl
  · rw [hpipe]
    exact nodup_nil
  · rw [hpipe, hready]
    rfl
  · simp [hset]
  · intro i work hi
    exact absurd hi (by simp [hidle i])
  · intro i j work work' hi
    exact absurd hi (by simp [hidle i])

end Matches

end Vapory.BlockQueue
