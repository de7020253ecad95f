import Vapory.Chain.BlockQueue

/-! What the parts of the queue's operations leave as it is, and what holds of every block in it. -/
namespace Vapory
open Function List

structure BlockReader.Reads {H : Hasher} (R : BlockReader H) (hash parentHash : H256)
    (blockData : Bytes) : Prop where
  hash : R.headerHashFromBlock blockData = hash
  header : ∃ bi, R.verifyBlock .PostGenesis blockData = some bi ∧ bi.parentHash = parentHash

namespace SizedBlockMap
variable {K : Type} [LT K] [DecidableLT K]

theorem insert_perm (m : SizedBlockMap K) (key : K) (hash : H256) (d : Bytes) :
    (m.insert key hash d).Perm ((key, hash, d) :: m) := by
  unfold insert
  apply perm_middle.trans
  rw [takeWhile_append_dropWhile]

theorem insert_mem {m : SizedBlockMap K} {key : K} {hash : H256} {d : Bytes} {e : K × H256 × Bytes}
    (he : e ∈ m.insert key hash d) : e = (key, hash, d) ∨ e ∈ m :=
  mem_cons.mp ((m.insert_perm key hash d).mem_iff.mp he)

end SizedBlockMap

namespace BlockQueue
variable {H : Hasher} {R : BlockReader H} {q q' : BlockQueue} {I : BlockQueue → Prop}

section
variable {children : H256 → BlockQueue → List H256 × BlockQueue}

/-- What each turn keeps, the loops over the blocks without a parent keep. -/
theorem walkUnknown_keeps (hstep : ∀ parent q, I q → I (children parent q).2) (n : ℕ)
    (todo : List H256) (hq : I q) : I (walkUnknown children n todo q) := by
  induction n generalizing todo q with
  | zero => exact hq
  | succ n ih =>
    cases todo with
    | nil => exact hq
    | cons parent rest => exact ih _ (hstep parent q hq)

end

theorem retryLoop_keeps (hstep : ∀ parent q, I q → I (readyChildren parent q).2) (n : ℕ)
    (hq : I q) : I (retryLoop n q) := by
  induction n generalizing q with
  | zero => exact hq
  | succ n ih =>
    unfold retryLoop
    split
    · exact hq
    · exact ih (hstep _ q hq)

/-- As `q`, but blocks without a parent may have become bad, and the hashes are not ready any
more. -/
structure Spoils (hashes : Finset H256) (q q' : BlockQueue) : Prop where
  verified : q'.verified = q.verified
  verifying : q'.verifying = q.verifying
  unverified : q'.unverified = q.unverified
  readySet : q'.readySet = q.readySet \ hashes
  drainingSet : q'.drainingSet = q.drainingSet
  future : q'.future = q.future
  difficulty : q'.difficulty = q.difficulty
  drainingDifficulty : q'.drainingDifficulty = q.drainingDifficulty
  verifiers : q'.verifiers = q.verifiers
  unknown : q'.unknown.Sublist q.unknown
  unknownSet : q'.unknownSet ⊆ q.unknownSet
  knownBad : q.knownBad ⊆ q'.knownBad

namespace Spoils
variable {hashes hashes' : Finset H256}

theorem refl (q : BlockQueue) : Spoils ∅ q q where
  verified := rfl
  verifying := rfl
  unverified := rfl
  readySet := Finset.sdiff_empty.symm
  drainingSet := rfl
  future := rfl
  difficulty := rfl
  drainingDifficulty := rfl
  verifiers := rfl
  unknown := .refl _
  unknownSet := subset_rfl
  knownBad := subset_rfl

theorem trans {q₁ q₂ : BlockQueue} (h : Spoils hashes q q₁) (h' : Spoils hashes' q₁ q₂) :
    Spoils (hashes ∪ hashes') q q₂ where
  verified := h'.verified.trans h.verified
  verifying := h'.verifying.trans h.verifying
  unverified := h'.unverified.trans h.unverified
  readySet := by
    rw [h'.readySet, h.readySet]
    exact sdiff_sdiff_left
  drainingSet := h'.drainingSet.trans h.drainingSet
  future := h'.future.trans h.future
  difficulty := h'.difficulty.trans h.difficulty
  drainingDifficulty := h'.drainingDifficulty.trans h.drainingDifficulty
  verifiers := h'.verifiers.trans h.verifiers
  unknown := h'.unknown.trans h.unknown
  unknownSet := h'.unknownSet.trans h.unknownSet
  knownBad := h.knownBad.trans h'.knownBad

end Spoils

theorem spoils_badChildren (parent : H256) (q : BlockQueue) : Spoils ∅ q (badChildren parent q).2 :=
  { Spoils.refl q with
    unknown := filter_sublist
    unknownSet := Finset.sdiff_subset
    knownBad := Finset.subset_union_left }

theorem spoils_collectUnknownBad (bad : H256) (q : BlockQueue) :
    Spoils ∅ q (collectUnknownBad bad q) := by
  apply walkUnknown_keeps (I := Spoils ∅ q) _ _ _ (.refl q)
  intro parent q₁ h₁
  exact h₁.trans (spoils_badChildren parent q₁)

theorem spoils_markBad (q : BlockQueue) (hash : H256) :
    Spoils {hash} q (markBad q hash) ∧ hash ∈ (markBad q hash).knownBad := by
  have hcollect := spoils_collectUnknownBad hash
    { q with knownBad := insert hash q.knownBad, readySet := q.readySet.erase hash }
  have hmark : Spoils {hash} q
    { q with knownBad := insert hash q.knownBad, readySet := q.readySet.erase hash } :=
    { Spoils.refl q with
      readySet := Finset.erase_eq _ _
      knownBad := Finset.subset_insert _ _ }
  exact ⟨hmark.trans hcollect, hcollect.knownBad (Finset.mem_insert_self _ _)⟩

theorem spoils_foldl_markBad (hashes : List H256) (q : BlockQueue) :
    Spoils hashes.toFinset q (hashes.foldl markBad q) ∧
    hashes.toFinset ⊆ (hashes.foldl markBad q).knownBad := by
  induction hashes generalizing q with
  | nil => exact ⟨.refl q, Finset.empty_subset _⟩
  | cons hash rest ih =>
    obtain ⟨hmark, hmem⟩ := spoils_markBad q hash
    obtain ⟨hrest, hsub⟩ := ih (markBad q hash)
    rw [toFinset_cons, Finset.insert_eq]
    exact ⟨hmark.trans hrest, Finset.union_subset
      (Finset.singleton_subset_iff.mpr (hrest.knownBad hmem)) hsub⟩

section
variable (H)

/-- In one turn of the loop of `updateBad_WITH_LOCK` the bad blocks stand at the end of each queue
when `removeIf` is called for it. -/
def TidyRound (q : BlockQueue) : Prop :=
  let q₁ := (dropBadVerified H q).2
  let q₂ := (dropBadUnverified q₁).2
  AtEnd (isBadVerified H q) q.verified ∧ AtEnd (isBadUnverified q₁) q₁.unverified ∧
    AtEnd (isBadVerifying q₂) q₂.verifying

def TidyRounds : ℕ → BlockQueue → Prop
  | 0, _ => True
  | n + 1, q => TidyRound H q ∧ ((badRound H q).1 = true → TidyRounds n (badRound H q).2)

/-- So it is in each turn. -/
def TidyUpdate (bad : H256) (q : BlockQueue) : Prop :=
  TidyRounds H (q.knownCount + 1) (collectUnknownBad bad q)

/-- The states in which `doneDrain` calls `updateBad_WITH_LOCK` meet the condition. -/
def AtUpdates (C : H256 → BlockQueue → Prop) : List (H256 × List ℕ) → BlockQueue → Prop
  | [], _ => True
  | (bad, threads) :: rest, q =>
    let q₁ := threads.foldl (fun q i => verifierTakes i q) q
    C bad q₁ ∧ AtUpdates C rest (updateBad H bad q₁)

def TidyDone : List (H256 × List ℕ) → BlockQueue → Prop := AtUpdates H (TidyUpdate H)

instance (q : BlockQueue) : Decidable (TidyRound H q) := inferInstanceAs (Decidable (_ ∧ _ ∧ _))

instance decidableTidyRounds : ∀ n q, Decidable (TidyRounds H n q)
  | 0, _ => isTrue trivial
  | n + 1, q => by
    have := decidableTidyRounds n (badRound H q).2
    exact inferInstanceAs (Decidable (_ ∧ (_ → _)))

instance (bad : H256) (q : BlockQueue) : Decidable (TidyUpdate H bad q) :=
  inferInstanceAs (Decidable (TidyRounds H _ _))

instance decidableAtUpdates (C : H256 → BlockQueue → Prop) [∀ bad q, Decidable (C bad q)] :
    ∀ bad q, Decidable (AtUpdates H C bad q)
  | [], _ => isTrue trivial
  | (bad, threads) :: rest, q => by
    have := decidableAtUpdates C rest
      (updateBad H bad (threads.foldl (fun q i => verifierTakes i q) q))
    exact inferInstanceAs (Decidable (_ ∧ _))

instance (bad : List (H256 × List ℕ)) (q : BlockQueue) : Decidable (TidyDone H bad q) :=
  inferInstanceAs (Decidable (AtUpdates H _ _ _))

theorem badRound_snd (q : BlockQueue) :
    (badRound H q).2 = (dropBadVerifying H (dropBadUnverified (dropBadVerified H q).2).2).2 := by
  simp only [badRound]

theorem badRounds_succ (n : ℕ) (q : BlockQueue) : badRounds H (n + 1) q =
    if (badRound H q).1 then badRounds H n (badRound H q).2 else (badRound H q).2 := rfl

/-- What the parts of `updateBad_WITH_LOCK` keep. If `tidy`, no more is asked of `removeIf` than
that it keeps this when the bad blocks stand at the end. -/
structure Steady (tidy : Prop) (I : BlockQueue → Prop) : Prop where
  badChildren : ∀ parent q, parent ∈ q.knownBad → I q → I (badChildren parent q).2
  verified : ∀ q, (tidy → AtEnd (isBadVerified H q) q.verified) → I q → I (dropBadVerified H q).2
  unverified : ∀ q, (tidy → AtEnd (isBadUnverified q) q.unverified) → I q → I (dropBadUnverified q).2
  verifying : ∀ q, (tidy → AtEnd (isBadVerifying q) q.verifying) → I q → I (dropBadVerifying H q).2

end

theorem collectUnknownBad_keeps
    (hstep : ∀ parent q, parent ∈ q.knownBad → I q → I (badChildren parent q).2) {bad : H256}
    (hbad : bad ∈ q.knownBad) (hq : I q) : I (collectUnknownBad bad q) := by
  have hwalk (n : ℕ) : ∀ todo q, (∀ h ∈ todo, h ∈ q.knownBad) → I q →
    I (walkUnknown badChildren n todo q) := by
    induction n with
    | zero => exact fun _ _ _ hq => hq
    | succ n ih =>
      intro todo q htodo hq
      cases todo with
      | nil => exact hq
      | cons parent rest =>
        apply ih _ _ _ (hstep parent q (htodo parent mem_cons_self) hq)
        intro h hh
        rcases mem_append.mp hh with hh | hh
        · exact Finset.mem_union_left _ (htodo h (mem_cons_of_mem _ hh))
        · exact Finset.mem_union_right _ (mem_toFinset.mpr hh)
  apply hwalk _ _ _ _ hq
  intro h hh
  rwa [mem_singleton.mp hh]

theorem foldl_markBad_keeps (hstep : ∀ parent q, parent ∈ q.knownBad → I q →
    I (badChildren parent q).2) {hashes : List H256} (hmark : ∀ h ∈ hashes, ∀ q, I q →
    I { q with knownBad := insert h q.knownBad, readySet := q.readySet.erase h })
    (hq : I q) : I (hashes.foldl markBad q) := by
  induction hashes generalizing q with
  | nil => exact hq
  | cons h rest ih =>
    apply ih fun h' hh' => hmark h' (mem_cons_of_mem _ hh')
    apply collectUnknownBad_keeps hstep (Finset.mem_insert_self _ _)
    exact hmark h mem_cons_self q hq

namespace Steady
variable {tidy : Prop} (h : Steady H tidy I)
include h

theorem badRounds (n : ℕ) (ht : tidy → TidyRounds H n q) (hq : I q) : I (badRounds H n q) := by
  induction n generalizing q with
  | zero => exact hq
  | succ n ih =>
    have hverified := h.verified q (fun ht' => (ht ht').1.1) hq
    have hunverified := h.unverified (dropBadVerified H q).2 (fun ht' => (ht ht').1.2.1) hverified
    have hround : I (badRound H q).2 := by
      rw [badRound_snd]
      exact h.verifying (dropBadUnverified (dropBadVerified H q).2).2 (fun ht' => (ht ht').1.2.2) hunverified
    rw [badRounds_succ]
    split_ifs with hmore
    · exact ih (fun ht' => (ht ht').2 hmore) hround
    · exact hround

theorem updateBad {bad : H256} (hbad : bad ∈ q.knownBad) (ht : tidy → TidyUpdate H bad q)
    (hq : I q) : I (updateBad H bad q) :=
  h.badRounds _ ht (collectUnknownBad_keeps h.badChildren hbad hq)

end Steady

section
variable (H)

theorem dropBadVerified_spec (q : BlockQueue) :
    Spoils ((removeIf QueuedBlock.moved (isBadVerified H q) q.verified).2.map (·.info.hash H)).toFinset
      { q with verified := (removeIf QueuedBlock.moved (isBadVerified H q) q.verified).1 }
      (dropBadVerified H q).2 :=
  (spoils_foldl_markBad _ _).1

theorem dropBadUnverified_spec (q : BlockQueue) :
    Spoils ((removeIf UnverifiedBlock.moved (isBadUnverified q) q.unverified).2.map (·.hash)).toFinset
      { q with unverified := (removeIf UnverifiedBlock.moved (isBadUnverified q) q.unverified).1 }
      (dropBadUnverified q).2 :=
  (spoils_foldl_markBad _ _).1

theorem dropBadVerifying_spec (q : BlockQueue) :
    Spoils ((removeIf QueuedBlock.moved (isBadVerifying q) q.verifying).2.map (·.jobHash H)).toFinset
      { q with verifying := (removeIf QueuedBlock.moved (isBadVerifying q) q.verifying).1 }
      (dropBadVerifying H q).2 :=
  (spoils_foldl_markBad _ _).1

end

theorem steady_knownBad (s : Finset H256) : Steady H False fun q => s ⊆ q.knownBad where
  badChildren parent q _ hs := hs.trans (spoils_badChildren parent q).knownBad
  verified q _ hs := hs.trans (dropBadVerified_spec H q).knownBad
  unverified q _ hs := hs.trans (dropBadUnverified_spec q).knownBad
  verifying q _ hs := hs.trans (dropBadVerifying_spec H q).knownBad

theorem verifierTakes_cases (i : ℕ) (q : BlockQueue) : verifierTakes i q = q ∨
    ∃ work rest, q.verifiers i = none ∧ q.unverified = work :: rest ∧ verifierTakes i q =
      { q with
        unverified := rest
        verifying := q.verifying ++ [.placeholder work]
        verifiers := update q.verifiers i (some work) } := by
  cases hi : q.verifiers i with
  | some work =>
    left
    simp only [verifierTakes, hi]
  | none =>
    cases hwork : q.unverified with
    | nil =>
      left
      simp only [verifierTakes, hi, hwork]
    | cons work rest =>
      refine .inr ⟨work, rest, rfl, rfl, ?_⟩
      simp only [verifierTakes, hi, hwork]

theorem knownBad_verifierTakes (i : ℕ) (q : BlockQueue) :
    (verifierTakes i q).knownBad = q.knownBad := by
  unfold verifierTakes
  split <;> rfl

theorem foldl_verifierTakes_keeps (htakes : ∀ i q, I q → I (verifierTakes i q)) (threads : List ℕ)
    (hq : I q) : I (threads.foldl (fun q i => verifierTakes i q) q) := by
  induction threads generalizing q with
  | nil => exact hq
  | cons i threads ih => exact ih (htakes i q hq)

variable {bad : List (H256 × List ℕ)}

theorem doneLoop_keeps {C : H256 → BlockQueue → Prop}
    (hstep : ∀ bad q, bad ∈ q.knownBad → C bad q → I q → I (updateBad H bad q))
    (htakes : ∀ i q, I q → I (verifierTakes i q))
    (hbad : ∀ b ∈ bad, b.1 ∈ q.knownBad) (hC : AtUpdates H C bad q) (hq : I q) :
    I (doneLoop H bad q) := by
  induction bad generalizing q with
  | nil => exact hq
  | cons b rest ih =>
    have hsame : ∀ s ⊆ q.knownBad, s ⊆ (b.2.foldl (fun q i => verifierTakes i q) q).knownBad := by
      intro s hs
      apply foldl_verifierTakes_keeps (I := fun q => s ⊆ q.knownBad) _ _ hs
      intro i q' hq'
      rwa [knownBad_verifierTakes]
    have hthreads := foldl_verifierTakes_keeps htakes b.2 hq
    have hfirst := hsame _ (Finset.singleton_subset_iff.mpr (hbad b mem_cons_self))
      (Finset.mem_singleton_self _)
    apply ih _ hC.2 (hstep _ _ hfirst hC.1 hthreads)
    intro b' hb'
    have hmem := hsame _ (Finset.singleton_subset_iff.mpr (hbad b' (mem_cons_of_mem _ hb')))
    have hkept := (steady_knownBad (H := H) {b'.1}).updateBad hfirst False.elim hmem
    exact hkept (Finset.mem_singleton_self _)

theorem atUpdates_true (bad : List (H256 × List ℕ)) (q : BlockQueue) :
    AtUpdates H (fun _ _ => True) bad q := by
  induction bad generalizing q with
  | nil => trivial
  | cons b rest ih => exact ⟨trivial, ih _⟩

theorem Steady.doneLoop {tidy : Prop} (h : Steady H tidy I)
    (htakes : ∀ i q, I q → I (verifierTakes i q))
    (hbad : ∀ b ∈ bad, b.1 ∈ q.knownBad) (ht : tidy → TidyDone H bad q) (hq : I q) :
    I (doneLoop H bad q) := by
  by_cases htidy : tidy
  · exact doneLoop_keeps (fun _ _ hb ht => h.updateBad hb fun _ => ht) htakes hbad (ht htidy) hq
  · exact doneLoop_keeps (fun _ _ hb _ => h.updateBad hb fun ht => absurd ht htidy) htakes hbad
      (atUpdates_true bad q) hq

theorem mem_beginDone {b : H256 × List ℕ} (hb : b ∈ bad) : b.1 ∈ (beginDone bad q).knownBad :=
  Finset.mem_union_right _ (mem_toFinset.mpr (mem_map_of_mem hb))

theorem drainVerified_keeps (hpass : ∀ q b rest, q.verifying = b :: rest → b.blockData ≠ [] → I q →
    I (pass H b { q with verifying := rest })) (hq : I q) : I (drainVerified H q) := by
  have hloop (l : List QueuedBlock) : ∀ q, q.verifying = l → I q → I (drainLoop H l q) := by
    induction l with
    | nil => exact fun q _ hq => hq
    | cons b rest ih =>
      intro q hl hq
      unfold drainLoop
      split_ifs with hdata
      · exact hq
      · apply ih _ _ (hpass q b rest hl hdata hq)
        unfold pass
        split_ifs <;> rfl
  exact hloop q.verifying q rfl hq

section
variable (R)

def Finished (b : QueuedBlock) : Prop :=
  R.Reads (b.info.hash H) b.info.parentHash b.blockData ∧
    R.verifyBlock .OutOfOrderChecks b.blockData = some b.info

/-- The queue holds blocks that were read, each with its hash and that of its parent. -/
structure Genuine (q : BlockQueue) : Prop where
  verified : ∀ b ∈ q.verified, Finished R b
  verifying : ∀ b ∈ q.verifying,
    (∃ work : UnverifiedBlock, b = .placeholder work ∧
    R.Reads work.hash work.parentHash work.blockData) ∨ Finished R b
  unverified : ∀ b ∈ q.unverified, R.Reads b.hash b.parentHash b.blockData
  verifiers : ∀ i work, q.verifiers i = some work → R.Reads work.hash work.parentHash work.blockData
  unknown : ∀ e ∈ q.unknown, R.Reads e.2.1 e.1 e.2.2
  future : ∀ e ∈ q.future, ∃ parentHash, R.Reads e.2.1 parentHash e.2.2

end

theorem Finished.blockData_ne {b : QueuedBlock} (h : Finished R b) : b.blockData ≠ [] := by
  intro hnil
  have hread := h.2
  rw [hnil, R.verifyBlock_nil] at hread
  cases hread

variable {work : UnverifiedBlock}

theorem finished_of_verifyBlock {info : BlockHeader}
    (h : R.Reads work.hash work.parentHash work.blockData)
    (hread : R.verifyBlock .OutOfOrderChecks work.blockData = some info) :
    Finished R ⟨info, work.blockData⟩ ∧ info.hash H = work.hash ∧
    info.parentHash = work.parentHash := by
  obtain ⟨bi, hbi, hparent⟩ := h.header
  obtain rfl : info = bi := R.unique hread hbi rfl
  have hhash : info.hash H = R.headerHashFromBlock work.blockData := R.hash_eq hread
  exact ⟨⟨⟨hhash.symm, info, hbi, rfl⟩, hread⟩, hhash.trans h.hash, hparent⟩

namespace Genuine

theorem of_subset (h : Genuine R q) (hverified : q'.verified ⊆ q.verified)
    (hverifying : q'.verifying ⊆ q.verifying) (hunverified : q'.unverified ⊆ q.unverified)
    (hverifiers : ∀ i work, q'.verifiers i = some work → q.verifiers i = some work)
    (hunknown : q'.unknown ⊆ q.unknown) (hfuture : q'.future ⊆ q.future) : Genuine R q' where
  verified b hb := h.verified b (hverified hb)
  verifying b hb := h.verifying b (hverifying hb)
  unverified b hb := h.unverified b (hunverified hb)
  verifiers i work hi := h.verifiers i work (hverifiers i work hi)
  unknown e he := h.unknown e (hunknown he)
  future e he := h.future e (hfuture he)

theorem spoils {hashes : Finset H256} (h : Genuine R q) (hs : Spoils hashes q q') : Genuine R q' := by
  apply h.of_subset
  · rw [hs.verified]
    exact List.Subset.refl _
  · rw [hs.verifying]
    exact List.Subset.refl _
  · rw [hs.unverified]
    exact List.Subset.refl _
  · rw [hs.verifiers]
    exact fun _ _ => id
  · exact hs.unknown.subset
  · rw [hs.future]
    exact List.Subset.refl _

variable {l : List QueuedBlock}

theorem of_verified (h : Genuine R q) (hl : l ⊆ q.verified) : Genuine R { q with verified := l } :=
  { h with verified := fun b hb => h.verified b (hl hb) }

theorem of_verifying (h : Genuine R q) (hl : l ⊆ q.verifying) : Genuine R { q with verifying := l } :=
  { h with verifying := fun b hb => h.verifying b (hl hb) }

theorem of_unverified (h : Genuine R q) {l : List UnverifiedBlock} (hl : l ⊆ q.unverified) :
    Genuine R { q with unverified := l } :=
  { h with unverified := fun b hb => h.unverified b (hl hb) }

theorem steady : Steady H False (Genuine R) where
  badChildren parent q _ h := h.spoils (spoils_badChildren parent q)
  verified q _ h := (h.of_verified filter_sublist.subset).spoils (dropBadVerified_spec H q)
  unverified q _ h := (h.of_unverified filter_sublist.subset).spoils (dropBadUnverified_spec q)
  verifying q _ h := (h.of_verifying filter_sublist.subset).spoils (dropBadVerifying_spec H q)

end Genuine

def New (q : BlockQueue) (hash : H256) : Prop :=
  hash ∉ q.readySet ∧ hash ∉ q.drainingSet ∧ hash ∉ q.unknownSet ∧ hash ∉ q.knownBad

inductive Imported (R : BlockReader H) (isKnown : H256 → Bool) (block : Bytes) (q : BlockQueue) :
    ImportResult × BlockQueue → Prop where
  | refused (result : ImportResult) (h : result ∈ [.AlreadyKnown, .Malformed, .AlreadyInChain]) :
    Imported R isKnown block q (result, q)
  | future (result : ImportResult) (h : result ∈ [.FutureTimeKnown, .FutureTimeUnknown])
    (bi : BlockHeader) (time : ℕ) (hread : R.verifyBlock .PostGenesis block = some bi)
    (hnew : q.New (R.headerHashFromBlock block)) : Imported R isKnown block q (result,
      { q with
        future := q.future.insert time (R.headerHashFromBlock block) block
        difficulty := q.difficulty + bi.difficulty })
  | bad (bi : BlockHeader) (hread : R.verifyBlock .PostGenesis block = some bi)
    (hnew : q.New (R.headerHashFromBlock block)) (hparent : bi.parentHash ∈ q.knownBad) :
    Imported R isKnown block q
      (.BadChain, updateBad H (bi.hash H) { q with knownBad := insert (bi.hash H) q.knownBad })
  | unknown (bi : BlockHeader) (hread : R.verifyBlock .PostGenesis block = some bi)
    (hnew : q.New (R.headerHashFromBlock block)) (hparent : bi.parentHash ∉ q.knownBad)
    (hunknown : q.parentUnknown isKnown bi = true) : Imported R isKnown block q (.UnknownParent,
      { q with
        unknown := q.unknown.insert bi.parentHash (R.headerHashFromBlock block) block
        unknownSet := insert (R.headerHashFromBlock block) q.unknownSet
        difficulty := q.difficulty + bi.difficulty })
  | ready (bi : BlockHeader) (hread : R.verifyBlock .PostGenesis block = some bi)
    (hnew : q.New (R.headerHashFromBlock block)) (hparent : bi.parentHash ∉ q.knownBad)
    (hknown : q.parentUnknown isKnown bi = false) : Imported R isKnown block q (.Success,
      noteReady (R.headerHashFromBlock block)
        { q with
          unverified := q.unverified ++ [⟨R.headerHashFromBlock block, bi.parentHash, block⟩]
          readySet := insert (R.headerHashFromBlock block) q.readySet
          difficulty := q.difficulty + bi.difficulty })

theorem imported (isKnown : H256 → Bool) (utcTime : ℕ) (block : Bytes) (isOurs : Bool)
    (q : BlockQueue) : Imported R isKnown block q (import_ R isKnown utcTime block isOurs q) := by
  unfold import_
  dsimp only
  by_cases hold : R.headerHashFromBlock block ∈ q.readySet ∨
    R.headerHashFromBlock block ∈ q.drainingSet ∨
    R.headerHashFromBlock block ∈ q.unknownSet ∨ R.headerHashFromBlock block ∈ q.knownBad
  · rw [if_pos hold]
    exact .refused _ (by simp)
  · rw [if_neg hold]
    have hnew : q.New (R.headerHashFromBlock block) := by
      simpa only [New, not_or] using hold
    cases hread : R.verifyBlock .PostGenesis block with
    | none => exact .refused _ (by simp)
    | some bi =>
      dsimp only
      by_cases hchain : isKnown (R.headerHashFromBlock block) = true
      · rw [if_pos hchain]
        exact .refused _ (by simp)
      by_cases hfuture : bi.timestamp.toNat > utcTime ∧ (!isOurs) = true
      · rw [if_neg hchain, if_pos hfuture]
        exact .future _ (by split_ifs <;> simp) bi _ hread hnew
      by_cases hbad : bi.parentHash ∈ q.knownBad
      · rw [if_neg hchain, if_neg hfuture, if_pos hbad]
        exact .bad bi hread hnew hbad
      by_cases hunknown : q.parentUnknown isKnown bi = true
      · rw [if_neg hchain, if_neg hfuture, if_neg hbad, if_pos hunknown]
        exact .unknown bi hread hnew hbad hunknown
      · rw [if_neg hchain, if_neg hfuture, if_neg hbad, if_neg hunknown]
        exact .ready bi hread hnew hbad (by simpa using hunknown)

variable (R) in
theorem exec_import (isKnown : H256 → Bool) (utcTime : ℕ) (block : Bytes) (isOurs : Bool)
    (q : BlockQueue) : ∃ r, import_ R isKnown utcTime block isOurs q = r ∧
    Imported R isKnown block q r ∧
      Act.exec R (.import_ isKnown utcTime block isOurs) q = r.2 :=
  ⟨_, rfl, imported isKnown utcTime block isOurs q, rfl⟩

theorem update_eq_some {f : ℕ → Option UnverifiedBlock} {i j : ℕ} {v : Option UnverifiedBlock}
    (h : update f i v j = some work) : j = i ∧ v = some work ∨ j ≠ i ∧ f j = some work := by
  by_cases hji : j = i
  · subst hji
    rw [update_self] at h
    exact .inl ⟨rfl, h⟩
  · rw [update_of_ne hji] at h
    exact .inr ⟨hji, h⟩

namespace Genuine

theorem readyChildren (parent : H256) (h : Genuine R q) : Genuine R (readyChildren parent q).2 :=
  { h with
    unverified := by
      intro b hb
      rcases mem_append.mp hb with hb | hb
      · exact h.unverified b hb
      · obtain ⟨c, hc, rfl⟩ := mem_map.mp hb
        obtain ⟨e, he, rfl⟩ := mem_map.mp hc
        obtain ⟨hmem, hkey⟩ := mem_filter.mp he
        have hread := h.unknown e hmem
        rwa [of_decide_eq_true hkey] at hread
    unknown := fun e he => h.unknown e (mem_of_mem_filter he) }

theorem noteReady (good : H256) (h : Genuine R q) : Genuine R (noteReady good q) :=
  walkUnknown_keeps (fun parent _ h => h.readyChildren parent) _ _ h

theorem verifierTakes (i : ℕ) (h : Genuine R q) : Genuine R (verifierTakes i q) := by
  unfold BlockQueue.verifierTakes
  split
  · rename_i work rest hidle hwork
    have hread := h.unverified work (hwork ▸ mem_cons_self)
    exact
      { h with
        unverified := fun b hb => h.unverified b (hwork ▸ mem_cons_of_mem _ hb)
        verifying := by
          intro b hb
          rcases mem_append.mp hb with hb | hb
          · exact h.verifying b hb
          · exact .inl ⟨work, mem_singleton.mp hb, hread⟩
        verifiers := by
          intro j work' hj
          rcases update_eq_some hj with ⟨-, hsome⟩ | ⟨-, hj⟩
          · exact Option.some.inj hsome ▸ hread
          · exact h.verifiers j work' hj }
  · exact h

theorem pass {b : QueuedBlock} (hb : Finished R b) (h : Genuine R q) : Genuine R (pass H b q) := by
  unfold BlockQueue.pass
  split_ifs
  · exact { h with }
  · exact
      { h with
        verified := by
          intro b' hb'
          rcases mem_append.mp hb' with hb' | hb'
          · exact h.verified b' hb'
          · rwa [mem_singleton.mp hb'] }

theorem finished {b : QueuedBlock} (h : Genuine R q) (hb : b ∈ q.verifying)
    (hdata : b.blockData ≠ []) : Finished R b := by
  rcases h.verifying b hb with ⟨work, rfl, -⟩ | hfinished
  · exact absurd rfl hdata
  · exact hfinished

theorem drainVerified (h : Genuine R q) : Genuine R (drainVerified H q) := by
  apply drainVerified_keeps _ h
  intro q b rest hq hdata h
  have hfinished := h.finished (hq ▸ mem_cons_self) hdata
  have hrest : rest ⊆ q.verifying := hq ▸ subset_cons_self _ _
  exact (h.of_verifying hrest).pass hfinished

end Genuine

theorem mem_replace {hash : H256} {b x : QueuedBlock} {l : List QueuedBlock}
    (hx : x ∈ replace hash b l) : x = b ∨ x ∈ l := by
  induction l with
  | nil => cases hx
  | cons y rest ih =>
    unfold replace at hx
    split_ifs at hx with hy
    · rcases mem_cons.mp hx with rfl | hx
      · exact .inl rfl
      · exact .inr (mem_cons_of_mem _ hx)
    · rcases mem_cons.mp hx with rfl | hx
      · exact .inr mem_cons_self
      · exact (ih hx).imp_right (mem_cons_of_mem _)

namespace Genuine

theorem verifierFails (hash : H256) (h : Genuine R q) : Genuine R (verifierFails H hash q) := by
  apply drainVerified
  exact { h with verifying := fun b hb => h.verifying b (mem_of_mem_filter hb) }

theorem verifierSucceeds (hash : H256) {b : QueuedBlock} (hb : Finished R b) (h : Genuine R q) :
    Genuine R (verifierSucceeds H hash b q) := by
  unfold BlockQueue.verifierSucceeds
  split
  · exact h
  · rename_i next rest hq
    split_ifs
    · have hrest : rest ⊆ q.verifying := hq ▸ subset_cons_self _ _
      exact ((h.of_verifying hrest).pass hb).drainVerified
    · exact
        { h with
          verifying := by
            intro b' hb'
            rcases mem_replace hb' with rfl | hb'
            · exact .inr hb
            · exact h.verifying b' hb' }

theorem idle (i : ℕ) (h : Genuine R q) : Genuine R { q with verifiers := update q.verifiers i none } :=
  { h with
    verifiers := by
      intro j work' hj
      rcases update_eq_some hj with ⟨-, hnone⟩ | ⟨-, hj⟩
      · cases hnone
      · exact h.verifiers j work' hj }

theorem verifierEnds (i : ℕ) (h : Genuine R q) : Genuine R (verifierEnds R i q) := by
  unfold BlockQueue.verifierEnds
  split
  · exact h
  · rename_i work hwork
    have hread := h.verifiers i work hwork
    have hidle := h.idle i
    dsimp only
    split
    · exact hidle.verifierFails _
    · rename_i info hinfo
      exact hidle.verifierSucceeds _ (finished_of_verifyBlock hread hinfo).1

theorem import_ (isKnown : H256 → Bool) (utcTime : ℕ) (block : Bytes) (isOurs : Bool)
    (h : Genuine R q) : Genuine R (import_ R isKnown utcTime block isOurs q).2 := by
  have hcases := imported (R := R) isKnown utcTime block isOurs q
  generalize BlockQueue.import_ R isKnown utcTime block isOurs q = r at hcases ⊢
  cases hcases with
  | refused => exact h
  | future _ _ bi _ hread _ =>
    exact
      { h with
        future := by
          intro e he
          rcases SizedBlockMap.insert_mem he with rfl | he
          · exact ⟨bi.parentHash, rfl, bi, hread, rfl⟩
          · exact h.future e he }
  | bad bi hread _ _ =>
    apply steady.updateBad (Finset.mem_insert_self _ _) False.elim
    exact { h with }
  | unknown bi hread _ _ _ =>
    exact
      { h with
        unknown := by
          intro e he
          rcases SizedBlockMap.insert_mem he with rfl | he
          · exact ⟨rfl, bi, hread, rfl⟩
          · exact h.unknown e he }
  | ready bi hread _ _ _ =>
    apply noteReady
    exact
      { h with
        unverified := by
          intro b hb
          rcases mem_append.mp hb with hb | hb
          · exact h.unverified b hb
          · obtain rfl := mem_singleton.mp hb
            exact ⟨rfl, bi, hread, rfl⟩ }

theorem doneDrain (bad : List (H256 × List ℕ)) (h : Genuine R q) : Genuine R (doneDrain H bad q) := by
  apply steady.doneLoop (fun i _ h => h.verifierTakes i) (fun _ => mem_beginDone) False.elim
  exact { h with }

theorem drain (max : ℕ) (h : Genuine R q) : Genuine R (drain H max q).2 := by
  unfold BlockQueue.drain
  split_ifs
  · exact { h with verified := fun b hb => h.verified b (mem_of_mem_drop hb) }
  · exact h

theorem empty : Genuine R empty where
  verified _ hb := absurd hb not_mem_nil
  verifying _ hb := absurd hb not_mem_nil
  unverified _ hb := absurd hb not_mem_nil
  verifiers _ _ hi := absurd hi (Option.some_ne_none _).symm
  unknown _ he := absurd he not_mem_nil
  future _ he := absurd he not_mem_nil

theorem exec (a : Act) (h : Genuine R q) : Genuine R (a.exec R q) := by
  cases a with
  | import_ isKnown utcTime block isOurs => exact h.import_ isKnown utcTime block isOurs
  | takeDue utcTime =>
    exact { h with future := fun e he => h.future e ((dropWhile_suffix _).subset he) }
  | noteReady good => exact h.noteReady good
  | verifierTakes i => exact h.verifierTakes i
  | verifierEnds i => exact h.verifierEnds i
  | drain max => exact h.drain max
  | doneDrain bad => exact h.doneDrain bad
  | retryAllUnknown => exact retryLoop_keeps (fun parent _ h => h.readyChildren parent) _ h
  | clear =>
    have hnil : Genuine R BlockQueue.empty := .empty
    exact { hnil with verifiers := h.verifiers }

end Genuine

def execAll (R : BlockReader H) (acts : List Act) : BlockQueue :=
  acts.foldl (fun q a => a.exec R q) empty

end BlockQueue

section
variable (parentHash difficulty timestamp : UInt8 → U256) (isGood : UInt8 → Bool)

def byteHeader (h : UInt8) : BlockHeader :=
  { BlockHeader.blank with
    parentHash := parentHash h
    sha3Uncles := 1000
    difficulty := difficulty h
    timestamp := timestamp h
    memo := BitVec.ofNat 256 h.toNat }

def byteVerify (r : QueueChecks) : Bytes → Option BlockHeader
  | [h] =>
    if h ≠ 0 ∧ (r = .PostGenesis ∨ isGood h) then some (byteHeader parentHash difficulty timestamp h) else none
  | _ => none

variable {parentHash difficulty timestamp isGood}

theorem byteVerify_eq_some {r : QueueChecks} {d : Bytes} {bi : BlockHeader}
    (hread : byteVerify parentHash difficulty timestamp isGood r d = some bi) :
    ∃ h, d = [h] ∧ h ≠ 0 ∧ bi = byteHeader parentHash difficulty timestamp h := by
  unfold byteVerify at hread
  split at hread
  · rename_i h
    split_ifs at hread with hgood
    exact ⟨h, rfl, hgood.1, (Option.some.inj hread).symm⟩
  · cases hread

theorem ofNat_toNat_inj {h h' : UInt8}
    (heq : BitVec.ofNat 256 h.toNat = BitVec.ofNat 256 h'.toNat) : h = h' := by
  have hlt := h.toNat_lt
  have hlt' := h'.toNat_lt
  have hnat := congrArg BitVec.toNat heq
  rw [BitVec.toNat_ofNat, BitVec.toNat_ofNat] at hnat
  exact UInt8.toNat.inj (by omega)

variable (parentHash difficulty timestamp isGood)

def byteReader (H : Hasher) : BlockReader H where
  headerHashFromBlock d := BitVec.ofNat 256 (d.headD 0).toNat
  verifyBlock := byteVerify parentHash difficulty timestamp isGood
  verifyBlock_nil _ := rfl
  hash_eq hread := by
    obtain ⟨h, rfl, hne, rfl⟩ := byteVerify_eq_some hread
    apply if_pos
    intro hzero
    exact hne (ofNat_toNat_inj hzero)
  unique hread hread' heq := by
    obtain ⟨h, rfl, -, rfl⟩ := byteVerify_eq_some hread
    obtain ⟨h', rfl, -, rfl⟩ := byteVerify_eq_some hread'
    obtain rfl : h = h' := ofNat_toNat_inj heq
    rfl
  sha3Uncles_ne hread d' heq := by
    obtain ⟨h, rfl, -, rfl⟩ := byteVerify_eq_some hread
    have hlt := (d'.headD 0).toNat_lt
    have hnat : 1000 = (BitVec.ofNat 256 (d'.headD 0).toNat).toNat := congrArg BitVec.toNat heq
    rw [BitVec.toNat_ofNat] at hnat
    omega

end

end Vapory
