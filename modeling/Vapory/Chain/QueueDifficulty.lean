import Vapory.Chain.QueueHead
import Vapory.Chain.QueueReady

/-! The difficulty of the queue is that of the blocks in it. -/
namespace Vapory
open List

open scoped BigOperators

section
variable {H : Hasher} (R : BlockReader H)

open Classical in
noncomputable def BlockReader.difficultyOf (hash : H256) : U256 :=
  if h : ∃ d bi, R.verifyBlock .PostGenesis d = some bi ∧
    R.headerHashFromBlock d = hash then h.choose_spec.choose.difficulty else 0

variable {R}

theorem BlockReader.difficultyOf_eq {d : Bytes} {bi : BlockHeader}
    (hread : R.verifyBlock .PostGenesis d = some bi) :
    R.difficultyOf (R.headerHashFromBlock d) = bi.difficulty := by
  have hex : ∃ d' bi', R.verifyBlock .PostGenesis d' = some bi' ∧
    R.headerHashFromBlock d' = R.headerHashFromBlock d := ⟨d, bi, hread, rfl⟩
  obtain ⟨hread', hhash⟩ := hex.choose_spec.choose_spec
  rw [difficultyOf, dif_pos hex, R.unique hread' hread hhash]

end

namespace BlockQueue
variable {H : Hasher} {R : BlockReader H} {q q' : BlockQueue}

theorem Finished.difficulty {b : QueuedBlock} (h : Finished R b) :
    R.difficultyOf (b.info.hash H) = b.info.difficulty := by
  obtain ⟨⟨hhash, bi, hread, -⟩, hverified⟩ := h
  rw [← hhash, R.difficultyOf_eq hread, R.unique hread hverified rfl]

section
variable (H)

def held (q : BlockQueue) : List H256 := q.pipe H ++ q.unknown.map (·.2.1) ++ q.future.map (·.2.1)

end

section
variable (R)

noncomputable def heldDifficulty (q : BlockQueue) : U256 :=
  ((q.held H).map R.difficultyOf).sum + ∑ h ∈ q.drainingSet, R.difficultyOf h

structure Exact (q : BlockQueue) : Prop where
  difficulty : q.difficulty = heldDifficulty R q
  draining : q.drainingDifficulty = ∑ h ∈ q.drainingSet, R.difficultyOf h

end

section
variable (H)

/-- Blocks move within the queue, and nothing else. -/
structure Moves (q q' : BlockQueue) : Prop where
  held : (q'.held H).Perm (q.held H)
  drainingSet : q'.drainingSet = q.drainingSet
  knownBad : q'.knownBad = q.knownBad
  difficulty : q'.difficulty = q.difficulty
  drainingDifficulty : q'.drainingDifficulty = q.drainingDifficulty

end

namespace Moves

theorem refl (q : BlockQueue) : Moves H q q := ⟨.refl _, rfl, rfl, rfl, rfl⟩

theorem trans {q₁ q₂ : BlockQueue} (h : Moves H q q₁) (h' : Moves H q₁ q₂) : Moves H q q₂ where
  held := h'.held.trans h.held
  drainingSet := h'.drainingSet.trans h.drainingSet
  knownBad := h'.knownBad.trans h.knownBad
  difficulty := h'.difficulty.trans h.difficulty
  drainingDifficulty := h'.drainingDifficulty.trans h.drainingDifficulty

theorem of_pipe (hpipe : q'.pipe H = q.pipe H) (hsame : q' = { q with
    verified := q'.verified, verifying :=
      q'.verifying, unverified := q'.unverified, verifiers := q'.verifiers }) : Moves H q q' := by
  constructor
  · rw [BlockQueue.held, BlockQueue.held, hpipe, hsame]
  · rw [hsame]
  · rw [hsame]
  · rw [hsame]
  · rw [hsame]

theorem verifierTakes (i : ℕ) (q : BlockQueue) : Moves H q (verifierTakes i q) := by
  apply of_pipe (pipe_verifierTakes i q)
  rcases verifierTakes_cases i q with hsame | ⟨work, rest, -, -, heq⟩
  · rw [hsame]
  · rw [heq]

theorem readyChildren (parent : H256) (q : BlockQueue) : Moves H q (readyChildren parent q).2 := by
  refine ⟨?_, rfl, rfl, rfl, rfl⟩
  have hsplit := (filter_append_perm (fun e : H256 × H256 × Bytes => decide (e.1 = parent))
    q.unknown).map (·.2.1)
  have hheld : (BlockQueue.readyChildren parent q).2.held H = q.pipe H ++
      ((q.unknown.filter fun e => decide (e.1 = parent)) ++
      (q.unknown.filter fun e => !decide (e.1 = parent))).map (·.2.1) ++
      q.future.map (·.2.1) := by
    simp [BlockQueue.held, pipe, BlockQueue.readyChildren, SizedBlockMap.removeByKeyEqual, Function.comp_def]
  rw [hheld]
  exact (hsplit.append_left _).append_right _

theorem noteReady (good : H256) (q : BlockQueue) : Moves H q (noteReady good q) :=
  walkUnknown_keeps (I := Moves H q) (fun parent q' h => h.trans (readyChildren parent q')) _ _
    (refl q)

theorem retryAllUnknown (q : BlockQueue) : Moves H q (retryAllUnknown q) :=
  retryLoop_keeps (I := Moves H q) (fun parent q' h => h.trans (readyChildren parent q')) _ (refl q)

theorem pass {b : QueuedBlock} {rest : List QueuedBlock} (hq : q.verifying = b :: rest)
    (hb : Finished R b) (hparent : b.info.parentHash ∉ q.knownBad) :
    Moves H q (pass H b { q with verifying := rest }) := by
  rw [BlockQueue.pass, if_neg hparent]
  apply of_pipe _ rfl
  simp [pipe, hq, hb.jobHash]

end Moves

/-- No finished block has a bad parent. -/
def Sound (q : BlockQueue) : Prop :=
  ∀ b ∈ q.verifying, b.blockData ≠ [] → b.info.parentHash ∉ q.knownBad

theorem badChildren_eq_nil {parent : H256} (h : ∀ e ∈ q.unknown, e.1 ≠ parent) :
    badChildren parent q = ([], q) := by
  have hnone : q.unknown.filter (fun e => decide (e.1 = parent)) = [] := by
    apply filter_eq_nil_iff.mpr
    intro e he
    simpa using h e he
  have hall : q.unknown.filter (fun e => decide (e.1 ≠ parent)) = q.unknown := by
    apply filter_eq_self.mpr
    intro e he
    simpa using h e he
  simp only [badChildren, SizedBlockMap.removeByKeyEqual, hnone, hall, map_nil, toFinset_nil,
    Finset.sdiff_empty, Finset.union_empty]

theorem collectUnknownBad_eq {bad : H256} (h : ∀ e ∈ q.unknown, e.1 ≠ bad) :
    collectUnknownBad bad q = q := by
  simp only [collectUnknownBad, walkUnknown, badChildren_eq_nil h, append_nil]
  cases q.unknown.length <;> rfl

/-- Neither the blocks in the three queues are bad, nor does a block wait for one of these. -/
structure NoneBad (H : Hasher) (bad : List H256) (q : BlockQueue) : Prop where
  clean : Clean H q
  unknown : ∀ e ∈ q.unknown, e.1 ∉ bad

namespace NoneBad
variable {bad : List H256}

theorem updateBad {hash : H256} (h : NoneBad H bad q) (hhash : hash ∈ bad) :
    updateBad H hash q = q ∧ TidyUpdate H hash q := by
  have hcollect : collectUnknownBad hash q = q :=
    collectUnknownBad_eq fun e he heq => h.unknown e he (heq ▸ hhash)
  obtain ⟨hverified, hunverified, hround⟩ := h.clean.badRound
  constructor
  · rw [BlockQueue.updateBad, hcollect, badRounds_succ, hround]
    rfl
  · rw [TidyUpdate, hcollect]
    constructor
    · unfold TidyRound
      rw [hverified]
      dsimp only
      rw [hunverified]
      exact ⟨atEnd_of_none h.clean.verified, atEnd_of_none h.clean.unverified,
        atEnd_of_none h.clean.verifying⟩
    · intro hmore
      rw [hround] at hmore
      cases hmore

theorem verifierTakes (i : ℕ) (h : NoneBad H bad q) : NoneBad H bad (verifierTakes i q) := by
  rcases verifierTakes_cases i q with hsame | ⟨work, rest, -, hwork, heq⟩
  · rwa [hsame]
  · have hclean := h.clean
    rw [heq]
    refine ⟨⟨hclean.verified, fun b hb => hclean.unverified b (hwork ▸ mem_cons_of_mem _ hb),
      fun b hb => ?_⟩, h.unknown⟩
    rcases mem_append.mp hb with hb | hb
    · exact hclean.verifying b hb
    · rw [mem_singleton.mp hb]
      exact hclean.unverified work (hwork ▸ mem_cons_self)

theorem doneLoop {bad : List (H256 × List ℕ)} (h : NoneBad H (bad.map (·.1)) q) :
    Moves H q (doneLoop H bad q) ∧ TidyDone H bad q := by
  induction bad generalizing q with
  | nil => exact ⟨.refl q, trivial⟩
  | cons b rest ih =>
    have hthreads := foldl_verifierTakes_keeps (q := q)
      (I := fun q' => NoneBad H ((b :: rest).map Prod.fst) q' ∧ Moves H q q')
      (fun i q' h' => ⟨h'.1.verifierTakes i, h'.2.trans (.verifierTakes i q')⟩) b.2 ⟨h, .refl q⟩
    obtain ⟨hnone, hmoves⟩ := hthreads
    obtain ⟨hsame, htidy⟩ := hnone.updateBad mem_cons_self
    obtain ⟨hrest, htidy'⟩ := ih ⟨hnone.clean, fun e he hmem => hnone.unknown e he (mem_cons_of_mem _ hmem)⟩
    constructor
    · rw [BlockQueue.doneLoop, hsame]
      exact hmoves.trans hrest
    · refine ⟨htidy, ?_⟩
      rw [hsame]
      exact htidy'

end NoneBad

theorem drain_cases (H : Hasher) (max : ℕ) (q : BlockQueue) : (drain H max q).2 = q ∨
    q.drainingSet = ∅ ∧ ∃ out rest, q.verified = out ++ rest ∧ (drain H max q).2 =
      { q with
        verified := rest
        drainingSet := (out.map (·.info.hash H)).toFinset
        drainingDifficulty := (out.map (·.info.difficulty)).sum
        readySet := q.readySet \ (out.map (·.info.hash H)).toFinset } := by
  unfold drain
  split_ifs with hset
  · exact .inr ⟨hset, _, _, (take_append_drop _ _).symm, rfl⟩
  · exact .inl rfl

namespace Exact

theorem add {d : Bytes} {bi : BlockHeader} (h : Exact R q)
    (hread : R.verifyBlock .PostGenesis d = some bi)
    (hheld : (q'.held H).Perm (R.headerHashFromBlock d :: q.held H))
    (hset : q'.drainingSet = q.drainingSet)
    (hdifficulty : q'.difficulty = q.difficulty + bi.difficulty)
    (hdraining : q'.drainingDifficulty = q.drainingDifficulty) : Exact R q' := by
  constructor
  · rw [hdifficulty, h.difficulty, heldDifficulty, heldDifficulty, hset, (hheld.map _).sum_eq,
      map_cons, sum_cons, R.difficultyOf_eq hread]
    ring
  · rw [hdraining, hset, h.draining]

theorem drain (max : ℕ) (hmatches : Matches R q) (h : Exact R q) : Exact R (drain H max q).2 := by
  rcases drain_cases H max q with hsame | ⟨hset, out, rest, hverified, heq⟩
  · rwa [hsame]
  · have hnodup := hmatches.nodup
    rw [pipe, hverified, map_append, append_assoc, append_assoc] at hnodup
    have hsum := sum_toFinset R.difficultyOf (nodup_append'.mp hnodup).1
    rw [heq]
    constructor
    · simp only [heldDifficulty]
      rw [h.difficulty, heldDifficulty, hset, Finset.sum_empty, hsum]
      simp only [held, pipe, hverified, map_append, sum_append]
      ring
    · dsimp only
      rw [hsum, map_map]
      congr 1
      apply map_congr_left
      intro b hb
      have hfinished := hmatches.genuine.verified b (hverified ▸ mem_append_left _ hb)
      exact hfinished.difficulty.symm

theorem beginDone (bad : List (H256 × List ℕ)) (h : Exact R q) : Exact R (beginDone bad q) := by
  constructor
  · simp only [BlockQueue.beginDone, heldDifficulty, Finset.sum_empty]
    rw [h.difficulty, h.draining, heldDifficulty]
    simp [held, pipe]
  · simp [BlockQueue.beginDone]

end Exact

end BlockQueue
end Vapory
