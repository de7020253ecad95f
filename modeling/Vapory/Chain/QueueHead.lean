import Vapory.Chain.QueueBad

/-! The first of the blocks that are being verified is not finished. -/
namespace Vapory.BlockQueue
open List

variable {H : Hasher} {R : BlockReader H} {q q' q₀ : BlockQueue}

structure Clean (H : Hasher) (q : BlockQueue) : Prop where
  verified : ∀ b ∈ q.verified, isBadVerified H q b = false
  unverified : ∀ b ∈ q.unverified, isBadUnverified q b = false
  verifying : ∀ b ∈ q.verifying, isBadVerifying q b = false

section dropBad
variable {α : Type} {queue : BlockQueue → List α} {put : BlockQueue → List α → BlockQueue}
  {moved : α → α} {isBad : BlockQueue → α → Bool} {hash : α → H256}

theorem dropBad_of_good (hput : put q (queue q) = q) (hgood : ∀ b ∈ queue q, isBad q b = false) :
    dropBad queue put moved isBad hash q = (false, q) := by
  have hnil : (removeIf moved (isBad q) (queue q)).2 = [] := removeIf_eq_nil.mpr hgood
  have hkept : (removeIf moved (isBad q) (queue q)).1 = queue q := by
    apply filter_eq_self.mpr
    intro b hb
    rw [hgood b hb]
    rfl
  simp [dropBad, hnil, hkept, hput]

end dropBad

theorem Clean.badRound (h : Clean H q) : dropBadVerified H q = (false, q) ∧
    dropBadUnverified q = (false, q) ∧ badRound H q = (false, q) := by
  have hverified : dropBadVerified H q = (false, q) := dropBad_of_good rfl h.verified
  have hunverified : dropBadUnverified q = (false, q) := dropBad_of_good rfl h.unverified
  have hverifying : dropBadVerifying H q = (false, q) := dropBad_of_good rfl h.verifying
  refine ⟨hverified, hunverified, ?_⟩
  simp [BlockQueue.badRound, hverified, hunverified, hverifying]

/-- The first block, if there is one, is not finished. -/
def HeadWaits (l : List QueuedBlock) : Prop := ∀ b ∈ l.head?, b.blockData = []

instance (l : List QueuedBlock) : Decidable (HeadWaits l) :=
  inferInstanceAs (Decidable (∀ b ∈ l.head?, b.blockData = []))

theorem headWaits_append {l new : List QueuedBlock} (hnew : ∀ b ∈ new, b.blockData = []) :
    HeadWaits (l ++ new) ↔ HeadWaits l := by
  cases l with
  | nil =>
    constructor
    · intro _ b hb
      cases hb
    · intro _ b hb
      exact hnew b (mem_of_mem_head? hb)
  | cons => exact Iff.rfl

theorem headWaits_drainVerified (q : BlockQueue) : HeadWaits (drainVerified H q).verifying := by
  have hloop (l : List QueuedBlock) : ∀ q, q.verifying = l →
    HeadWaits (drainLoop H l q).verifying := by
    induction l with
    | nil =>
      intro q hq b hb
      rw [drainLoop, hq] at hb
      cases hb
    | cons b rest ih =>
      intro q hq
      unfold drainLoop
      split_ifs with hdata
      · rw [hq]
        intro b' hb'
        rwa [← Option.some.inj hb']
      · apply ih
        unfold pass
        split_ifs <;> rfl
  exact hloop q.verifying q rfl

theorem headWaits_verifierSucceeds (hash : H256) (b : QueuedBlock) (h : HeadWaits q.verifying) :
    HeadWaits (verifierSucceeds H hash b q).verifying := by
  unfold verifierSucceeds
  split
  · exact h
  · rename_i next rest hq
    split_ifs with hnext
    · exact headWaits_drainVerified _
    · rw [hq] at h ⊢
      rw [replace, if_neg hnext]
      exact h

theorem headWaits_verifierEnds (i : ℕ) (h : HeadWaits q.verifying) :
    HeadWaits (verifierEnds R i q).verifying := by
  unfold verifierEnds
  split
  · exact h
  · dsimp only
    split
    · exact headWaits_drainVerified _
    · exact headWaits_verifierSucceeds _ _ h

theorem headWaits_verifierTakes (i : ℕ) (h : HeadWaits q.verifying) :
    HeadWaits (verifierTakes i q).verifying := by
  rcases verifierTakes_cases i q with hsame | ⟨work, rest, -, -, heq⟩
  · rwa [hsame]
  · rw [heq]
    apply (headWaits_append _).mpr h
    intro b hb
    rw [mem_singleton.mp hb]
    rfl

/-- Hashes among which are all those that `updateBad_WITH_LOCK` may mark: with a hash also those of
the blocks that wait for it and, in each queue, those of a block that is bad by these hashes and of
the blocks behind it, of which `removeIf` may return any. -/
structure Covers (H : Hasher) (s : Finset H256) (q : BlockQueue) : Prop where
  knownBad : q.knownBad ⊆ s
  unknown : ∀ e ∈ q.unknown, e.1 ∈ s → e.2.1 ∈ s
  verified : ∀ b ∈ q.verified.dropWhile fun b => b.info.parentHash ∉ s ∧ b.info.hash H ∉ s,
    b.info.hash H ∈ s
  unverified : ∀ b ∈ q.unverified.dropWhile fun b => b.parentHash ∉ s ∧ b.hash ∉ s, b.hash ∈ s
  verifying : ∀ b ∈ q.verifying.dropWhile fun b =>
      b.info.parentHash ∉ s ∧ b.info.sha3Uncles ∉ s, b.jobHash H ∈ s ∧ b.info.sha3Uncles ∈ s

/-- No block in `m_verifying` is finished, or the first one cannot become bad. -/
def HeadStays (H : Hasher) (q : BlockQueue) : Prop :=
  (∀ b ∈ q.verifying, b.blockData = []) ∨
  ∃ s, Covers H s q ∧ ∀ b ∈ q.verifying.head?, b.info.parentHash ∉ s ∧ b.info.sha3Uncles ∉ s

namespace Covers
variable {s : Finset H256}

theorem thin (h : Covers H s q) (hbad : q'.knownBad ⊆ s) (hunknown : q'.unknown ⊆ q.unknown)
    (hverified : q'.verified.Sublist q.verified) (hunverified : q'.unverified.Sublist q.unverified)
    (hverifying : q'.verifying.Sublist q.verifying) : Covers H s q' where
  knownBad := hbad
  unknown e he := h.unknown e (hunknown he)
  verified b hb := h.verified b (dropWhile_subset hverified (fun _ => id) hb)
  unverified b hb := h.unverified b (dropWhile_subset hunverified (fun _ => id) hb)
  verifying b hb := h.verifying b (dropWhile_subset hverifying (fun _ => id) hb)

theorem badChildren {parent : H256} (hparent : parent ∈ q.knownBad) (h : Covers H s q) :
    Covers H s (badChildren parent q).2 := by
  have hspoils := spoils_badChildren parent q
  apply h.thin _ hspoils.unknown.subset (.refl _) (.refl _) (.refl _)
  intro x hx
  rcases Finset.mem_union.mp hx with hx | hx
  · exact h.knownBad hx
  · obtain ⟨c, hc, rfl⟩ := mem_map.mp (mem_toFinset.mp hx)
    obtain ⟨e, he, rfl⟩ := mem_map.mp hc
    obtain ⟨hmem, hkey⟩ := mem_filter.mp he
    exact h.unknown e hmem (of_decide_eq_true hkey ▸ h.knownBad hparent)

theorem foldl_markBad {hashes : List H256} (hhashes : ∀ x ∈ hashes, x ∈ s) (h : Covers H s q) :
    Covers H s (hashes.foldl markBad q) := by
  apply foldl_markBad_keeps (fun parent q hparent h => h.badChildren hparent) _ h
  intro x hx q h
  exact h.thin (Finset.insert_subset (hhashes x hx) h.knownBad) (List.Subset.refl _) (.refl _)
    (.refl _) (.refl _)

theorem good_of_good {bad : Finset H256} (hbad : bad ⊆ s) {x y : H256}
    (h : decide (x ∉ s ∧ y ∉ s) = true) : (!decide (x ∈ bad ∨ y ∈ bad)) = true := by
  obtain ⟨hx, hy⟩ := of_decide_eq_true h
  have hnone : ¬ (x ∈ bad ∨ y ∈ bad) := not_or.mpr ⟨fun hx' => hx (hbad hx'), fun hy' => hy (hbad hy')⟩
  rw [decide_eq_false hnone]
  rfl

theorem steady : Steady H False (Covers H s) where
  badChildren _ _ hparent h := h.badChildren hparent
  verified q _ h := by
    apply foldl_markBad
    · intro x hx
      obtain ⟨y, hy, rfl⟩ := mem_map.mp hx
      obtain ⟨b, hb, hyb⟩ := behind_of_mem_removeIf hy
      have hmem := h.verified b (dropWhile_subset (.refl _) (fun _ => good_of_good h.knownBad) hb)
      rcases hyb with rfl | rfl
      · exact hmem
      · exact hmem
    · exact h.thin h.knownBad (List.Subset.refl _) filter_sublist (.refl _) (.refl _)
  unverified q _ h := by
    apply foldl_markBad
    · intro x hx
      obtain ⟨y, hy, rfl⟩ := mem_map.mp hx
      obtain ⟨b, hb, hyb⟩ := behind_of_mem_removeIf hy
      have hmem := h.unverified b (dropWhile_subset (.refl _) (fun _ => good_of_good h.knownBad) hb)
      rcases hyb with rfl | rfl
      · exact hmem
      · exact hmem
    · exact h.thin h.knownBad (List.Subset.refl _) (.refl _) filter_sublist (.refl _)
  verifying q _ h := by
    apply foldl_markBad
    · intro x hx
      obtain ⟨y, hy, rfl⟩ := mem_map.mp hx
      obtain ⟨b, hb, hyb⟩ := behind_of_mem_removeIf hy
      have hmem := h.verifying b (dropWhile_subset (.refl _) (fun _ => good_of_good h.knownBad) hb)
      rcases hyb with rfl | rfl
      · exact hmem.1
      · -- without its data a block is asked for its uncles
        exact hmem.2
    · exact h.thin h.knownBad (List.Subset.refl _) (.refl _) (.refl _) filter_sublist

end Covers

/-- Of the blocks in `m_verifying` those go that are bad at the time. -/
theorem steady_verifying {I : BlockQueue → Prop} (hI : Steady H False I)
    {P : List QueuedBlock → Prop}
    (hP : ∀ q, I q → P q.verifying → P (q.verifying.filter fun b => !isBadVerifying q b)) :
    Steady H False fun q => I q ∧ P q.verifying where
  badChildren parent q hparent h := ⟨hI.badChildren parent q hparent h.1, h.2⟩
  verified q ht h := ⟨hI.verified q ht h.1, (dropBadVerified_spec H q).verifying ▸ h.2⟩
  unverified q ht h := ⟨hI.unverified q ht h.1, (dropBadUnverified_spec q).verifying ▸ h.2⟩
  verifying q ht h := ⟨hI.verifying q ht h.1, (dropBadVerifying_spec H q).verifying ▸ hP q h.1 h.2⟩

theorem headWaits_updateBad (bad : H256) (q : BlockQueue) (hbad : bad ∈ q.knownBad)
    (hstays : HeadStays H q) (h : HeadWaits q.verifying) :
    HeadWaits (updateBad H bad q).verifying := by
  rcases hstays with hall | ⟨s, hcovers, hhead⟩
  · have hsteady := steady_verifying (steady_knownBad (H := H) ∅)
      (P := fun l => ∀ b ∈ l, b.blockData = []) fun _ _ h b hb => h b (mem_of_mem_filter hb)
    have hunfinished := (hsteady.updateBad hbad False.elim ⟨Finset.empty_subset _, hall⟩).2
    exact fun b hb => hunfinished b (mem_of_mem_head? hb)
  · have hsteady := steady_verifying (Covers.steady (H := H) (s := s))
      (P := fun l => l.head? = q.verifying.head?) fun q' hcovers' hsame => by
        cases hl : q'.verifying with
        | nil => rwa [hl] at hsame
        | cons b rest =>
          rw [hl] at hsame
          have hgood : (!isBadVerifying q' b) = true := by
            apply Covers.good_of_good hcovers'.knownBad
            exact decide_eq_true (hhead b (hsame ▸ rfl))
          rw [filter_cons_of_pos (p := fun b => !isBadVerifying q' b) hgood]
          exact hsame
    rw [HeadWaits, (hsteady.updateBad hbad False.elim ⟨hcovers, rfl⟩).2]
    exact h

/-- When bad blocks are looked for, the first block in `m_verifying` stays, or none is finished. -/
def Act.KeepsHead (R : BlockReader H) : Act → BlockQueue → Prop
  | import_ isKnown utcTime block isOurs, q =>
    (BlockQueue.import_ R isKnown utcTime block isOurs q).1 = .BadChain →
      HeadStays H { q with knownBad := insert (R.headerHashFromBlock block) q.knownBad }
  | doneDrain bad, q => AtUpdates H (fun _ => HeadStays H) bad (beginDone bad q)
  | _, _ => True

theorem headWaits_exec {a : Act} (ha : a.KeepsHead R q) (h : HeadWaits q.verifying) :
    HeadWaits (a.exec R q).verifying := by
  cases a with
  | import_ isKnown utcTime block isOurs =>
    obtain ⟨r, hr, hcases, hexec⟩ := exec_import R isKnown utcTime block isOurs q
    rw [hexec]
    cases hcases with
    | refused | future | unknown => exact h
    | bad bi hread =>
      have hstays := ha (congrArg Prod.fst hr)
      rw [← R.hash_eq hread] at hstays
      exact headWaits_updateBad _ _ (Finset.mem_insert_self _ _) hstays h
    | ready => exact walkUnknown_keeps (I := fun q => HeadWaits q.verifying) (fun _ _ h => h) _ _ h
  | doneDrain bad =>
    exact doneLoop_keeps headWaits_updateBad (fun i _ => headWaits_verifierTakes i)
      (fun _ => mem_beginDone) ha h
  | takeDue utcTime => exact h
  | noteReady good =>
    exact walkUnknown_keeps (I := fun q => HeadWaits q.verifying) (fun _ _ h => h) _ _ h
  | verifierTakes i => exact headWaits_verifierTakes i h
  | verifierEnds i => exact headWaits_verifierEnds i h
  | drain max =>
    simp only [Act.exec, drain]
    split_ifs
    · exact h
    · exact h
  | retryAllUnknown =>
    exact retryLoop_keeps (I := fun q => HeadWaits q.verifying) (fun _ _ h => h) _ h
  | clear => exact fun b hb => absurd hb (Option.not_mem_none b)

/-- What a queue comes to by operations that keep a block in front that is not finished. -/
inductive HeadRun (R : BlockReader H) : BlockQueue → Prop where
  | start : HeadRun R empty
  | step {q : BlockQueue} (a : Act) (h : HeadRun R q) (ha : a.KeepsHead R q) : HeadRun R (a.exec R q)

/-- The first block in `m_verifying` is not finished. -/
theorem verifying_head_waits (h : HeadRun R q) : HeadWaits q.verifying := by
  induction h with
  | start => exact fun b hb => absurd hb (Option.not_mem_none b)
  | step a _ ha ih => exact headWaits_exec ha ih

theorem Act.keepsHead_import {isKnown : H256 → Bool} {utcTime : ℕ} {block : Bytes} {isOurs : Bool}
    (h : (BlockQueue.import_ R isKnown utcTime block isOurs q).1 ≠ .BadChain) :
    (Act.import_ isKnown utcTime block isOurs).KeepsHead R q := fun hup => absurd hup h

/-- Blocks 3 and 4 are not bad, and block 4 is finished behind block 3. -/
def takenActs : List Act := [.import_ (· == 9) 10 [3] false, .import_ (· == 9) 10 [4] false,
  .import_ (· == 1) 10 [2] false, .verifierTakes 0, .verifierTakes 1, .verifierTakes 2,
  .verifierEnds 1]

theorem takenActs_stays :
    HeadStays State.lengthHasher (beginDone [(1, [])] (execAll forkReader takenActs)) := by
  refine .inr ⟨{1, 2}, ⟨?_, ?_, ?_, ?_, ?_⟩, ?_⟩
  all_goals decide +kernel

theorem verifying_head_waits_taken :
    (execAll forkReader (takenActs ++ [.doneDrain [(1, [])]])).verifying.map
      (fun b => (b.jobHash State.lengthHasher, b.blockData)) = [(3, []), (4, [4])] ∧
    HeadWaits (execAll forkReader (takenActs ++ [.doneDrain [(1, [])]])).verifying := by
  have hone := HeadRun.start.step (R := forkReader) (.import_ (· == 9) 10 [3] false)
    (Act.keepsHead_import (by decide +kernel))
  have htwo := hone.step (.import_ (· == 9) 10 [4] false) (Act.keepsHead_import (by decide +kernel))
  have hthree := htwo.step (.import_ (· == 1) 10 [2] false) (Act.keepsHead_import (by decide +kernel))
  have htaken := ((hthree.step (.verifierTakes 0) trivial).step (.verifierTakes 1) trivial).step
    (.verifierTakes 2) trivial
  have hended := htaken.step (.verifierEnds 1) trivial
  have hdone := hended.step (.doneDrain [(1, [])]) ⟨takenActs_stays, trivial⟩
  refine ⟨by decide +kernel, ?_⟩
  exact verifying_head_waits hdone

/-- With the child of block 1 in front and block 3, after it, finished, what is left in
`m_verifying` is the finished block. -/
theorem verifying_head_stuck :
    (execAll forkReader [.import_ (· == 1) 10 [2] false, .import_ (· == 9) 10 [3] false,
    .import_ (· == 9) 10 [4] false, .verifierTakes 0, .verifierTakes 1, .verifierTakes 2,
    .verifierEnds 1, .doneDrain [(1, [])]]).verifying.map
    (fun b => (b.info.hash State.lengthHasher, b.blockData)) = [(3, [3])] := by
  decide +kernel

end Vapory.BlockQueue
