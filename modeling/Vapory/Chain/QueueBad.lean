import Vapory.Chain.QueueOrder

/-! Which blocks the queue takes for bad. -/
namespace Vapory.BlockQueue
open List

variable {H : Hasher} {R : BlockReader H} {q : BlockQueue} {roots : Finset H256}

/-- A hash that was reported, or that of a block whose parent is bad. -/
inductive Bad (R : BlockReader H) (roots : Finset H256) : H256 → Prop where
  | root {hash : H256} (h : hash ∈ roots) : Bad R roots hash
  | child {hash parentHash : H256} {d : Bytes} (h : R.Reads hash parentHash d)
    (hparent : Bad R roots parentHash) : Bad R roots hash

theorem Bad.mono {roots' : Finset H256} (hroots : roots ⊆ roots') {hash : H256}
    (h : Bad R roots hash) : Bad R roots' hash := by
  induction h with
  | root h => exact .root (hroots h)
  | child h _ ih => exact .child h ih

structure Blames (R : BlockReader H) (roots : Finset H256) (q : BlockQueue) : Prop where
  genuine : Genuine R q
  bad : ∀ h ∈ q.knownBad, Bad R roots h ∧ ∃ d, R.headerHashFromBlock d = h

namespace Blames

theorem mono {roots' : Finset H256} (hroots : roots ⊆ roots') (h : Blames R roots q) :
    Blames R roots' q :=
  ⟨h.genuine, fun hash hh => ⟨(h.bad hash hh).1.mono hroots, (h.bad hash hh).2⟩⟩

theorem insert {hash : H256} (h : Blames R roots q) (hbad : Bad R roots hash)
    (hblock : ∃ d, R.headerHashFromBlock d = hash) : ∀ x ∈ insert hash q.knownBad, Bad R roots x ∧
    ∃ d, R.headerHashFromBlock d = x := by
  intro x hx
  rcases Finset.mem_insert.mp hx with rfl | hx
  · exact ⟨hbad, hblock⟩
  · exact h.bad x hx

theorem child {hash parentHash : H256} {d : Bytes} (h : Blames R roots q)
    (hread : R.Reads hash parentHash d) (hparent : parentHash ∈ q.knownBad) : Bad R roots hash ∧
    ∃ d, R.headerHashFromBlock d = hash :=
  ⟨.child hread (h.bad _ hparent).1, d, hread.hash⟩

theorem badChildren {parent : H256} (hparent : parent ∈ q.knownBad) (h : Blames R roots q) :
    Blames R roots (badChildren parent q).2 := by
  constructor
  · exact Genuine.steady.badChildren parent q hparent h.genuine
  · intro x hx
    rcases Finset.mem_union.mp hx with hx | hx
    · exact h.bad x hx
    · obtain ⟨c, hc, rfl⟩ := mem_map.mp (mem_toFinset.mp hx)
      obtain ⟨e, he, rfl⟩ := mem_map.mp hc
      obtain ⟨hmem, hkey⟩ := mem_filter.mp he
      have hread := h.genuine.unknown e hmem
      rw [of_decide_eq_true hkey] at hread
      exact h.child hread hparent

theorem foldl_markBad {hashes : List H256}
    (hbad : ∀ x ∈ hashes, Bad R roots x ∧ ∃ d, R.headerHashFromBlock d = x)
    (h : Blames R roots q) : Blames R roots (hashes.foldl markBad q) := by
  apply foldl_markBad_keeps (fun parent q hparent h => h.badChildren hparent) _ h
  intro x hx q h
  exact ⟨{ h.genuine with }, h.insert (hbad x hx).1 (hbad x hx).2⟩

variable {b : QueuedBlock}

theorem verified_bad (h : Blames R roots q) (hb : b ∈ q.verified)
    (hisBad : isBadVerified H q b = true) : Bad R roots (b.info.hash H) ∧
    ∃ d, R.headerHashFromBlock d = b.info.hash H := by
  rcases of_decide_eq_true hisBad with hparent | hself
  · exact h.child (h.genuine.verified b hb).1 hparent
  · exact h.bad _ hself

theorem unverified_bad (h : Blames R roots q) {b : UnverifiedBlock} (hb : b ∈ q.unverified)
    (hisBad : isBadUnverified q b = true) : Bad R roots b.hash ∧
    ∃ d, R.headerHashFromBlock d = b.hash := by
  rcases of_decide_eq_true hisBad with hparent | hself
  · exact h.child (h.genuine.unverified b hb) hparent
  · exact h.bad _ hself

theorem verifying_bad (h : Blames R roots q) (hb : b ∈ q.verifying)
    (hisBad : isBadVerifying q b = true) : Bad R roots (b.jobHash H) ∧
    ∃ d, R.headerHashFromBlock d = b.jobHash H := by
  rcases h.genuine.verifying b hb with ⟨work, rfl, hread⟩ | hfinished
  · rcases of_decide_eq_true hisBad with hparent | hself
    · exact h.child hread hparent
    · exact h.bad _ hself
  · rw [hfinished.jobHash]
    rcases of_decide_eq_true hisBad with hparent | huncles
    · exact h.child hfinished.1 hparent
    · -- the uncles of a block have no hash of a block
      obtain ⟨d, hd⟩ := (h.bad _ huncles).2
      exact absurd hd.symm (R.sha3Uncles_ne hfinished.2 d)

/-- With the bad blocks at the end of the queues, only bad blocks are marked. -/
theorem steady : Steady H True (Blames R roots) where
  badChildren parent q hparent h := h.badChildren hparent
  verified q ht h := by
    have hkept : Blames R roots
      { q with verified := (removeIf QueuedBlock.moved (isBadVerified H q) q.verified).1 } :=
      ⟨h.genuine.of_verified filter_sublist.subset, h.bad⟩
    apply hkept.foldl_markBad
    intro x hx
    rw [removeIf_of_atEnd (ht trivial)] at hx
    obtain ⟨b, hb, rfl⟩ := mem_map.mp hx
    obtain ⟨hmem, hisBad⟩ := mem_filter.mp hb
    exact h.verified_bad hmem hisBad
  unverified q ht h := by
    have hkept : Blames R roots
      { q with unverified := (removeIf UnverifiedBlock.moved (isBadUnverified q)
      q.unverified).1 } :=
      ⟨h.genuine.of_unverified filter_sublist.subset, h.bad⟩
    apply hkept.foldl_markBad
    intro x hx
    rw [removeIf_of_atEnd (ht trivial)] at hx
    obtain ⟨b, hb, rfl⟩ := mem_map.mp hx
    obtain ⟨hmem, hisBad⟩ := mem_filter.mp hb
    exact h.unverified_bad hmem hisBad
  verifying q ht h := by
    have hkept : Blames R roots
      { q with verifying := (removeIf QueuedBlock.moved (isBadVerifying q) q.verifying).1 } :=
      ⟨h.genuine.of_verifying filter_sublist.subset, h.bad⟩
    apply hkept.foldl_markBad
    intro x hx
    rw [removeIf_of_atEnd (ht trivial)] at hx
    obtain ⟨b, hb, rfl⟩ := mem_map.mp hx
    obtain ⟨hmem, hisBad⟩ := mem_filter.mp hb
    exact h.verifying_bad hmem hisBad

theorem pass (hb : Finished R b) (h : Blames R roots q) : Blames R roots (pass H b q) := by
  refine ⟨h.genuine.pass hb, ?_⟩
  unfold BlockQueue.pass
  split_ifs with hparent
  · obtain ⟨hbad, hblock⟩ := h.child hb.1 hparent
    exact h.insert hbad hblock
  · exact h.bad

theorem drainVerified (h : Blames R roots q) : Blames R roots (drainVerified H q) := by
  apply drainVerified_keeps _ h
  intro q b rest hq hdata h
  have hfinished := h.genuine.finished (hq ▸ mem_cons_self) hdata
  have hrest : Blames R roots { q with verifying := rest } :=
    ⟨h.genuine.of_verifying (hq ▸ subset_cons_self _ _), h.bad⟩
  exact hrest.pass hfinished

theorem verifierSucceeds (hash : H256) (hb : Finished R b) (h : Blames R roots q) :
    Blames R roots (verifierSucceeds H hash b q) := by
  refine ⟨h.genuine.verifierSucceeds hash hb, ?_⟩
  unfold BlockQueue.verifierSucceeds
  split
  · exact h.bad
  · rename_i next rest hq
    split_ifs
    · have hrest : Blames R roots { q with verifying := rest } :=
        ⟨h.genuine.of_verifying (hq ▸ subset_cons_self _ _), h.bad⟩
      exact (hrest.pass hb).drainVerified.bad
    · exact h.bad

theorem verifierFails {hash : H256} (hbad : Bad R roots hash)
    (hblock : ∃ d, R.headerHashFromBlock d = hash) (h : Blames R roots q) :
    Blames R roots (verifierFails H hash q) := by
  apply drainVerified
  constructor
  · exact { h.genuine with verifying := fun b hb => h.genuine.verifying b (mem_of_mem_filter hb) }
  · exact h.insert hbad hblock

end Blames

/-- The hashes that an operation reports as bad: those of `doneDrain`, and that of a block that is
not verified. -/
def Act.reports (R : BlockReader H) : Act → BlockQueue → List H256
  | verifierEnds i, q =>
    match q.verifiers i with
    | none => []
    | some work => if R.verifyBlock .OutOfOrderChecks work.blockData = none then [work.hash] else []
  | doneDrain bad, _ => bad.map (·.1)
  | _, _ => []

def forkReader : BlockReader State.lengthHasher :=
  byteReader (fun h => if h = 2 then 1 else 9) (fun _ => 1) (fun _ => 0)
    (fun _ => true) State.lengthHasher

end Vapory.BlockQueue
