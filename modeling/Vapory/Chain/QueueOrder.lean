import Vapory.Chain.QueueFrame
import Vapory.State.Rollback

/-! Blocks leave the queue in the order in which they came to be verified. -/
namespace Vapory.BlockQueue
open List

variable {H : Hasher} {R : BlockReader H} {q q' q₀ : BlockQueue}

section
variable (H)

/-- The hashes of the blocks on the way through the queue, the first to leave it in front. -/
def pipe (q : BlockQueue) : List H256 :=
  q.verified.map (·.info.hash H) ++ q.verifying.map (·.jobHash H) ++ q.unverified.map (·.hash)

end

theorem jobHash_placeholder (work : UnverifiedBlock) :
    (QueuedBlock.placeholder work).jobHash H = work.hash := rfl

variable {b : QueuedBlock}

theorem Finished.jobHash (h : Finished R b) : b.jobHash H = b.info.hash H := if_pos h.blockData_ne

/-- Only the placeholder of a block has its hash for that of the uncles. -/
theorem Genuine.jobHash_of_sha3Uncles (h : Genuine R q) (hb : b ∈ q.verifying) {d : Bytes}
    (huncles : b.info.sha3Uncles = R.headerHashFromBlock d) :
    b.jobHash H = R.headerHashFromBlock d ∧ b.blockData = [] := by
  rcases h.verifying b hb with ⟨work, rfl, -⟩ | hfinished
  · exact ⟨huncles, rfl⟩
  · exact absurd huncles (R.sha3Uncles_ne hfinished.2 d)

theorem pipe_spoils {hashes : Finset H256} (h : Spoils hashes q q') : q'.pipe H = q.pipe H := by
  unfold pipe
  rw [h.verified, h.verifying, h.unverified]

theorem pipe_verifierTakes (i : ℕ) (q : BlockQueue) : (verifierTakes i q).pipe H = q.pipe H := by
  unfold verifierTakes
  split
  · rename_i work rest _ hwork
    simp [pipe, hwork, jobHash_placeholder]
  · rfl

theorem map_jobHash_replace {l : List QueuedBlock} {hash : H256}
    (hl : ∀ x ∈ l, x.info.sha3Uncles = hash → x.jobHash H = b.jobHash H) :
    (replace hash b l).map (·.jobHash H) = l.map (·.jobHash H) := by
  induction l with
  | nil => rfl
  | cons x rest ih =>
    unfold replace
    split_ifs with hx
    · rw [map_cons, map_cons, hl x mem_cons_self hx]
    · rw [map_cons, map_cons, ih fun y hy => hl y (mem_cons_of_mem _ hy)]

/-- Blocks came to be verified, and nothing else. -/
structure Grows (q q' : BlockQueue) : Prop where
  verified : q'.verified = q.verified
  verifying : q'.verifying = q.verifying
  unverified : ∃ new, q'.unverified = q.unverified ++ new

theorem grows_readyChildren (parent : H256) (h : Grows q₀ q) :
    Grows q₀ (readyChildren parent q).2 := by
  obtain ⟨new, hnew⟩ := h.unverified
  constructor
  · exact h.verified
  · exact h.verifying
  · exact ⟨_, (congrArg (· ++ _) hnew).trans (append_assoc _ _ _)⟩

theorem grows_noteReady (good : H256) (h : Grows q₀ q) : Grows q₀ (noteReady good q) :=
  walkUnknown_keeps (fun parent _ h => grows_readyChildren parent h) _ _ h

/-- The hashes of the blocks that an operation puts in `m_unverified`. -/
def Act.puts (R : BlockReader H) (a : Act) (q : BlockQueue) : List H256 :=
  ((a.exec R q).unverified.drop q.unverified.length).map (·.hash)

theorem Grows.pipe {a : Act} (h : Grows q (a.exec R q)) :
    (a.exec R q).pipe H = q.pipe H ++ a.puts R q := by
  obtain ⟨new, hnew⟩ := h.unverified
  have hputs : a.puts R q = new.map (·.hash) := by
    rw [Act.puts, hnew, drop_left]
  rw [hputs]
  simp [BlockQueue.pipe, h.verified, h.verifying, hnew]

theorem pipe_drain (max : ℕ) (q : BlockQueue) :
    (drain H max q).1.map (·.info.hash H) ++ (drain H max q).2.pipe H = q.pipe H := by
  unfold drain
  split_ifs
  · simp only [pipe, ← append_assoc, ← map_append, take_append_drop]
  · rfl

end Vapory.BlockQueue
