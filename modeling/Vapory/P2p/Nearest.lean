import Vapory.Devcore.FixedHash
import Vapory.P2p.NodeTable

/-! `nearestNodeEntries` of `NodeTable.cpp`: the entries of the node table that are nearest to a
target. -/
namespace Vapory.P2p.NodeTable
open List

def bins : ℕ := 255

/-- `distance` of two nodes with hashed ids: the place of the highest bit in which they differ. -/
def distanceOf (a b : H256) : ℕ := (a ^^^ b).toNat.log2

/-- The loop that spreads from `head` and `tail`, with as many turns as there are bins from `head`
on. The source counts no entry, so that only the bins end it. -/
def spread : ℕ → ℕ → ℕ → List ℕ
  | 0, _, _ => []
  | turns + 1, head, tail =>
    if head ≠ tail then head :: ((if tail ≠ 0 then [tail] else []) ++ spread turns (head + 1)
      (tail - 1)) else []

/-- The loop that goes down from `tail`. -/
def down : ℕ → List ℕ
  | 0 => []
  | tail + 1 => (tail + 1) :: down tail

/-- The buckets that are looked at, for a target at the distance `head`. -/
def visits (head : ℕ) : List ℕ :=
  let lastBin := bins - 1
  let tail := if head = 0 then lastBin else (head - 1) % bins
  if 1 < head ∧ tail ≠ lastBin then spread (bins - head) head tail
  else if head < 2 then List.range' head (bins - head)
  else down tail

section
variable {I : Type} [DecidableEq I] (s : NodeTable I) (hash : I → H256) (allowed : I → Bool)

def live (b : ℕ) : List (I × ℕ) := (s.buckets b).filter s.lock

/-- `nearestNodeEntries`, where `allowed` is for nodes with an endpoint that is allowed. -/
def nearestNodeEntries (target : I) : List (I × ℕ) :=
  let found := (visits (distanceOf (hash s.self) (hash target))).flatMap s.live
  let ordered :=
    (List.range 256).flatMap fun d => found.filter fun n => distanceOf (hash target) (hash n.1) = d
  (ordered.filter fun n => allowed n.1).take bucketSize

def candidates : List (I × ℕ) := ((List.range bins).flatMap s.live).filter fun n => allowed n.1

end

/-- Distinct ones of all entries that are nearest, as many as fit a bucket. -/
structure Nearest {E : Type} (dist : E → ℕ) (all r : List E) : Prop where
  nodup : r.Nodup
  subset : r ⊆ all
  length_eq : r.length = min bucketSize all.length
  nearest : ∀ e ∈ all, e ∉ r → ∀ x ∈ r, dist x ≤ dist e

/-! The buckets that are looked at. -/

theorem mem_spread {turns head tail b : ℕ} (h : tail < head) :
    b ∈ spread turns head tail ↔ head ≤ b ∧ b < head + turns ∨ 0 < b ∧ b ≤ tail ∧
    tail < b + turns := by
  induction turns generalizing head tail with
  | zero =>
    rw [spread]
    simp only [not_mem_nil, false_iff]
    omega
  | succ turns ih =>
    rw [spread, if_pos (by omega), mem_cons, mem_append, ih (by omega : tail - 1 < head + 1)]
    by_cases ht : tail ≠ 0
    · rw [if_pos ht, mem_singleton]
      omega
    · rw [if_neg ht]
      simp only [not_mem_nil, false_or]
      omega

theorem nodup_spread {turns head tail : ℕ} (h : tail < head) : (spread turns head tail).Nodup := by
  induction turns generalizing head tail with
  | zero => exact nodup_nil
  | succ turns ih =>
    have hnext : tail - 1 < head + 1 := by omega
    rw [spread, if_pos (by omega)]
    by_cases ht : tail ≠ 0
    · rw [if_pos ht, singleton_append, nodup_cons, nodup_cons, mem_cons, mem_spread hnext, mem_spread hnext]
      exact ⟨by omega, by omega, ih hnext⟩
    · rw [if_neg ht, nil_append, nodup_cons, mem_spread hnext]
      exact ⟨by omega, ih hnext⟩

theorem mem_down {tail b : ℕ} : b ∈ down tail ↔ 0 < b ∧ b ≤ tail := by
  induction tail with
  | zero =>
    rw [down]
    simp only [not_mem_nil, false_iff]
    omega
  | succ tail ih =>
    rw [down, mem_cons, ih]
    omega

theorem nodup_down (tail : ℕ) : (down tail).Nodup := by
  induction tail with
  | zero => exact nodup_nil
  | succ tail ih =>
    rw [down, nodup_cons, mem_down]
    exact ⟨by omega, ih⟩

/-- The buckets that are left out: the first one unless the target is in our place, and from half of
the distances on those that are further below the target's than it is from the last. -/
def Missed (head b : ℕ) : Prop := b < head ∧ (b = 0 ∨ head < bins ∧ b + bins < 2 * head)

instance (head b : ℕ) : Decidable (Missed head b) := inferInstanceAs (Decidable (_ ∧ _))

theorem visits_spec {head : ℕ} (h : head ≤ bins) :
    (visits head).Nodup ∧ ∀ b, b ∈ visits head ↔ b < bins ∧ ¬ Missed head b := by
  have hbins : bins = 255 := rfl
  unfold visits Missed
  dsimp only
  by_cases hspread : 1 < head ∧ head ≠ bins
  · have htail : (if head = 0 then bins - 1 else (head - 1) % bins) = head - 1 := by
      rw [if_neg (by omega), Nat.mod_eq_of_lt (by omega)]
    rw [htail, if_pos (by omega)]
    refine ⟨nodup_spread (by omega), fun b => ?_⟩
    rw [mem_spread (by omega)]
    omega
  · by_cases hlow : head < 2
    · rw [if_neg (by omega), if_pos hlow]
      refine ⟨nodup_range', fun b => ?_⟩
      rw [mem_range'_1]
      omega
    · have htail : (if head = 0 then bins - 1 else (head - 1) % bins) = bins - 1 := by
        rw [if_neg (by omega), Nat.mod_eq_of_lt (by omega)]
        omega
      rw [htail, if_neg (by omega), if_neg hlow]
      refine ⟨nodup_down _, fun b => ?_⟩
      rw [mem_down]
      omega

/-! The entries in the order of their distances. -/

section
variable {E : Type} {dist : E → ℕ} {bound : ℕ} {xs : List E}

theorem mem_ordered (hbound : ∀ e, dist e < bound) {e : E} :
    e ∈ (List.range bound).flatMap (fun d => xs.filter fun n => dist n = d) ↔ e ∈ xs := by
  simp [hbound]

theorem nodup_ordered (h : xs.Nodup) :
    ((List.range bound).flatMap fun d => xs.filter fun n => dist n = d).Nodup := by
  refine nodup_flatMap.mpr ⟨fun d _ => h.filter _, nodup_range.imp fun hne e he he' => hne ?_⟩
  simp only [mem_filter, decide_eq_true_eq] at he he'
  exact he.2.symm.trans he'.2

theorem pairwise_ordered : ((List.range bound).flatMap fun d => xs.filter fun n =>
    dist n = d).Pairwise fun e e' => dist e ≤ dist e' := by
  refine pairwise_flatMap.mpr ⟨fun d _ => pairwise_of_forall_mem_list fun e he e' he' => ?_,
    pairwise_lt_range.imp fun hlt e he e' he' => ?_⟩
  all_goals
    simp only [mem_filter, decide_eq_true_eq] at he he'
    omega

theorem take_le_iff {k c : ℕ} (hle : xs.Pairwise fun e e' => dist e ≤ dist e') :
    ((xs.take k).length = k ∧ ∀ x ∈ xs.take k, dist x ≤ c) ↔ k ≤ xs.countP fun x => dist x ≤ c := by
  have hsplit : (xs.take k).countP (fun x => dist x ≤ c) + (xs.drop k).countP
      (fun x => dist x ≤ c) = xs.countP fun x => dist x ≤ c := by
    rw [← countP_append, take_append_drop]
  have hfirst := (xs.take k).countP_le_length (p := fun x => dist x ≤ c)
  have hlength := length_take_le k xs
  constructor
  · rintro ⟨hk, hall⟩
    have hcount := countP_eq_length.mpr fun x hx => decide_eq_true (hall x hx)
    omega
  · intro hk
    have htotal := xs.countP_le_length (p := fun x => dist x ≤ c)
    have htake : (xs.take k).length = k := by
      rw [length_take]
      omega
    refine ⟨htake, fun x hx => ?_⟩
    by_contra hfar
    have hnone : (xs.drop k).countP (fun x => dist x ≤ c) = 0 := by
      rw [countP_eq_zero]
      intro y hy hnear
      rw [← take_append_drop k xs, pairwise_append] at hle
      exact hfar ((hle.2.2 x hx y hy).trans (of_decide_eq_true hnear))
    have hall : (xs.take k).countP (fun x => dist x ≤ c) = (xs.take k).length := by omega
    exact hfar (of_decide_eq_true (countP_eq_length.mp hall x hx))

/-- The first entries of an ordered list without repetition are the nearest ones of all, exactly if
for each other one there are enough in the list that are no farther. -/
theorem nearest_take_iff {all ordered : List E} (hall : all.Nodup) (hordered : ordered.Nodup)
    (hsub : ordered ⊆ all) (hle : ordered.Pairwise fun e e' => dist e ≤ dist e') :
    Nearest dist all (ordered.take bucketSize) ↔
      ∀ e ∈ all, e ∉ ordered → bucketSize ≤ ordered.countP fun x => dist x ≤ dist e := by
  simp only [← take_le_iff hle]
  have hnodup : (ordered.take bucketSize).Nodup := hordered.sublist (take_sublist ..)
  have hsubset : ordered.take bucketSize ⊆ all := fun e he => hsub (mem_of_mem_take he)
  have hperm : (ordered.take bucketSize).Subperm all := subperm_of_subset hnodup hsubset
  constructor
  · intro h e he hnot
    have hnotTake : e ∉ ordered.take bucketSize := fun htake => hnot (mem_of_mem_take htake)
    refine ⟨?_, h.nearest e he hnotTake⟩
    by_contra hlength
    have hshort : (ordered.take bucketSize).length = all.length := by
      have := h.length_eq
      have := length_take_le bucketSize ordered
      omega
    exact hnotTake ((hperm.perm_of_length_le hshort.ge).mem_iff.mpr he)
  · intro h
    refine ⟨hnodup, hsubset, ?_, fun e he hnot x hx => ?_⟩
    · by_cases hmissed : ∃ e ∈ all, e ∉ ordered
      · obtain ⟨e, he, hnot⟩ := hmissed
        have hlength := (h e he hnot).1
        have := hperm.length_le
        omega
      · have hsame : ordered.length = all.length := by
          refine ((perm_ext_iff_of_nodup hordered hall).mpr fun e =>
            ⟨fun he => hsub he, fun he => ?_⟩).length_eq
          by_contra hnot
          exact hmissed ⟨e, he, hnot⟩
        rw [length_take, hsame]
    · by_cases hin : e ∈ ordered
      · -- An entry that was found and did not fit comes after those that did.
        rw [← take_append_drop bucketSize ordered, mem_append] at hin
        rw [← take_append_drop bucketSize ordered, pairwise_append] at hle
        exact hle.2.2 x hx e (hin.resolve_left hnot)
      · exact (h e he hin).2 x hx

end

theorem distanceOf_lt (a b : H256) : distanceOf a b < 256 := by
  by_cases h : (a ^^^ b).toNat = 0
  · rw [distanceOf, h]
    decide
  · exact (Nat.log2_lt h).mpr (a ^^^ b).isLt

/-- The entries in the buckets that are looked at. -/
def reached {I : Type} [DecidableEq I] (s : NodeTable I) (head : ℕ) : List (I × ℕ) :=
  ((List.range bins).filter fun b => ¬ Missed head b).flatMap s.live

/-- With no entry in two places, the entries returned are the nearest ones exactly if a bucket that
is left out has no allowed live entry, but for some to which sixteen allowed ones in the other
buckets are no farther from the target. -/
theorem nearestNodeEntries_iff {I : Type} [DecidableEq I] (s : NodeTable I) (hash : I → H256)
    (allowed : I → Bool) (target : I) (hnodup : ((List.range bins).flatMap s.live).Nodup) :
    Nearest (fun n => distanceOf (hash target) (hash n.1)) (s.candidates allowed)
        (s.nearestNodeEntries hash allowed target) ↔
      ∀ b < bins, Missed (distanceOf (hash s.self) (hash target)) b →
        ∀ n ∈ s.live b, allowed n.1 = true →
          bucketSize ≤ (s.reached (distanceOf (hash s.self) (hash target))).countP fun x =>
            distanceOf (hash target) (hash x.1) ≤ distanceOf (hash target) (hash n.1) ∧ allowed x.1 := by
  have hhead : distanceOf (hash s.self) (hash target) ≤ bins := Nat.le_of_lt_succ (distanceOf_lt _ _)
  unfold nearestNodeEntries
  dsimp only
  generalize distanceOf (hash s.self) (hash target) = head at hhead ⊢
  obtain ⟨hvisits, hmem⟩ := visits_spec hhead
  have hbound : ∀ n : I × ℕ, distanceOf (hash target) (hash n.1) < 256 := fun n => distanceOf_lt _ _
  have hreached : (s.reached head).Nodup := hnodup.sublist (filter_sublist.flatMap s.live)
  have hperm : ((visits head).flatMap s.live).Perm (s.reached head) := by
    apply List.Perm.flatMap_right
    refine (perm_ext_iff_of_nodup hvisits (nodup_range.filter _)).mpr fun b => ?_
    rw [hmem, mem_filter, mem_range, decide_eq_true_eq]
  have hfound := hperm.nodup_iff.mpr hreached
  have hordered := (((perm_ext_iff_of_nodup (nodup_ordered hfound) hfound).mpr
    fun n => mem_ordered hbound).trans hperm).filter fun n => allowed n.1
  have hcandidates : ∀ n, n ∈ s.candidates allowed ↔
      (∃ b < bins, n ∈ s.live b) ∧ allowed n.1 = true := by
    intro n
    rw [candidates, mem_filter, mem_flatMap]
    simp only [mem_range]
  have hin : ∀ n, n ∈ s.reached head ↔ ∃ b < bins, ¬ Missed head b ∧ n ∈ s.live b := by
    intro n
    rw [reached, mem_flatMap]
    simp only [mem_filter, mem_range, decide_eq_true_eq, and_assoc]
  have hsub : (s.reached head).filter (fun n => allowed n.1) ⊆ s.candidates allowed :=
    ((filter_sublist.flatMap s.live).filter _).subset
  have hall : (s.candidates allowed).Nodup := hnodup.filter _
  refine (nearest_take_iff hall (hordered.nodup_iff.mpr (hreached.filter _))
    (fun n hn => hsub (hordered.mem_iff.mp hn)) (pairwise_ordered.filter _)).trans ?_
  simp only [hordered.mem_iff, hordered.countP_eq, countP_filter, mem_filter, hcandidates,
    hin, Bool.decide_and, Bool.decide_eq_true]
  obtain ⟨-, hapart⟩ := nodup_flatMap.mp hnodup
  have hsymm : Std.Symm fun b b' => (s.live b).Disjoint (s.live b') := ⟨fun _ _ h => h.symm⟩
  constructor
  · intro h b hb hmissed n hn hallowed
    refine h n ⟨⟨b, hb, hn⟩, hallowed⟩ ?_
    rintro ⟨⟨b', hb', hvisited, hn'⟩, -⟩
    have hne : b ≠ b' := fun heq => hvisited (heq ▸ hmissed)
    exact hapart.forall (mem_range.mpr hb) (mem_range.mpr hb') hne hn hn'
  · rintro h n ⟨⟨b, hb, hn⟩, hallowed⟩ hnot
    refine h b hb ?_ n hn hallowed
    by_contra hvisited
    exact hnot ⟨⟨b, hb, hvisited, hn⟩, hallowed⟩

/-- A table with two nodes of hashed ids 3 and 5, the nearer one in the first bucket, and our own
node with 0. -/
def twoNodes : NodeTable H256 :=
  ⟨0, fun n => distanceOf 0 n, true, fun n => if n = 3 then some ⟨0, false⟩ else if n =
    5 then some ⟨1, false⟩ else none, fun b => if b = 0 then [(3, 0)] else if b =
    1 then [(5, 1)] else [], [], 0, 2, []⟩

/-- The one node nearest to a target at the distance 1, with which it shares its bucket, is not
found. -/
theorem nearestNodeEntries_first :
    twoNodes.nearestNodeEntries id (fun _ => true) 2 = [(5, 1)] ∧
    (3, 0) ∈ twoNodes.candidates (fun _ => true) ∧
      distanceOf 2 3 < distanceOf 2 5 := by
  decide +kernel

/-- From our own place all are found. -/
theorem nearestNodeEntries_own :
    Nearest (fun n => distanceOf 0 n.1) (twoNodes.candidates fun _ => true)
    (twoNodes.nearestNodeEntries id (fun _ => true) 0) := by
  refine (nearestNodeEntries_iff twoNodes id (fun _ => true) 0 (by decide +kernel)).mpr
    fun b _ hmissed => ?_
  exact absurd hmissed.1 (by simp [distanceOf, twoNodes])

end Vapory.P2p.NodeTable
