import Vapory.Chain.Canonical
import Vapory.Chain.Lineage

/-! What `treeRoute` returns, in terms of the blocks' lineages: the blocks on either side of the
latest common ancestor, the ancestor, and an index that is meant to be the ancestor's place in the
list. -/
namespace Vapory.BlockChain
open List

variable {H : Hasher} {c : BlockChain} {x y z : H256} {j k : ℕ}

/-- `z` is an ancestor of both blocks, and every block that is one is an ancestor of `z`. A block
counts among its ancestors. -/
structure LatestCommon (c : BlockChain) (x y z : H256) : Prop where
  left : z ∈ c.lineage x
  right : z ∈ c.lineage y
  latest : ∀ w ∈ c.lineage x, w ∈ c.lineage y → w ∈ c.lineage z

theorem self_mem_lineage (c : BlockChain) (x : H256) : x ∈ c.lineage x := by
  apply mem_map.mpr
  exact ⟨c.numberOf x, mem_range.mpr (Nat.lt_succ_self _), ancestor_self x⟩

theorem Treelike.lineage_iterate (h : Treelike H c) (hx : c.Stored x) (hj : j ≤ c.numberOf x) :
    c.lineage x = c.lineage (c.parentOf^[j] x) ++ (c.passed x j).reverse := by
  have hnumber := (h.rooted.iterate hx hj).2
  rw [lineage_eq hj, lineage]
  congr 1
  have hback : c.numberOf x - j = c.numberOf (c.parentOf^[j] x) := by omega
  rw [hback]
  apply map_congr_left
  intro n hn
  have hle : n ≤ c.numberOf x - j := by
    have := mem_range.mp hn
    omega
  exact (h.rooted.ancestor_iterate hx hj hle).symm

namespace Route

theorem latestCommon (h : Treelike H c) (hx : c.Stored x) (hy : c.Stored y)
    (hroute : Route c x y j k) : LatestCommon c x y (c.parentOf^[j] x) := by
  have hleft := h.lineage_iterate hx hroute.from_le
  have hright := h.lineage_iterate hy hroute.to_le
  rw [← hroute.meet] at hright
  have hself := self_mem_lineage c (c.parentOf^[j] x)
  constructor
  · rw [hleft]
    exact mem_append_left _ hself
  · rw [hright]
    exact mem_append_left _ hself
  · intro w hwx hwy
    rw [hleft, mem_append, mem_reverse] at hwx
    rw [hright, mem_append, mem_reverse] at hwy
    rcases hwx with hw | hwx
    · exact hw
    rcases hwy with hw | hwy
    · exact hw
    -- no block above the common ancestor is on both sides
    obtain ⟨i, hi, rfl⟩ := mem_map.mp hwx
    obtain ⟨i', hi', heq⟩ := mem_map.mp hwy
    exact absurd heq (hroute.apart i' (mem_range.mp hi') i (mem_range.mp hi).le)

theorem up_eq_zero_iff (h : Treelike H c) (hx : c.Stored x) (hy : c.Stored y)
    (hroute : Route c x y j k) : k = 0 ↔ y ∈ c.lineage x := by
  constructor
  · intro hk
    have hcommon := (hroute.latestCommon h hx hy).left
    rw [hroute.meet, hk] at hcommon
    exact hcommon
  · intro hmem
    by_contra hk
    have hlatest := (hroute.latestCommon h hx hy).latest y hmem (self_mem_lineage c y)
    rw [hroute.meet] at hlatest
    obtain ⟨n, hn, heq⟩ := mem_map.mp hlatest
    have hle : n ≤ c.numberOf (c.parentOf^[k] y) := Nat.le_of_lt_succ (mem_range.mp hn)
    obtain ⟨hstored, hnumber⟩ := h.rooted.iterate hy hroute.to_le
    have hheight : c.numberOf (c.ancestorOf (c.parentOf^[k] y) n) = n := h.rooted.height_ancestor hstored hle
    rw [heq] at hheight
    omega

end Route

/-- The route is the blocks from `x` down to the latest common ancestor, the ancestor if it is asked
for, and the blocks up to `y`. The index is the ancestor's place, except that with the ancestor in
the list it is one too many if `y` is `x` or an ancestor of `x`. -/
theorem treeRoute_index (H : Hasher) (c : BlockChain) (h : Treelike H c) (x y : H256)
    (hx : c.Stored x) (hy : c.Stored y) (common : Bool) :
    Returns (treeRoute true true common x y) c fun r _ => ∃ ancestor down up,
      LatestCommon c x y ancestor ∧ c.lineage x = c.lineage ancestor ++ down.reverse ∧
      c.lineage y = c.lineage ancestor ++ up ∧
      r.1 = down ++ (if common then [ancestor] else []) ++ up ∧ r.2.1 = ancestor ∧
      (r.2.2 = down.length ↔ common = false ∨ y ∉ c.lineage x) := by
  apply (treeRoute_spec h hx hy common).mono
  intro r c' hspec
  obtain ⟨-, j, k, hroute, hret, hancestor, hindex⟩ := hspec
  have hright := h.lineage_iterate hy hroute.to_le
  rw [← hroute.meet] at hright
  refine ⟨c.parentOf^[j] x, c.passed x j, (c.passed y k).reverse, hroute.latestCommon h hx hy,
    h.lineage_iterate hx hroute.from_le, hright, hret, hancestor, ?_⟩
  rw [hindex, length_passed, ← hroute.up_eq_zero_iff h hx hy]
  cases common with
  | false => simp
  | true => by_cases hk : k = 0 <;> simp [hk]

def exampleTree : BlockChain :=
  exampleAfter (.take (exampleBlock 1 201 100 1))
    (exampleAfter (.take (exampleBlock 2 102 101 1))
    (exampleAfter (.take (exampleBlock 1 101 100 1)) exampleGenesis))

theorem exampleTree_treelike : Treelike tailHasher exampleTree := by
  have hone : IndexRun tailHasher exampleGenesis
    (exampleAfter (.take (exampleBlock 1 101 100 1)) exampleGenesis) :=
    IndexRun.start.after (by decide +kernel) (by decide +kernel)
  have htwo :=
    hone.after (a := .take (exampleBlock 2 102 101 1)) (by decide +kernel) (by decide +kernel)
  have hthree : IndexRun tailHasher exampleGenesis exampleTree :=
    htwo.after (by decide +kernel) (by decide +kernel)
  exact (indexed_run (indexed_opened (by decide) (by decide)) hthree).treelike

theorem treeRoute_index_example :
    Returns (treeRoute true true true 102 201) exampleTree fun r _ => ∃ ancestor down up,
      LatestCommon exampleTree 102 201 ancestor ∧
      exampleTree.lineage 102 = exampleTree.lineage ancestor ++ down.reverse ∧
      exampleTree.lineage 201 = exampleTree.lineage ancestor ++ up ∧
      r.1 = down ++ (if true then [ancestor] else []) ++ up ∧
      r.2.1 = ancestor ∧ (r.2.2 = down.length ↔ true = false ∨ (201 : H256) ∉ exampleTree.lineage 102) := by
  have hfrom : (exampleTree.detailsOf 102).isSome = true := by decide +kernel
  have hto : (exampleTree.detailsOf 201).isSome = true := by decide +kernel
  exact treeRoute_index tailHasher exampleTree exampleTree_treelike 102 201 hfrom hto true

/-- The second call of the documentation: the list ends with the ancestor, and the index is past
its end. -/
theorem treeRoute_index_past :
    (∃ r, (treeRoute true true true 102 101).run exampleTree = .ok r ∧ r.1 = ([102, 101], 101, 2)) ∧
    (∃ r, (treeRoute true true true 102 102).run exampleTree = .ok r ∧ r.1 = ([102], 102, 1)) ∧
    exampleTree.lineage 102 = [100, 101, 102] := by
  refine ⟨?_, ?_, by decide +kernel⟩
  · exact Except.exists_ok_and (by decide +kernel)
  · exact Except.exists_ok_and (by decide +kernel)

end Vapory.BlockChain
