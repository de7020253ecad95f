import Vapory.Devcore.RLPStream

/-! Lists that are written in streams of their own and then appended, against lists whose items
follow `appendList(count)`. -/
namespace Vapory
open RLPStream

mutual
/-- Write a tree: an inner list gets its own stream, whose bytes are appended with `appendList`. -/
def RLPStream.appendNested (s : RLPStream) : RLPTree → Except RLPError RLPStream
  | .leaf b => s.append b false
  | .list ts => do
    let inner ← appendNesteds {} ts
    let b ← inner.out
    s.appendListRaw b
def RLPStream.appendNesteds (s : RLPStream) : List RLPTree → Except RLPError RLPStream
  | [] => .ok s
  | t :: ts => do
    let s ← s.appendNested t
    appendNesteds s ts
end

/-- The bytes a fresh stream holds after writing `t` with a stream for each list. -/
def RLPTree.writeNested (t : RLPTree) : Except RLPError Bytes := do
  let s ← appendNested {} t
  s.out

namespace RLPStream
open RLPTree

mutual
theorem appendNested_eq (s : RLPStream) (t : RLPTree) (h : Fits t) :
    s.appendNested t = noteAppendedLoop s.listStack (s.bytes ++ encode t) 1 := by
  match t with
  | .leaf b => rw [appendNested, append_eq_of_bytesRequired s b (fits_leaf.mp h), encode_leaf]
  | .list ts =>
    obtain ⟨hts, hi⟩ := fits_list.mp h
    rw [appendNested, appendNesteds_eq [] ts hts, Except.ok_bind, encode_list]
    exact appendListRaw_eq s (encodeItems ts) hi
termination_by sizeOf t

theorem appendNesteds_eq (o : Bytes) (ts : List RLPTree) (h : FitsAll ts) :
    appendNesteds ⟨o, []⟩ ts = .ok ⟨o ++ encodeItems ts, []⟩ := by
  match ts with
  | [] => rw [appendNesteds, encodeItems_nil, List.append_nil]
  | t :: ts =>
    obtain ⟨ht, hts⟩ := fitsAll_cons.mp h
    rw [appendNesteds, appendNested_eq _ t ht]
    change appendNesteds ⟨o ++ encode t, []⟩ ts = _
    rw [appendNesteds_eq _ ts hts, encodeItems_cons, List.append_assoc]
termination_by sizeOf ts
end

section Throws
variable {ε α : Type}

def Throws (x : Except ε α) : Prop := ∃ e, x = .error e

theorem throws_bind {β : Type} {x : Except ε α} {f : α → Except ε β} :
    Throws (x >>= f) ↔ Throws x ∨ ∃ a, x = .ok a ∧ Throws (f a) := by
  cases x with
  | error e => exact iff_of_true ⟨e, rfl⟩ (.inl ⟨e, rfl⟩)
  | ok a =>
    refine ⟨fun h => .inr ⟨a, rfl, h⟩, ?_⟩
    rintro (⟨e, he⟩ | ⟨b, hb, h⟩)
    · cases he
    · obtain rfl := Except.ok.inj hb
      exact h

theorem Throws.toOption_eq {x : Except ε α} (h : Throws x) : x.toOption = none := by
  obtain ⟨e, rfl⟩ := h
  rfl

end Throws

theorem throws_append (s : RLPStream) {b : Bytes} (h : 72 < bytesRequired b.length) :
    Throws (s.append b false) := by
  have hz : rlpDataIndLenZero = 0xb7 := rfl
  have hc : rlpDataImmLenCount = 56 := rfl
  have h56 : ¬ b.length < 56 := by
    intro hlt
    have := (bytesRequired_le_iff b.length 1).mpr (by omega)
    omega
  unfold append
  simp only [Bool.false_eq_true, if_false, hc]
  rw [if_neg fun hb => h56 (by omega), if_neg h56, pushCount, if_pos (by omega)]
  exact ⟨_, rfl⟩

theorem throws_appendListRaw (s : RLPStream) {b : Bytes} (h : ¬ b.length < 256 ^ 8) :
    Throws (s.appendListRaw b) := by
  have hz : rlpListIndLenZero = 0xf7 := rfl
  have hc : rlpListImmLenCount = 56 := rfl
  have hb : ¬ bytesRequired b.length ≤ 8 := fun hle => h ((bytesRequired_le_iff _ _).mp hle)
  unfold appendListRaw
  rw [hc, if_neg (by omega), pushCount, if_pos (by omega)]
  exact ⟨_, rfl⟩

theorem throws_close {st : List (ℕ × ℕ)} {o items : Bytes} (h : ¬ items.length < 256 ^ 8) :
    Throws (noteAppendedLoop ((1, o.length) :: st) (o ++ items) 1) := by
  have hz : rlpListIndLenZero = 0xf7 := rfl
  have hc : rlpListImmLenCount = 56 := rfl
  have hb : ¬ bytesRequired items.length ≤ 8 := fun hle => h ((bytesRequired_le_iff _ _).mp hle)
  have hs : (o ++ items).length - o.length = items.length := by simp
  have hclose : Throws (closeList (o ++ items) o.length) := by
    unfold closeList
    simp only [hs, hc, hz]
    rw [if_neg (by omega), if_neg (by omega)]
    exact ⟨_, rfl⟩
  rw [noteAppendedLoop]
  simp only [lt_irrefl, if_false, Nat.sub_self, ne_eq, not_true]
  exact throws_bind.mpr (.inl hclose)

mutual
theorem throws_appendTree (s : RLPStream) (t : RLPTree) (h : ¬ Fits t) : Throws (s.appendTree t) := by
  match t with
  | .leaf b =>
    rw [appendTree]
    exact throws_append s (not_le.mp fun hle => h (fits_leaf.mpr hle))
  | .list [] => exact absurd (fits_list.mpr ⟨fitsAll_nil, by simp⟩) h
  | .list (t :: ts) =>
    rw [appendTree]
    simp only [appendList, List.length_cons, ne_eq, Nat.succ_ne_zero, not_false_iff, if_true]
    change Throws (appendTrees ⟨s.bytes, ((t :: ts).length, s.bytes.length) :: s.listStack⟩ (t :: ts))
    by_cases hts : FitsAll (t :: ts)
    · rw [appendTrees_eq _ _ _ _ _ hts]
      exact throws_close fun hi => h (fits_list.mpr ⟨hts, hi⟩)
    · exact throws_appendTrees _ (t :: ts) hts
termination_by sizeOf t

theorem throws_appendTrees (s : RLPStream) (ts : List RLPTree) (h : ¬ FitsAll ts) :
    Throws (s.appendTrees ts) := by
  match ts with
  | [] => exact absurd fitsAll_nil h
  | t :: ts =>
    rw [appendTrees, throws_bind]
    by_cases ht : Fits t
    · cases hs : s.appendTree t with
      | error e => exact .inl ⟨e, rfl⟩
      | ok s' => exact .inr ⟨s', rfl, throws_appendTrees s' ts fun hts => h (fitsAll_cons.mpr ⟨ht, hts⟩)⟩
    · exact .inl (throws_appendTree s t ht)
termination_by sizeOf ts
end

mutual
theorem throws_appendNested (s : RLPStream) (t : RLPTree) (h : ¬ Fits t) :
    Throws (s.appendNested t) := by
  match t with
  | .leaf b =>
    rw [appendNested]
    exact throws_append s (not_le.mp fun hle => h (fits_leaf.mpr hle))
  | .list ts =>
    rw [appendNested, throws_bind]
    by_cases hts : FitsAll ts
    · rw [appendNesteds_eq [] ts hts]
      exact .inr ⟨_, rfl, throws_appendListRaw s fun hi => h (fits_list.mpr ⟨hts, hi⟩)⟩
    · exact .inl (throws_appendNesteds {} ts hts)
termination_by sizeOf t

theorem throws_appendNesteds (s : RLPStream) (ts : List RLPTree) (h : ¬ FitsAll ts) :
    Throws (s.appendNesteds ts) := by
  match ts with
  | [] => exact absurd fitsAll_nil h
  | t :: ts =>
    rw [appendNesteds, throws_bind]
    by_cases ht : Fits t
    · cases hs : s.appendNested t with
      | error e => exact .inl ⟨e, rfl⟩
      | ok s' => exact .inr ⟨s', rfl, throws_appendNesteds s' ts fun hts => h (fitsAll_cons.mpr ⟨ht, hts⟩)⟩
    · exact .inl (throws_appendNested s t ht)
termination_by sizeOf ts
end

/-- In every stream, whatever lists are open, a tree is written the same either way, or not at
all. -/
theorem appendTree_toOption (s : RLPStream) (t : RLPTree) :
    (s.appendTree t).toOption = (s.appendNested t).toOption := by
  by_cases h : Fits t
  · rw [appendTree_eq s t h, appendNested_eq s t h]
  · rw [(throws_appendTree s t h).toOption_eq, (throws_appendNested s t h).toOption_eq]

end RLPStream

theorem RLPTree.writeNested_eq (t : RLPTree) (h : Fits t) : t.writeNested = .ok t.encode := by
  rw [RLPTree.writeNested, appendNested_eq _ t h]
  rfl

/-- The bytes are the same whether lists are closed in the stream or written in streams of their
own. A tree that has no encoding is written in neither way. -/
theorem RLPTree.write_eq_writeNested (t : RLPTree) :
    (t.encode.length < 256 ^ 8 → t.write = .ok t.encode ∧ t.writeNested = .ok t.encode ∧
      ∀ s : RLPStream, s.appendTree t = s.appendNested t) ∧
    ∀ s : RLPStream, (s.appendTree t).toOption = (s.appendNested t).toOption := by
  refine ⟨fun hlength => ?_, fun s => appendTree_toOption s t⟩
  have hfits := fits_of_length t hlength
  refine ⟨write_eq t hlength, writeNested_eq t hfits, fun s => ?_⟩
  rw [appendTree_eq s t hfits, appendNested_eq s t hfits]

/-- Empty lists in front, inside and at the end, and payloads of 55, 57, 256 and 321 bytes. -/
def exampleTree : RLPTree :=
  .list [.list [], .list [.list [.leaf (List.replicate 54 0)], .list []],
    .list [.leaf (List.replicate 253 1), .list []], .leaf [], .list []]

theorem RLPTree.write_eq_writeNested_exampleTree : exampleTree.encode.length = 324 ∧
    exampleTree.write = .ok exampleTree.encode ∧ exampleTree.writeNested = .ok exampleTree.encode := by
  have hlength : exampleTree.encode.length = 324 := by decide +kernel
  obtain ⟨hwrite, hnested, -⟩ := exampleTree.write_eq_writeNested.1 (hlength ▸ by norm_num)
  exact ⟨hlength, hwrite, hnested⟩

end Vapory
