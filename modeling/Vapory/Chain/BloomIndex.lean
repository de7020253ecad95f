import Vapory.Base.LevelIndex
import Vapory.Chain.Lineage

/-! The index of the blooms of the canonical chain: each canonical block's is in the entries of its
number on both levels, whatever imports come, and a search for a bloom misses none. -/
namespace Vapory
open List Option BitVec

section
variable {x y a b : LogBloom}

theorem bloomContains_iff :
    bloomContains a b = true ↔ ∀ i, b.getLsbD i = true → a.getLsbD i = true := by
  unfold bloomContains
  rw [decide_eq_true_iff]
  constructor
  · intro h i hi
    rw [← h, getLsbD_and, Bool.and_eq_true] at hi
    exact hi.1
  · intro h
    apply eq_of_getLsbD_eq
    intro i _
    rw [getLsbD_and]
    cases hb : b.getLsbD i with
    | false => exact Bool.and_false _
    | true => rw [h i hb, Bool.and_true]

theorem bloomContains_refl (a : LogBloom) : bloomContains a a = true :=
  bloomContains_iff.mpr fun _ h => h

theorem bloomContains_trans (h : bloomContains a b = true) (h' : bloomContains b x = true) :
    bloomContains a x = true := by
  rw [bloomContains_iff] at h h' ⊢
  exact fun i hi => h i (h' i hi)

theorem bloomContains_or_left (h : bloomContains a x = true) (y : LogBloom) :
    bloomContains (a ||| y) x = true := by
  rw [bloomContains_iff] at h ⊢
  intro i hi
  rw [BitVec.getLsbD_or, h i hi, Bool.true_or]

theorem bloomContains_or_right (y : LogBloom) (h : bloomContains a x = true) :
    bloomContains (y ||| a) x = true := by
  rw [BitVec.or_comm]
  exact bloomContains_or_left h y

theorem bloomContains_foldl {ι : Type} {f : ι → LogBloom} {l : List ι} {i : ι} (hi : i ∈ l)
    (h : bloomContains (f i) x = true) (acc : LogBloom) :
    bloomContains (l.foldl (fun acc i => acc ||| f i) acc) x = true := by
  have hkeep (l : List ι) : ∀ acc, bloomContains acc x = true →
    bloomContains (l.foldl (fun acc i => acc ||| f i) acc) x = true := by
    induction l with
    | nil => exact fun _ h => h
    | cons j l ih => exact fun acc h => ih _ (bloomContains_or_left h _)
  induction l generalizing acc with
  | nil => cases hi
  | cons j l ih =>
    rw [foldl_cons]
    rcases mem_cons.mp hi with rfl | hi
    · exact hkeep l _ (bloomContains_or_right acc h)
    · exact ih hi _

end

namespace BlockChain
variable {H : Hasher} {c c' c₁ : BlockChain} {b : VerifiedBlock} {n : ℕ} {x : LogBloom}

/-- The factor is one modulo itself, so a chunk of the lower level never comes to the name of one
above it. -/
theorem mul_ff_mod_ne {i j : ℕ} (hi : i < 2 ^ 28) (hj : j < 2 ^ 24) :
    i * 0xff % 2 ^ 32 ≠ j * 0xff + 1 := by
  intro h
  obtain ⟨q, hq⟩ : ∃ q, q = i * 0xff / 2 ^ 32 := ⟨_, rfl⟩
  have hsplit := Nat.div_add_mod (i * 0xff) (2 ^ 32)
  rw [← hq, h] at hsplit
  have hle : q < 16 := by omega
  omega

theorem chunkId_inj {level level' index index' : ℕ} (hlevel : level < 2) (hlevel' : level' < 2)
    (hindex : index * 16 ^ (level + 1) < 2 ^ 32) (hindex' : index' * 16 ^ (level' + 1) < 2 ^ 32)
    (h : chunkId level index = chunkId level' index') : level = level' ∧ index = index' := by
  have hname : (index * 0xff + level) % 2 ^ 32 = (index' * 0xff + level') % 2 ^ 32 := by
    have hmod (k : ℕ) : k % 2 ^ 32 % 2 ^ 256 = k % 2 ^ 32 := by omega
    have htoNat := congrArg BitVec.toNat h
    unfold chunkId at htoNat
    rwa [toNat_ofNat, toNat_ofNat, hmod, hmod] at htoNat
  obtain rfl | rfl : level = 0 ∨ level = 1 := by omega
  · obtain rfl | rfl : level' = 0 ∨ level' = 1 := by omega
    · omega
    · have hne := mul_ff_mod_ne (i := index) (j := index') (by omega) (by omega)
      omega
  · obtain rfl | rfl : level' = 0 ∨ level' = 1 := by omega
    · have hne := mul_ff_mod_ne (i := index') (j := index) (by omega) (by omega)
      omega
    · omega

/-- The entries of a number contain a bloom, on both levels. -/
def Covered (c : BlockChain) (n : ℕ) (x : LogBloom) : Prop :=
  ∀ level < 2, bloomContains (c.bloomAt level (n / 16 ^ level)) x = true

def Written (c : BlockChain) (n : ℕ) (x : LogBloom) : Prop := ∀ level < 2, ∃ blooms,
  c.blocksBloomsDB (level, n / 16 ^ level / 16) = some blooms ∧
  bloomContains (blooms (n / 16 ^ level % 16)) x = true

theorem bloomAt_setBlooms (level begin_ end_ : ℕ) (acc : ℕ → LogBloom) (c : BlockChain)
    (l item : ℕ) : (c.setBlooms level begin_ end_ acc).bloomAt l item =
      if l = level ∧ Passes begin_ end_ item then acc item else c.bloomAt l item := by
  have hitem : item / 16 * 16 + item % 16 = item := by omega
  unfold bloomAt bloomsOf setBlooms
  dsimp only
  by_cases hl : l = level
  · subst hl
    by_cases hpass : Passes begin_ end_ item
    · have hchunk : ∃ offset < 16, Passes begin_ end_ (item / 16 * 16 + offset) :=
        ⟨item % 16, by omega, by rwa [hitem]⟩
      rw [if_pos ⟨rfl, hchunk⟩, if_pos ⟨rfl, hpass⟩]
      simp only [some_or, getD_some, hitem, if_pos hpass]
    · rw [if_neg (c := l = l ∧ Passes begin_ end_ item) (by simp [hpass])]
      split_ifs with hchunk
      · simp only [some_or, getD_some, hitem, if_neg hpass]
        rfl
      · rfl
  · rw [if_neg (by simp [hl]), if_neg (by simp [hl])]

theorem bloomAt_congr (hcache : c'.blocksBlooms = c.blocksBlooms)
    (hdb : c'.blocksBloomsDB = c.blocksBloomsDB) : c'.bloomAt = c.bloomAt := by
  funext level item
  unfold bloomAt bloomsOf
  rw [hcache, hdb]

theorem Covered.clearBlockBlooms (h : Covered c n x) {begin_ end_ : ℕ}
    (hkeep : ¬ Passes begin_ end_ n) : Covered (c.clearBlockBlooms begin_ end_) n x := by
  have hzero : bloomContains ((c.setBlooms 0 begin_ end_ fun _ => 0).bloomAt 0 n) x = true := by
    rw [bloomAt_setBlooms, if_neg fun hp => hkeep hp.2]
    have hn := h 0 (by omega)
    rwa [pow_zero, Nat.div_one] at hn
  have hone : bloomContains ((c.setBlooms 0 begin_ end_ fun _ => 0).bloomAt 1 (n / 16)) x = true := by
    rw [bloomAt_setBlooms, if_neg fun hp => absurd hp.1 Nat.one_ne_zero]
    exact h 1 (by omega)
  intro level hlevel
  unfold BlockChain.clearBlockBlooms
  dsimp only
  rw [bloomAt_setBlooms]
  obtain rfl | rfl : level = 0 ∨ level = 1 := by omega
  · rw [if_neg fun hp => absurd hp.1 Nat.zero_ne_one, pow_zero, Nat.div_one]
    exact hzero
  · rw [pow_one]
    split_ifs
    · exact bloomContains_foldl (mem_range.mpr (Nat.mod_lt n (by omega))) hzero 0
    · exact hone

theorem Covered.reverted {j : ℕ} (h : Covered c n x) (hlast : c.lastBlockNumber < 2 ^ 32 - 1)
    (hn : n ≤ c.lastBlockNumber - j) : Covered (c.reverted j) n x := by
  unfold BlockChain.reverted
  split_ifs with hj
  · exact h
  · have hkeep : ¬ Passes (c.lastBlockNumber - j + 1) ((c.lastBlockNumber + 1) % 2 ^ 32) n := by
      unfold Passes
      omega
    have hcleared := h.clearBlockBlooms hkeep
    unfold Covered at hcleared ⊢
    rwa [bloomAt_congr (c := c.clearBlockBlooms _ _) (by rfl) (by rfl)]

theorem bloomAt_addBloom (tbi : BlockHeader) (c : BlockChain) {level : ℕ} (hlevel : level < 2)
    (item : ℕ) : (c.addBloom H tbi).bloomAt level item =
      if item = bloomItem tbi level then c.bloomAt level item ||| blockBloom H tbi
      else c.bloomAt level item := by
  unfold bloomAt bloomsOf addBloom
  dsimp only
  by_cases hitem : item = bloomItem tbi level
  · subst hitem
    rw [if_pos rfl, if_pos ⟨hlevel, rfl⟩]
    simp only [some_or, getD_some, Function.update_self]
    rfl
  · rw [if_neg hitem]
    split_ifs with hchunk
    · have hoffset : item % 16 ≠ bloomItem tbi level % 16 := by omega
      simp only [some_or, getD_some, Function.update_of_ne hoffset]
      rfl
    · rfl

theorem Covered.addBloom (h : Covered c n x) (tbi : BlockHeader) : Covered (c.addBloom H tbi) n x := by
  intro level hlevel
  rw [bloomAt_addBloom tbi c hlevel]
  split_ifs
  · exact bloomContains_or_left (h level hlevel) _
  · exact h level hlevel

theorem covered_addBloom (tbi : BlockHeader) (c : BlockChain) :
    Covered (c.addBloom H tbi) (tbi.number.toNat % 2 ^ 32) (blockBloom H tbi) := by
  intro level hlevel
  have hitem : tbi.number.toNat % 2 ^ 32 / 16 ^ level = bloomItem tbi level := rfl
  rw [hitem, bloomAt_addBloom tbi c hlevel, if_pos rfl]
  exact bloomContains_or_right _ (bloomContains_refl _)

theorem Covered.addBlooms (h : Covered c n x) (blocks : List VerifiedBlock) :
    Covered (addBlooms H blocks c) n x := by
  unfold BlockChain.addBlooms
  induction blocks generalizing c with
  | nil => exact h
  | cons tbi blocks ih => exact ih (h.addBloom tbi.info)

theorem covered_addBlooms {blocks : List VerifiedBlock} (hb : b ∈ blocks) (c : BlockChain) :
    Covered (addBlooms H blocks c) (b.info.number.toNat % 2 ^ 32) (blockBloom H b.info) := by
  unfold addBlooms
  induction blocks generalizing c with
  | nil => cases hb
  | cons tbi blocks ih =>
    rw [foldl_cons]
    rcases mem_cons.mp hb with rfl | hb
    · exact (covered_addBloom b.info c).addBlooms blocks
    · exact ih hb _

theorem isSome_addBlooms {blocks : List VerifiedBlock} (hb : b ∈ blocks) (c : BlockChain)
    {level : ℕ} (hlevel : level < 2) :
    ((addBlooms H blocks c).blocksBlooms (level, bloomItem b.info level / 16)).isSome := by
  have hone (c : BlockChain) (tbi : BlockHeader) {chunk : ℕ × ℕ}
      (h : (c.blocksBlooms chunk).isSome) : ((c.addBloom H tbi).blocksBlooms chunk).isSome := by
    unfold addBloom
    dsimp only
    split_ifs
    · rfl
    · exact h
  have hkeep (blocks : List VerifiedBlock) (c : BlockChain) {chunk : ℕ × ℕ}
      (h : (c.blocksBlooms chunk).isSome) : ((addBlooms H blocks c).blocksBlooms chunk).isSome := by
    unfold addBlooms
    induction blocks generalizing c with
    | nil => exact h
    | cons tbi blocks ih => exact ih _ (hone c tbi.info h)
  unfold addBlooms
  induction blocks generalizing c with
  | nil => cases hb
  | cons tbi blocks ih =>
    rw [foldl_cons]
    rcases mem_cons.mp hb with rfl | hb
    · apply hkeep blocks
      unfold addBloom
      simp [hlevel]
    · exact ih hb _

section
variable {td : U256} {receipts : List TransactionReceipt} {d : BlockDetails} {best : Bool}
  {blocks : List VerifiedBlock}
  (hcached : ∀ tbi ∈ blocks, ∀ level < 2,
  (c.blocksBlooms (level, bloomItem tbi.info level / 16)).isSome)
include hcached

theorem bloomAt_write (level item : ℕ) :
    (write H b td receipts d best blocks c).bloomAt level item = c.bloomAt level item := by
  unfold bloomAt bloomsOf write
  dsimp only
  split_ifs with htouched
  · obtain ⟨hlevel, hany⟩ := htouched
    obtain ⟨tbi, htbi, heq⟩ := any_eq_true.mp hany
    have hchunk : item / 16 = bloomItem tbi.info level / 16 := by simpa using heq
    obtain ⟨blooms, hblooms⟩ := isSome_iff_exists.mp (hcached tbi htbi level hlevel)
    rw [hchunk, hblooms]
    rfl
  · rfl

theorem Written.write (hw : Written c n x) (h : Covered c n x) :
    Written (write H b td receipts d best blocks c) n x := by
  intro level hlevel
  have hentry := h level hlevel
  unfold BlockChain.write
  dsimp only
  split_ifs with htouched
  · obtain ⟨-, hany⟩ := htouched
    obtain ⟨tbi, htbi, heq⟩ := any_eq_true.mp hany
    have hchunk : n / 16 ^ level / 16 = bloomItem tbi.info level / 16 := by simpa using heq
    obtain ⟨blooms, hblooms⟩ := isSome_iff_exists.mp (hcached tbi htbi level hlevel)
    unfold bloomAt bloomsOf at hentry
    rw [hchunk, hblooms] at hentry
    rw [hchunk]
    exact ⟨blooms, hblooms, hentry⟩
  · exact hw level hlevel

theorem written_write {tbi : VerifiedBlock} (htbi : tbi ∈ blocks)
    (hn : n = tbi.info.number.toNat % 2 ^ 32) (h : Covered c n x) :
    Written (write H b td receipts d best blocks c) n x := by
  intro level hlevel
  have hentry := h level hlevel
  have hitem : n / 16 ^ level = bloomItem tbi.info level := by rw [hn]; rfl
  obtain ⟨blooms, hblooms⟩ := isSome_iff_exists.mp (hcached tbi htbi level hlevel)
  unfold BlockChain.write
  dsimp only
  rw [if_pos ⟨hlevel, any_eq_true.mpr ⟨tbi, htbi, by simp [hitem]⟩⟩]
  unfold bloomAt bloomsOf at hentry
  rw [hitem, hblooms] at hentry
  rw [hitem]
  exact ⟨blooms, hblooms, hentry⟩

end

/-- The index has the bloom of every canonical block but the first one, of which nothing is
written. -/
structure Bloomed (H : Hasher) (c : BlockChain) : Prop where
  headed : Headed H c
  genesis : c.genesisBlock.info.logBloom = 0
  covered : ∀ n, 0 < n → n ≤ c.lastBlockNumber → Covered c n (blockBloom H (c.canonicalBlock n).info)
  written : ∀ n, 0 < n → n ≤ c.lastBlockNumber → Written c n (blockBloom H (c.canonicalBlock n).info)

theorem Covered.congr (hblooms : c'.bloomAt = c.bloomAt) : Covered c' n x ↔ Covered c n x := by
  unfold Covered
  rw [hblooms]

theorem Bloomed.near (h : Bloomed H c) (hn : Near c c') (hblooms : c'.bloomAt = c.bloomAt) :
    Bloomed H c' := by
  have hdb : c'.blocksBloomsDB = c.blocksBloomsDB :=
    hn.get BlockChain.blocksBloomsDB fun _ _ _ _ => rfl
  constructor
  · exact h.headed.near hn
  · rw [hn.genesisBlock]
    exact h.genesis
  · intro n hpos hle
    rw [hn.lastBlockNumber] at hle
    rw [hn.canonicalBlock, Covered.congr hblooms]
    exact h.covered n hpos hle
  · intro n hpos hle
    rw [hn.lastBlockNumber] at hle
    rw [hn.canonicalBlock]
    unfold Written
    rw [hdb]
    exact h.written n hpos hle

theorem Kin.bloomAt (h : Kin c c') : c'.bloomAt = c.bloomAt :=
  bloomAt_congr h.blocksBlooms (h.get BlockChain.blocksBloomsDB fun _ _ _ _ => rfl)

theorem Near.written (h : Near c c') (hw : Written c n x) : Written c' n x := by
  have hdb : c'.blocksBloomsDB = c.blocksBloomsDB := h.get BlockChain.blocksBloomsDB fun _ _ _ _ => rfl
  unfold Written
  rwa [hdb]

/-- The blooms of the blocks on the way to a new head are added, and the old ones above the common
ancestor are cleared. -/
theorem Bloomed.insert (h : Bloomed H c) (hb : Fits H c b) (hsame : Same H c b) {td : U256}
    {receipts : List TransactionReceipt} {meanwhile : List ℕ} {route : ImportRoute}
    (hinsert : Insertion H b td receipts meanwhile c route c') : Bloomed H c' := by
  have hheaded := hinsert.headed hb h.headed
  have hgenesis : c'.genesisBlock.info.logBloom = 0 := by
    obtain ⟨c₀, d, blocks, hn, -, rfl⟩ := hinsert.written
    rw [← h.genesis, ← hn.genesisBlock]
    rfl
  cases hinsert with
  | side hkin hparent hbest =>
    rename_i c₁ d
    have hside : Insertion H b td receipts meanwhile c _ _ := .side hkin hparent hbest
    obtain ⟨hcanonical, hnumber⟩ := hside.canonicalBlock_side hb h.headed hsame hbest
    have hblooms : (c₁.asked meanwhile).bloomAt = c.bloomAt := by
      rw [asked_eq]
      exact hkin.bloomAt
    have h₁ := h.near (hkin.toNear.trans (.asked hkin.backed meanwhile)) hblooms
    have hwrite : BlockChain.bloomAt (write H b td receipts d false [] (c₁.asked meanwhile)) =
      (c₁.asked meanwhile).bloomAt := by
      funext level item
      exact bloomAt_write (by simp) level item
    constructor
    · exact hheaded
    · exact hgenesis
    · intro n hpos hle
      rw [hnumber] at hle
      rw [hcanonical, Covered.congr hwrite, Covered.congr hblooms]
      exact h.covered n hpos hle
    · intro n hpos hle
      rw [hnumber] at hle
      rw [hcanonical]
      have hn : Near c (c₁.asked meanwhile) := hkin.toNear.trans (.asked hkin.backed meanwhile)
      exact (hn.written (h.written n hpos hle)).write (by simp)
        ((Covered.congr hblooms).mpr (h.covered n hpos hle))
  | head hkin hparent hbest hroute =>
    rename_i c₁ d j k
    have hhead : Insertion H b td receipts meanwhile c _ _ := .head hkin hparent hbest hroute
    obtain ⟨hold, hnew, hnumber⟩ := hhead.canonicalBlock_head hb h.headed hsame hbest hroute
    have hlt := hb.number_lt
    generalize hc₂ : (addBlooms H (c.headBlocks b k) (c₁.reverted j)).asked meanwhile = c₂ at *
    have hblooms : c₂.bloomAt = (addBlooms H (c.headBlocks b k) (c₁.reverted j)).bloomAt := by
      rw [← hc₂, asked_eq]
      rfl
    have hn : Near c c₂ := by
      have hreverted := hkin.toNear.trans (.reverted hkin.backed j)
      have hadded := hreverted.trans (.addBlooms hreverted.backed (c.headBlocks b k) (H := H))
      rw [← hc₂]
      exact hadded.trans (.asked hadded.backed meanwhile)
    have hcached : ∀ tbi ∈ c.headBlocks b k, ∀ level < 2,
      (c₂.blocksBlooms (level, bloomItem tbi.info level / 16)).isSome := by
      intro tbi htbi level hlevel
      rw [← hc₂, asked_eq]
      exact isSome_addBlooms htbi _ hlevel
    have hwrite : BlockChain.bloomAt (write H b td receipts d true (c.headBlocks b k) c₂) = c₂.bloomAt := by
      funext level item
      exact bloomAt_write hcached level item
    have holdCovered (n : ℕ) (hpos : 0 < n) (hle : n ≤ c.lastBlockNumber - j) :
        Covered c₂ n (blockBloom H (c.canonicalBlock n).info) := by
      have hbefore : Covered c₁ n (blockBloom H (c.canonicalBlock n).info) :=
        (Covered.congr hkin.bloomAt).mpr (h.covered n hpos (by omega))
      have hlast : c₁.lastBlockNumber < 2 ^ 32 - 1 := by
        rw [hkin.lastBlockNumber]
        exact h.headed.number_lt
      rw [Covered.congr hblooms]
      exact (hbefore.reverted hlast (hkin.lastBlockNumber ▸ hle)).addBlooms _
    have hnewCovered (tbi : VerifiedBlock) (htbi : tbi ∈ c.headBlocks b k)
        (hsmall : tbi.info.number.toNat < 2 ^ 32) :
        Covered c₂ tbi.info.number.toNat (blockBloom H tbi.info) := by
      have hadded := covered_addBlooms (H := H) htbi (c₁.reverted j)
      rw [Nat.mod_eq_of_lt hsmall] at hadded
      exact (Covered.congr hblooms).mpr hadded
    constructor
    · exact hheaded
    · exact hgenesis
    · intro n hpos hle
      rw [hnumber] at hle
      rw [Covered.congr hwrite]
      rcases Nat.lt_or_ge (c.lastBlockNumber - j) n with hlate | hearly
      · obtain ⟨htbi, htbin⟩ := hnew n hlate hle
        have hcovered := hnewCovered _ htbi (by omega)
        rwa [htbin] at hcovered
      · rw [hold n hearly]
        exact holdCovered n hpos hearly
    · intro n hpos hle
      rw [hnumber] at hle
      rcases Nat.lt_or_ge (c.lastBlockNumber - j) n with hlate | hearly
      · obtain ⟨htbi, htbin⟩ := hnew n hlate hle
        have hcovered := hnewCovered _ htbi (by omega)
        rw [htbin] at hcovered
        exact written_write hcached htbi (by omega) hcovered
      · rw [hold n hearly]
        exact (hn.written (h.written n hpos (by omega))).write hcached (holdCovered n hpos hearly)

end BlockChain
end Vapory
