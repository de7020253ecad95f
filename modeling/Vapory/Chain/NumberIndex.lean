import Vapory.Chain.Insertion

/-! The index of the canonical chain by number: the database and the cache in front of it, while
blocks are imported, the chain is rewound and the index is read. -/
namespace Vapory
open Function List

section
variable {K V : Type} [DecidableEq K] {key : K} {value : V} {entries : List (K × V)}
  {db : K → Option V}

theorem foldl_update_of_forall_ne (h : ∀ e ∈ entries, e.1 ≠ key) :
    entries.foldl (fun (db : K → Option V) entry => update db entry.1 (some entry.2)) db key =
    db key := by
  induction entries generalizing db with
  | nil => rfl
  | cons e entries ih =>
    rw [foldl_cons, ih fun e' he' => h e' (by simp [he']), update_of_ne (h e (by simp)).symm]

theorem foldl_update_of_mem (hmem : (key, value) ∈ entries)
    (h : ∀ e ∈ entries, e.1 = key → e.2 = value) :
    entries.foldl (fun (db : K → Option V) entry => update db entry.1 (some entry.2)) db key =
    some value := by
  induction entries generalizing db with
  | nil => cases hmem
  | cons e entries ih =>
    rw [foldl_cons]
    by_cases hrest : ∃ e' ∈ entries, e'.1 = key
    · obtain ⟨e', he', hkey⟩ := hrest
      have hvalue := h e' (by simp [he']) hkey
      exact ih (by rwa [← hkey, ← hvalue]) fun e'' he'' => h e'' (by simp [he''])
    · have hne : ∀ e' ∈ entries, e'.1 ≠ key := fun e' he' hkey => hrest ⟨e', he', hkey⟩
      rw [foldl_update_of_forall_ne hne]
      rcases mem_cons.mp hmem with rfl | hmem
      · exact update_self ..
      · exact absurd rfl (hne _ hmem)

end

namespace BlockChain
variable {H : Hasher} {c c' c₁ c₂ : BlockChain} {b : VerifiedBlock} {k : ℕ}

/-- The index is right: in the database up to the head, in the cache up to `k`, above which it has
nothing. -/
structure Indexed (H : Hasher) (k : ℕ) (c : BlockChain) : Prop where
  treelike : Treelike H c
  head : c.Stored c.lastBlockHash ∧ c.numberOf c.lastBlockHash = c.lastBlockNumber
  le : k ≤ c.lastBlockNumber
  database : ∀ n, 0 < n → n ≤ c.lastBlockNumber →
    c.blockHashesDB n = some (c.ancestorOf c.lastBlockHash n)
  cache : ∀ n hash, c.blockHashes n = some hash → 0 < n ∧ n ≤ k ∧ hash = c.ancestorOf c.lastBlockHash n

namespace Indexed

theorem headed (h : Indexed H k c) : Headed H c := ⟨h.treelike, h.head⟩

theorem recache (h : Indexed H k c) (hn : Near c c') {k' : ℕ} (hk' : k' ≤ c.lastBlockNumber)
    (hcache : ∀ n hash, c'.blockHashes n = some hash → 0 < n ∧ n ≤ k' ∧
      hash = c.ancestorOf c.lastBlockHash n) :
    Indexed H k' c' := by
  obtain ⟨htree, hhead⟩ := h.headed.near hn
  constructor
  · exact htree
  · exact hhead
  · rwa [hn.lastBlockNumber]
  · rw [hn.lastBlockNumber, hn.lastBlockHash, hn.ancestorOf, hn.blockHashesDB]
    exact h.database
  · rwa [hn.lastBlockHash, hn.ancestorOf]

theorem near (h : Indexed H k c) (hn : Near c c') (hcache : c'.blockHashes = c.blockHashes) :
    Indexed H k c' := by
  apply h.recache hn h.le
  rw [hcache]
  exact h.cache

theorem head_kin (h : Indexed H c.lastBlockNumber c) (hk : Kin c c') :
    Indexed H c'.lastBlockNumber c' := by
  rw [hk.lastBlockNumber]
  exact h.near hk.toNear hk.blockHashes

theorem number_lt (h : Indexed H k c) : c.lastBlockNumber < 2 ^ 32 - 1 := h.headed.number_lt

theorem clear (h : Indexed H k c) {k' : ℕ} (hk' : k' ≤ k) :
    Post (clearCachesDuringChainReversion ((k' + 1) % 2 ^ 32)) c fun _ c' => Indexed H k' c' ∧
    Near c c' := by
  have hlt := h.number_lt
  have hle := h.le
  have hn : Near c ((clearCachesDuringChainReversion ((k' + 1) % 2 ^ 32)).run c).2 :=
    ⟨rfl, fun _ => rfl, h.treelike.backed⟩
  refine ⟨h.recache hn (by omega) ?_, hn⟩
  intro n hash hcache
  change (if _ then none else c.blockHashes n) = some hash at hcache
  split_ifs at hcache with hcleared
  obtain ⟨hpos, hnk, heq⟩ := h.cache n hash hcache
  exact ⟨hpos, by omega, heq⟩

theorem reverted (h : Indexed H c.lastBlockNumber c) (j : ℕ) :
    Indexed H (c.lastBlockNumber - j) (c.reverted j) := by
  unfold BlockChain.reverted
  split_ifs with hj
  · rwa [hj]
  · have hlt := h.number_lt
    have hfirst : (c.lastBlockNumber - j + 1) % 2 ^ 32 = c.lastBlockNumber - j + 1 :=
      Nat.mod_eq_of_lt (by omega)
    rw [← hfirst]
    exact (h.clear (Nat.sub_le _ _)).1

theorem addBlooms (h : Indexed H k c) (blocks : List VerifiedBlock) :
    Indexed H k (addBlooms H blocks c) :=
  h.near (.addBlooms h.treelike.backed blocks) (by rw [addBlooms_eq])

theorem query (h : Indexed H k c) {i : ℕ} (hi : i ≤ k ∨ c.blockHashesDB i = none) :
    Post (numberHash i) c fun hash c' => (i ≤ k → hash = c.ancestorOf c.lastBlockHash i) ∧
    Indexed H k c' ∧
      Near c c' := by
  have hrefl : Near c c := .refl h.treelike.backed
  have hle := h.le
  by_cases h0 : i = 0
  · subst h0
    simp only [numberHash, if_true, post_bind, post_get, post_pure]
    refine ⟨fun _ => ?_, h, hrefl⟩
    have hroot := h.treelike.rooted
    exact (h.treelike.genesis_of_zero (hroot.mem_ancestor h.head.1 0)
      (hroot.height_ancestor h.head.1 (Nat.zero_le _))).symm
  · simp only [numberHash, h0, if_false, queryExtras, post_bind, post_get]
    cases hcache : c.blockHashes i with
    | some hash => exact ⟨fun _ => (h.cache i hash hcache).2.2, h, hrefl⟩
    | none =>
      cases hdb : c.blockHashesDB i with
      | none =>
        refine ⟨fun hik => ?_, h, hrefl⟩
        rw [h.database i (by omega) (by omega)] at hdb
        cases hdb
      | some hash =>
        have hik : i ≤ k := hi.resolve_right (by simp [hdb])
        rw [h.database i (by omega) (by omega)] at hdb
        have heq := Option.some.inj hdb
        simp only [post_bind, post_set, post_pure]
        have hn : Near c { c with blockHashes := update c.blockHashes i (some hash) } :=
          ⟨rfl, fun _ => rfl, h.treelike.backed⟩
        refine ⟨fun _ => heq.symm, h.recache hn h.le fun n hash' hcached => ?_, hn⟩
        dsimp only at hcached
        by_cases hni : n = i
        · subst hni
          rw [update_self] at hcached
          exact ⟨by omega, hik, (Option.some.inj hcached).symm.trans heq.symm⟩
        · rw [update_of_ne hni] at hcached
          exact h.cache n hash' hcached

theorem queries (h : Indexed H k c) {meanwhile : List ℕ}
    (hm : ∀ i ∈ meanwhile, i ≤ k ∨ c.blockHashesDB i = none) :
    Post (askAll meanwhile) c fun _ c' => Indexed H k c' ∧ Near c c' := by
  unfold askAll
  induction meanwhile generalizing c with
  | nil => exact (post_pure _).mpr ⟨h, .refl h.treelike.backed⟩
  | cons i meanwhile ih =>
    rw [List.forM, post_bind, post_bind]
    refine (h.query (hm i (by simp))).mono ?_
    rintro _ c₁ ⟨-, h₁, hc₁⟩
    refine (post_pure _).mpr ((ih h₁ fun i' hi' => ?_).mono ?_)
    · rw [hc₁.blockHashesDB]
      exact hm i' (by simp [hi'])
    · rintro _ c₂ ⟨h₂, hc₂⟩
      exact ⟨h₂, hc₁.trans hc₂⟩

end Indexed

namespace Route
variable {x y : H256} {j g n : ℕ} (hroute : Route c x y j g)
  (hroot : Rooted c.Stored c.parentOf c.numberOf) (hx : c.Stored x) (hy : c.Stored y)
include hroute hroot hx hy

theorem fork : c.numberOf x - j = c.numberOf y - g := by
  have hj := (hroot.iterate hx hroute.from_le).2
  have hg := (hroot.iterate hy hroute.to_le).2
  rw [← hroute.meet] at hg
  omega

theorem ancestorOf_eq (hn : n ≤ c.numberOf y - g) : c.ancestorOf y n = c.ancestorOf x n := by
  have hfork := hroute.fork hroot hx hy
  have hfromY := hroot.ancestor_iterate hy hroute.to_le hn
  have hfromX := hroot.ancestor_iterate hx hroute.from_le (hfork ▸ hn)
  rw [← hroute.meet] at hfromY
  exact hfromY.symm.trans hfromX

end Route

namespace Grown
variable (hg : Grown H b c c') (hroot : Rooted c.Stored c.parentOf c.numberOf)
  (hroot' : Rooted c'.Stored c'.parentOf c'.numberOf) (hb : Fits H c b)
include hg hroot hroot' hb

theorem ancestorOf_of_le {n : ℕ} (hn : n ≤ c.numberOf b.info.parentHash) :
    c'.ancestorOf (b.info.hash H) n = c.ancestorOf b.info.parentHash n := by
  have hbnumber := hb.number
  have hnumber := hg.number
  have hstored : c'.Stored (b.info.hash H) := by
    rw [hg.stored]
    exact .inl rfl
  have hstep := hroot'.ancestor_iterate (k := 1) (n := n) hstored (by omega) (by omega)
  rw [Function.iterate_one, hg.parent] at hstep
  exact hstep.symm.trans (hroot.ancestor_congr hg.parentOf hg.numberOf hb.parent n)

theorem mem_entries {g : ℕ} (hle : g ≤ c.numberOf b.info.parentHash) {e : ℕ × H256} :
    e ∈ (b.info.number.toNat, b.info.hash H) :: (c.passed b.info.parentHash g).map
    (fun x => (c.numberOf x, x)) ↔
      c.numberOf b.info.parentHash - g < e.1 ∧ e.1 ≤ b.info.number.toNat ∧
      e.2 = c'.ancestorOf (b.info.hash H) e.1 := by
  have hbnumber := hb.number
  have hself : c'.ancestorOf (b.info.hash H) b.info.number.toNat = b.info.hash H := by
    rw [← hg.number]
    exact ancestor_self _
  obtain ⟨n, x⟩ := e
  rw [mem_cons]
  constructor
  · intro he
    rcases he with he | he
    · obtain ⟨rfl, rfl⟩ := Prod.mk.inj he
      exact ⟨by omega, le_rfl, hself.symm⟩
    · obtain ⟨y, hy, he⟩ := mem_map.mp he
      obtain ⟨rfl, rfl⟩ := Prod.mk.inj he
      obtain ⟨i, hi, rfl⟩ := mem_map.mp hy
      have hig := mem_range.mp hi
      have hiterate := (hroot.iterate hb.parent (hig.le.trans hle)).2
      have hback : c.numberOf b.info.parentHash - c.numberOf (c.parentOf^[i] b.info.parentHash) =
        i := by omega
      refine ⟨by omega, by omega, ?_⟩
      rw [hg.ancestorOf_of_le hroot hroot' hb (by omega), ancestorOf, ancestor, hback]
  · intro he
    obtain ⟨hlt, hn, hx⟩ := he
    dsimp only at hlt hn hx
    rcases Nat.lt_or_ge (c.numberOf b.info.parentHash) n with hnew | hold
    · obtain rfl : n = b.info.number.toNat := by omega
      exact .inl (by rw [hx, hself])
    · rw [hg.ancestorOf_of_le hroot hroot' hb hold] at hx
      right
      apply mem_map.mpr
      have hi : c.numberOf b.info.parentHash - n < g := by omega
      refine ⟨x, mem_map.mpr ⟨_, mem_range.mpr hi, hx.symm⟩, ?_⟩
      rw [hx, ancestorOf, hroot.height_ancestor hb.parent hold]

end Grown

theorem entries_headBlocks (h : Treelike H c) (hb : Fits H c b) {g : ℕ}
    (hg : g ≤ c.numberOf b.info.parentHash) :
    (c.headBlocks b g).map (fun tbi => (tbi.info.number.toNat, tbi.info.hash H)) =
      (b.info.number.toNat, b.info.hash H) :: (c.passed b.info.parentHash g).map fun x =>
      (c.numberOf x, x) := by
  unfold headBlocks
  rw [map_cons, map_map]
  congr 1
  apply map_congr_left
  intro x hx
  obtain ⟨i, hi, rfl⟩ := mem_map.mp hx
  have hlt := mem_range.mp hi
  obtain ⟨hstored, hnumber⟩ := h.rooted.iterate hb.parent (hlt.le.trans hg)
  have hne : c.parentOf^[i] b.info.parentHash ≠ c.genesisHash := by
    intro heq
    rw [heq, h.genesis.2.1] at hnumber
    omega
  obtain ⟨b', hb', hhash, -, hnumber', -⟩ := h.block _ hstored hne
  have hblock : c.blockOf (c.parentOf^[i] b.info.parentHash) = b' := by
    unfold blockOf block
    rw [if_neg hne, hb']
    rfl
  rw [Function.comp_apply, hblock, hhash, hnumber']

section
variable {parentDetails : BlockDetails} (h : Indexed H k c) (hb : Fits H c b)
  (hparent : (c.detailsOf b.info.parentHash).map (·.place) = some parentDetails.place)
  (totalDifficulty : U256) (receipts : List TransactionReceipt)
include h hb hparent

theorem indexed_write_side :
    Indexed H k (write H b totalDifficulty receipts parentDetails false [] c) := by
  have hg := grown_write hb h.treelike.backed hparent totalDifficulty receipts false []
  have hheaded := headed_write_side h.headed hb hparent totalDifficulty receipts []
  have hancestor (n : ℕ) : ancestorOf (write H b totalDifficulty receipts parentDetails false [] c)
      c.lastBlockHash n = c.ancestorOf c.lastBlockHash n :=
    h.treelike.rooted.ancestor_congr hg.parentOf hg.numberOf h.head.1 n
  refine ⟨hheaded.treelike, hheaded.head, h.le, fun n hpos hn => ?_, fun n hash hn => ?_⟩
  · exact (h.database n hpos hn).trans (congrArg some (hancestor n).symm)
  · obtain ⟨hpos, hle, heq⟩ := h.cache n hash hn
    exact ⟨hpos, hle, heq.trans (hancestor n).symm⟩

/-- A new head. The cache has nothing above the common ancestor. -/
theorem indexed_write_head {j g : ℕ} (hroute : Route c c.lastBlockHash b.info.parentHash j g)
    (hk : k = c.lastBlockNumber - j) :
    let c' := write H b totalDifficulty receipts parentDetails true (c.headBlocks b g) c
    Indexed H c'.lastBlockNumber c' := by
  intro c'
  have hg : Grown H b c c' := grown_write hb h.treelike.backed hparent totalDifficulty receipts true _
  have hheaded : Headed H c' := headed_write_head h.headed hb hparent totalDifficulty receipts _
  have htree := hheaded.treelike
  have hlast : c'.lastBlockHash = b.info.hash H := rfl
  have hnumber : c'.lastBlockNumber = b.info.number.toNat :=
    lastBlockNumber_write h.headed hb totalDifficulty receipts _
  have hfork : c.numberOf b.info.parentHash - g = k := by
    rw [hk, ← h.head.2]
    exact (hroute.fork h.treelike.rooted h.head.1 hb.parent).symm
  have hentries (e : ℕ × H256) :=
    hg.mem_entries h.treelike.rooted htree.rooted hb hroute.to_le (e := e)
  have hwritten : c'.blockHashesDB = ((b.info.number.toNat, b.info.hash H) ::
      (c.passed b.info.parentHash g).map fun x => (c.numberOf x, x)).foldl
        (fun (db : ℕ → Option H256) entry => update db entry.1 (some entry.2)) c.blockHashesDB := by
    rw [← entries_headBlocks h.treelike hb hroute.to_le]
    rfl
  have hbnumber := hb.number
  -- up to the common ancestor nothing changes
  have hnear (n : ℕ) (hn : n ≤ k) :
    c'.ancestorOf (b.info.hash H) n = c.ancestorOf c.lastBlockHash n := by
    rw [hg.ancestorOf_of_le h.treelike.rooted htree.rooted hb (by omega)]
    exact hroute.ancestorOf_eq h.treelike.rooted h.head.1 hb.parent (hfork ▸ hn)
  constructor
  · exact htree
  · exact hheaded.head
  · exact le_rfl
  · intro n hpos hn
    rw [hlast, hwritten]
    rw [hnumber] at hn
    rcases Nat.lt_or_ge k n with hkn | hkn
    · apply foldl_update_of_mem
      · exact (hentries _).mpr ⟨hfork ▸ hkn, hn, rfl⟩
      · intro e he hen
        rw [← hen]
        exact ((hentries e).mp he).2.2
    · rw [foldl_update_of_forall_ne, hnear n hkn]
      · exact h.database n hpos (hkn.trans h.le)
      · intro e he hen
        have hlt := ((hentries e).mp he).1
        omega
  · intro n hash hn
    obtain ⟨hpos, hle, heq⟩ := h.cache n hash hn
    refine ⟨hpos, by omega, ?_⟩
    rw [hlast, hnear n hle]
    exact heq

end

/-- A number at which the head and the parent of a new block have the same ancestor, or one that the
database does not know. -/
def Shared (c : BlockChain) (b : VerifiedBlock) (i : ℕ) : Prop :=
  c.blockHashesDB i = none ∨ i ≤ c.lastBlockNumber ∧ i ≤ c.numberOf b.info.parentHash ∧
    c.ancestorOf b.info.parentHash i = c.ancestorOf c.lastBlockHash i

instance (i : ℕ) : Decidable (Shared c b i) := inferInstanceAs (Decidable (_ ∨ _))

/-- Above the common ancestor the head and the parent have no ancestor in common. -/
theorem Route.le_of_shared {j i : ℕ} (h : Headed H c) (hb : Fits H c b)
    (hroute : Route c c.lastBlockHash b.info.parentHash j k) (hi : Shared c b i) :
    i ≤ c.lastBlockNumber - j ∨ c.blockHashesDB i = none := by
  rcases hi with hnone | ⟨hlast, hparent, heq⟩
  · exact .inr hnone
  · left
    by_contra hlt
    have hfrom := hroute.from_le
    have hto := hroute.to_le
    have hj := (h.treelike.rooted.iterate h.head.1 hfrom).2
    have hk := (h.treelike.rooted.iterate hb.parent hto).2
    have hhead := h.head.2
    rw [hroute.meet] at hj
    have hone : c.numberOf b.info.parentHash - i < k := by omega
    have htwo : c.numberOf c.lastBlockHash - i ≤ j := by omega
    exact hroute.apart _ hone _ htwo heq

theorem Insertion.indexed {totalDifficulty : U256} {receipts : List TransactionReceipt}
    {meanwhile : List ℕ} {route : ImportRoute} (h : Indexed H c.lastBlockNumber c) (hb : Fits H c b)
    (hm : ∀ i ∈ meanwhile, Shared c b i)
    (hinsert : Insertion H b totalDifficulty receipts meanwhile c route c') :
    Indexed H c'.lastBlockNumber c' := by
  cases hinsert with
  | side hkin hparent hbest =>
    rename_i c₁ d
    have hm₁ : ∀ i ∈ meanwhile, i ≤ c.lastBlockNumber ∨ c₁.blockHashesDB i = none := by
      intro i hi
      rw [hkin.blockHashesDB]
      rcases hm i hi with hnone | hshared
      · exact .inr hnone
      · exact .inl hshared.1
    obtain ⟨h₂, hn₂⟩ := (h.near hkin.toNear hkin.blockHashes).queries hm₁
    have hn : Near c (c₁.asked meanwhile) := hkin.toNear.trans hn₂
    have hwrite := indexed_write_side h₂ (hn.fits hb) (hn.parent_place hparent) totalDifficulty receipts
    rw [← hn.lastBlockNumber] at hwrite
    exact hwrite
  | head hkin hparent hbest hroute =>
    rename_i c₁ d j g
    have hback := ((h.head_kin hkin).reverted j).addBlooms (c.headBlocks b g)
    generalize hc₂ : BlockChain.addBlooms H (c.headBlocks b g) (c₁.reverted j) = c₂ at hback
    have hn₂ : Near c c₂ := by
      have hreverted := hkin.toNear.trans (.reverted hkin.backed j)
      rw [← hc₂]
      exact hreverted.trans (.addBlooms hreverted.backed _)
    rw [hkin.lastBlockNumber] at hback
    have hm₂ : ∀ i ∈ meanwhile, i ≤ c.lastBlockNumber - j ∨ c₂.blockHashesDB i = none := by
      intro i hi
      rw [hn₂.blockHashesDB]
      exact hroute.le_of_shared h.headed hb (hm i hi)
    obtain ⟨h₃, hn₂₃⟩ := hback.queries hm₂
    have hn : Near c (c₂.asked meanwhile) := hn₂.trans hn₂₃
    have hroute₃ : Route (c₂.asked meanwhile) (c₂.asked meanwhile).lastBlockHash b.info.parentHash j g := by
      rw [hn.lastBlockHash]
      exact hn.route_iff.mpr hroute
    have hfork : c.lastBlockNumber - j = (c₂.asked meanwhile).lastBlockNumber - j := by
      rw [hn.lastBlockNumber]
    have h₄ : Indexed H (c.lastBlockNumber - j) (c₂.asked meanwhile) := h₃
    have hwrite := indexed_write_head h₄ (hn.fits hb) (hn.parent_place hparent) totalDifficulty
      receipts hroute₃ hfork
    rwa [hn.headBlocks] at hwrite

end BlockChain
end Vapory
