import Vapory.Base.Ancestry
import Vapory.Chain.BlockChain

/-! The tree of the blocks in a chain, as the details of the blocks describe it, and the route from
one block to another. -/
namespace Vapory
open Function List Function

def BlockDetails.place (d : BlockDetails) : ℕ × H256 := (d.number, d.parent)

def BlockDetails.core (d : BlockDetails) : BlockDetails := { d with children := [] }

namespace BlockChain
variable {H : Hasher} {c c' c₁ c₂ : BlockChain} {hash : H256}

def detailsOf (c : BlockChain) (hash : H256) : Option BlockDetails :=
  (c.details hash).or (c.detailsDB hash)

def Stored (c : BlockChain) (hash : H256) : Prop := (c.detailsOf hash).isSome

def numberOf (c : BlockChain) (hash : H256) : ℕ := ((c.detailsOf hash).getD .null).number

def parentOf (c : BlockChain) (hash : H256) : H256 := ((c.detailsOf hash).getD .null).parent

def ancestorOf (c : BlockChain) (hash : H256) (n : ℕ) : H256 :=
  ancestor c.parentOf c.numberOf hash n

theorem place_of_core {d d' : Option BlockDetails} (h : d'.map (·.core) = d.map (·.core)) :
    d'.map (·.place) = d.map (·.place) := by
  have hplace (d : Option BlockDetails) : d.map (·.place) = (d.map (·.core)).map (·.place) := by
    rw [Option.map_map]
    rfl
  rw [hplace, h, ← hplace]

section
variable (h : (c'.detailsOf hash).map (·.place) = (c.detailsOf hash).map (·.place))
include h

theorem stored_congr : c'.Stored hash = c.Stored hash := by
  unfold Stored
  rw [← Option.isSome_map, h, Option.isSome_map]

theorem numberOf_congr : c'.numberOf hash = c.numberOf hash := by
  have hplace (d : Option BlockDetails) :
    (d.getD .null).number = ((d.map (·.place)).getD (BlockDetails.null.place)).1 := by
    cases d <;> rfl
  unfold numberOf
  rw [hplace, h, ← hplace]

theorem parentOf_congr : c'.parentOf hash = c.parentOf hash := by
  have hplace (d : Option BlockDetails) :
    (d.getD .null).parent = ((d.map (·.place)).getD (BlockDetails.null.place)).2 := by
    cases d <;> rfl
  unfold parentOf
  rw [hplace, h, ← hplace]

end

/-- What is in the cache has its place from the database. -/
def Backed (c : BlockChain) : Prop :=
  ∀ hash d, c.details hash = some d → (c.detailsDB hash).map (·.place) = some d.place

/-- The chain is the same, but for what is in the caches and for the children in the details. -/
structure Near (c c' : BlockChain) : Prop where
  eq : c' = { c with
    details := c'.details
    blockHashes := c'.blockHashes
    blocksBlooms := c'.blocksBlooms
    transactionAddresses := c'.transactionAddresses }
  core : ∀ hash, (c'.detailsOf hash).map (·.core) = (c.detailsOf hash).map (·.core)
  backed : c'.Backed

namespace Near

theorem refl (h : c.Backed) : Near c c := ⟨rfl, fun _ => rfl, h⟩

theorem trans (h₁ : Near c c₁) (h₂ : Near c₁ c₂) : Near c c₂ where
  eq := by
    have h := h₂.eq
    rw [h₁.eq] at h
    exact h
  core hash := (h₂.core hash).trans (h₁.core hash)
  backed := h₂.backed

variable (h : Near c c')
include h

theorem place (hash : H256) : (c'.detailsOf hash).map (·.place) = (c.detailsOf hash).map (·.place) :=
  place_of_core (h.core hash)

theorem get {α : Type*} (f : BlockChain → α)
    (hf : ∀ details blockHashes blocksBlooms transactionAddresses,
    f { c with details, blockHashes, blocksBlooms, transactionAddresses } = f c) : f c' = f c := by
  rw [h.eq]
  exact hf _ _ _ _

theorem genesisBlock : c'.genesisBlock = c.genesisBlock :=
  h.get BlockChain.genesisBlock fun _ _ _ _ => rfl

theorem genesisHash : c'.genesisHash = c.genesisHash :=
  h.get BlockChain.genesisHash fun _ _ _ _ => rfl

theorem blocks : c'.blocks = c.blocks := h.get BlockChain.blocks fun _ _ _ _ => rfl

theorem block : c'.block = c.block := h.get BlockChain.block fun _ _ _ _ => rfl

theorem blockHashesDB : c'.blockHashesDB = c.blockHashesDB :=
  h.get BlockChain.blockHashesDB fun _ _ _ _ => rfl

theorem lastBlockHash : c'.lastBlockHash = c.lastBlockHash :=
  h.get BlockChain.lastBlockHash fun _ _ _ _ => rfl

theorem lastBlockNumber : c'.lastBlockNumber = c.lastBlockNumber :=
  h.get BlockChain.lastBlockNumber fun _ _ _ _ => rfl

theorem stored : c'.Stored = c.Stored := by
  funext hash
  exact stored_congr (h.place hash)

theorem numberOf : c'.numberOf = c.numberOf := by
  funext hash
  exact numberOf_congr (h.place hash)

theorem parentOf : c'.parentOf = c.parentOf := by
  funext hash
  exact parentOf_congr (h.place hash)

theorem ancestorOf : c'.ancestorOf = c.ancestorOf := by
  funext hash n
  unfold BlockChain.ancestorOf
  rw [h.parentOf, h.numberOf]

end Near

/-- As `Near`, and only the details in the cache may be others. -/
structure Kin (c c' : BlockChain) : Prop extends Near c c' where
  blockHashes : c'.blockHashes = c.blockHashes
  blocksBlooms : c'.blocksBlooms = c.blocksBlooms
  transactionAddresses : c'.transactionAddresses = c.transactionAddresses

namespace Kin

theorem refl (h : c.Backed) : Kin c c := ⟨.refl h, rfl, rfl, rfl⟩

theorem trans (h₁ : Kin c c₁) (h₂ : Kin c₁ c₂) : Kin c c₂ where
  toNear := h₁.toNear.trans h₂.toNear
  blockHashes := h₂.blockHashes.trans h₁.blockHashes
  blocksBlooms := h₂.blocksBlooms.trans h₁.blocksBlooms
  transactionAddresses := h₂.transactionAddresses.trans h₁.transactionAddresses

end Kin

structure Reads (c c' : BlockChain) : Prop where
  eq : c' = { c with details := c'.details }
  detailsOf : c'.detailsOf = c.detailsOf

namespace Reads

theorem refl (c : BlockChain) : Reads c c := ⟨rfl, rfl⟩

theorem trans (h₁ : Reads c c₁) (h₂ : Reads c₁ c₂) : Reads c c₂ where
  eq := by
    have h := h₂.eq
    rw [h₁.eq] at h
    exact h
  detailsOf := h₂.detailsOf.trans h₁.detailsOf

theorem kin (h : Reads c c') (hb : c.Backed) : Kin c c' := by
  refine ⟨⟨?_, fun hash => by rw [h.detailsOf], fun hash d hd => ?_⟩, ?_, ?_, ?_⟩
  · rw [h.eq]
  · have hdb : c'.detailsDB = c.detailsDB := by rw [h.eq]
    have hold : c.detailsOf hash = some d := by
      rw [← h.detailsOf, BlockChain.detailsOf, hd]
      rfl
    unfold BlockChain.detailsOf at hold
    rw [hdb]
    cases hcache : c.details hash with
    | some d' =>
      rw [hcache] at hold
      obtain rfl := Option.some.inj hold
      exact hb hash d' hcache
    | none =>
      rw [hcache] at hold
      exact congrArg _ hold
  · rw [h.eq]
  · rw [h.eq]
  · rw [h.eq]

end Reads

theorem queryDetails_reads (c : BlockChain) (hash : H256) :
    Post (queryDetails hash) c fun d c' => d = (c.detailsOf hash).getD .null ∧ Reads c c' ∧
    c'.details hash = c.detailsOf hash := by
  unfold queryDetails queryExtras detailsOf
  simp only [post_bind, post_get]
  cases hcache : c.details hash with
  | some d => exact ⟨rfl, .refl c, hcache⟩
  | none =>
    cases hdb : c.detailsDB hash with
    | none => exact ⟨rfl, .refl c, hcache⟩
    | some d =>
      simp only [post_bind, post_set, post_pure]
      refine ⟨rfl, ⟨rfl, funext fun x => ?_⟩, update_self ..⟩
      by_cases hx : x = hash
      · subst hx
        simp [detailsOf, hcache, hdb]
      · simp [detailsOf, update_of_ne hx]

theorem queryDetails_spec (h : c.Backed) (hash : H256) :
    Post (queryDetails hash) c fun d c' => d = (c.detailsOf hash).getD .null ∧ Kin c c' ∧
    c'.details hash = c.detailsOf hash :=
  (queryDetails_reads c hash).mono fun _ _ hquery => ⟨hquery.1, hquery.2.1.kin h, hquery.2.2⟩

/-- The blocks form a tree, and each of them can be read. -/
structure Treelike (H : Hasher) (c : BlockChain) : Prop where
  backed : c.Backed
  genesis : c.Stored c.genesisHash ∧ c.numberOf c.genesisHash = 0 ∧ c.genesisHash ≠ 0 ∧
    c.genesisBlock.info.number = 0
  number_lt : ∀ hash, c.Stored hash → c.numberOf hash < 2 ^ 32 - 1
  block : ∀ hash, c.Stored hash → hash ≠ c.genesisHash → ∃ b, c.blocks hash = some b ∧
    b.info.hash H = hash ∧ hash ≠ 0 ∧ b.info.number.toNat = c.numberOf hash ∧
    b.info.parentHash = c.parentOf hash ∧ c.Stored (c.parentOf hash) ∧
    c.numberOf (c.parentOf hash) + 1 = c.numberOf hash

namespace Treelike

theorem near (h : Treelike H c) (hk : Near c c') : Treelike H c' := by
  obtain ⟨-, hgenesis, hlt, hblock⟩ := h
  refine ⟨hk.backed, ?_, ?_, ?_⟩
  · rwa [hk.stored, hk.numberOf, hk.genesisHash, hk.genesisBlock]
  · rwa [hk.stored, hk.numberOf]
  · rwa [hk.stored, hk.numberOf, hk.parentOf, hk.genesisHash, hk.blocks]

variable (h : Treelike H c)
include h

theorem genesis_of_zero (hs : c.Stored hash) (h0 : c.numberOf hash = 0) : hash = c.genesisHash := by
  by_contra hne
  obtain ⟨b, -, -, -, -, -, -, hnumber⟩ := h.block hash hs hne
  omega

theorem rooted : Rooted c.Stored c.parentOf c.numberOf where
  root x y hx hy hx0 hy0 := (h.genesis_of_zero hx hx0).trans (h.genesis_of_zero hy hy0).symm
  parent x hx hx0 := by
    have hne : x ≠ c.genesisHash := fun he => hx0 (he ▸ h.genesis.2.1)
    obtain ⟨b, -, -, -, -, -, hparent, hnumber⟩ := h.block x hx hne
    exact ⟨hparent, hnumber⟩

theorem ne_zero (hs : c.Stored hash) : hash ≠ 0 := by
  by_cases hg : hash = c.genesisHash
  · exact hg ▸ h.genesis.2.2.1
  · obtain ⟨b, -, -, hne, -⟩ := h.block hash hs hg
    exact hne

end Treelike

def passed (c : BlockChain) (hash : H256) (n : ℕ) : List H256 :=
  (List.range n).map fun i => c.parentOf^[i] hash

theorem length_passed (n : ℕ) : (c.passed hash n).length = n := by
  rw [passed, length_map, length_range]

theorem passed_succ (n : ℕ) : c.passed hash (n + 1) = hash :: c.passed (c.parentOf hash) n := by
  unfold passed
  rw [range_succ_eq_map, map_cons, map_map]
  rfl

theorem passed_add (m n : ℕ) :
    c.passed hash (m + n) = c.passed hash m ++ c.passed (c.parentOf^[m] hash) n := by
  unfold passed
  rw [range_add, map_append, map_map]
  congr 1
  refine map_congr_left fun i _ => ?_
  rw [comp_apply, Nat.add_comm, iterate_add_apply]

theorem Near.passed (h : Near c c') (hash : H256) (n : ℕ) : c'.passed hash n = c.passed hash n := by
  unfold BlockChain.passed
  rw [h.parentOf]

theorem climb_spec (h : c.Backed) (n : ℕ) (hash : H256) (acc : List H256) :
    Post (climb true n hash acc) c fun r c' => r = (c.parentOf^[n] hash, acc ++ c.passed hash n) ∧
    Kin c c' := by
  induction n generalizing c hash acc with
  | zero => exact (post_pure _).mpr ⟨by simp [passed], .refl h⟩
  | succ n ih =>
    unfold climb
    rw [post_bind]
    refine (queryDetails_spec h hash).mono ?_
    rintro d c₁ ⟨rfl, hk₁, -⟩
    refine (ih hk₁.backed (c.parentOf hash) (acc ++ [hash])).mono ?_
    rintro r c₂ ⟨rfl, hk₂⟩
    refine ⟨?_, hk₁.trans hk₂⟩
    rw [hk₁.passed, hk₁.parentOf, passed_succ, append_assoc]
    rfl

/-- The last loop ends after as many turns as there are generations to the common ancestor. -/
theorem meet_spec (h : c.Backed) (common : Bool) {t fuel : ℕ} (hfuel : t < fuel) {x y : H256}
    (hmeet : c.parentOf^[t] x = c.parentOf^[t] y)
    (hapart : ∀ i < t, c.parentOf^[i] x ≠ c.parentOf^[i] y) (ret back : List H256) :
    Returns (meet true true common fuel x y ret back) c fun r c' => Kin c c' ∧
      r = (ret ++ c.passed x t ++ (if common then [c.parentOf^[t] x] else []), back ++ c.passed y t,
        c.parentOf^[t] x) := by
  induction t generalizing c fuel x y ret back with
  | zero =>
    obtain ⟨fuel, rfl⟩ : ∃ n, fuel = n + 1 := ⟨fuel - 1, by omega⟩
    obtain rfl : x = y := hmeet
    unfold meet
    simp only [ne_eq, not_true_eq_false, false_or, true_and, Bool.not_true, Bool.false_eq_true,
      false_and, if_false, if_true, returns_pure]
    refine ⟨.refl h, ?_⟩
    cases common <;> simp [passed]
  | succ t ih =>
    obtain ⟨fuel, rfl⟩ : ∃ n, fuel = n + 1 := ⟨fuel - 1, by omega⟩
    have hne : x ≠ y := hapart 0 (by omega)
    unfold meet
    simp only [ne_eq, hne, not_false_eq_true, true_or, true_and, if_true, if_false, returns_bind,
      returns_lift]
    refine (queryDetails_spec h x).mono ?_
    rintro d c₁ ⟨rfl, hk₁, -⟩
    refine (queryDetails_spec hk₁.backed y).mono ?_
    rintro d' c₂ ⟨rfl, hk₂, -⟩
    have hk := hk₁.trans hk₂
    have hx : ((c.detailsOf x).getD .null).parent = c.parentOf x := rfl
    have hy : ((c₁.detailsOf y).getD .null).parent = c.parentOf y := by rw [← hk₁.parentOf]; rfl
    rw [hx, hy]
    have hmeet' : c₂.parentOf^[t] (c.parentOf x) = c₂.parentOf^[t] (c.parentOf y) := by rwa [hk.parentOf]
    have hapart' (i : ℕ) (hi : i < t) : c₂.parentOf^[i] (c.parentOf x) ≠ c₂.parentOf^[i] (c.parentOf y) := by
      rw [hk.parentOf]
      exact hapart (i + 1) (by omega)
    obtain ⟨r, c₃, hr, hk₃, rfl⟩ :=
      ih hk₂.backed (Nat.lt_of_succ_lt_succ hfuel) hmeet' hapart' (ret ++ [x]) (back ++ [y])
    refine ⟨_, c₃, hr, hk.trans hk₃, ?_⟩
    rw [hk.passed, hk.passed, hk.parentOf, passed_succ, passed_succ]
    simp [iterate_succ_apply]

/-- Two blocks of a tree have a common ancestor. The route goes back to it from the first block, `j`
generations, and on to the second one, `k` generations. -/
structure Route (c : BlockChain) (x y : H256) (j k : ℕ) : Prop where
  from_le : j ≤ c.numberOf x
  to_le : k ≤ c.numberOf y
  meet : c.parentOf^[j] x = c.parentOf^[k] y
  apart : ∀ i < k, ∀ i' ≤ j, c.parentOf^[i] y ≠ c.parentOf^[i'] x

theorem treeRoute_spec (h : Treelike H c) {x y : H256} (hx : c.Stored x) (hy : c.Stored y)
    (common : Bool) : Returns (treeRoute true true common x y) c fun r c' => Kin c c' ∧
    ∃ j k, Route c x y j k ∧
      r.1 = c.passed x j ++ (if common then [c.parentOf^[j] x] else []) ++ (c.passed y k).reverse ∧
      r.2.1 = c.parentOf^[j] x ∧ r.2.2 = j + if common ∧ k = 0 then 1 else 0 := by
  have hr := h.rooted
  unfold treeRoute
  simp only [h.ne_zero hx, h.ne_zero hy, or_self, if_false, returns_bind, returns_lift]
  refine (queryDetails_spec h.backed x).mono ?_
  rintro d c₁ ⟨rfl, hk₁, -⟩
  refine (queryDetails_spec hk₁.backed y).mono ?_
  rintro d' c₂ ⟨rfl, hk₂, -⟩
  have hk := hk₁.trans hk₂
  have hnx : ((c.detailsOf x).getD .null).number = c.numberOf x := rfl
  have hny : ((c₁.detailsOf y).getD .null).number = c.numberOf y := by rw [← hk₁.numberOf]; rfl
  have hltx := h.number_lt x hx
  have hlty := h.number_lt y hy
  simp only [BlockDetails.isNull, hnx, hny, decide_eq_true_eq, hltx.ne, hlty.ne, or_self, if_false,
    returns_bind, returns_lift]
  refine (climb_spec hk₂.backed _ x []).mono ?_
  rintro _ c₃ ⟨rfl, hk₃⟩
  refine (climb_spec hk₃.backed _ y []).mono ?_
  rintro _ c₄ ⟨rfl, hk₄⟩
  have hk' := (hk.trans hk₃).trans hk₄
  rw [hk.parentOf, (hk.trans hk₃).parentOf, hk.passed, (hk.trans hk₃).passed]
  -- both are at the lower of the two heights now, and there is a first turn after which they are one
  generalize hd : c.numberOf x - c.numberOf y = d
  generalize hd' : c.numberOf y - c.numberOf x = d'
  obtain ⟨hmx, hhx⟩ := hr.iterate (k := d) hx (by omega)
  obtain ⟨hmy, hhy⟩ := hr.iterate (k := d') hy (by omega)
  have hsame : c.numberOf (c.parentOf^[d] x) = c.numberOf (c.parentOf^[d'] y) := by omega
  have hmeet := hr.meet hmx hmy hsame
  have hexists : ∃ t, c.parentOf^[t] (c.parentOf^[d] x) = c.parentOf^[t] (c.parentOf^[d'] y) :=
    ⟨_, hmeet⟩
  obtain ⟨t, ht, hleast⟩ : ∃ t, c.parentOf^[t] (c.parentOf^[d] x) = c.parentOf^[t] (c.parentOf^[d'] y) ∧
      ∀ i < t, c.parentOf^[i] (c.parentOf^[d] x) ≠ c.parentOf^[i] (c.parentOf^[d'] y) :=
    ⟨Nat.find hexists, Nat.find_spec hexists, fun i hi => Nat.find_min hexists hi⟩
  have htle : t ≤ c.numberOf (c.parentOf^[d] x) := not_lt.mp fun hlt => hleast _ hlt hmeet
  have hroute : Route c x y (d + t) (d' + t) := by
    refine ⟨by omega, by omega, ?_, fun i hi i' hi' heq => ?_⟩
    · rwa [Nat.add_comm, iterate_add_apply, Nat.add_comm d', iterate_add_apply]
    · have hiy := (hr.iterate (k := i) hy (by omega)).2
      have hix := (hr.iterate (k := i') hx (by omega)).2
      rw [heq] at hiy
      obtain ⟨i, rfl⟩ : ∃ n, i = n + d' := ⟨i - d', by omega⟩
      obtain rfl : i' = i + d := by omega
      rw [iterate_add_apply, iterate_add_apply] at heq
      exact hleast i (by omega) heq.symm
  have hfuel : t < 2 ^ 32 := by omega
  have hmeet₄ : c₄.parentOf^[t] (c.parentOf^[d] x) = c₄.parentOf^[t] (c.parentOf^[d'] y) := by
    rwa [hk'.parentOf]
  have hleast₄ (i : ℕ) (hi : i < t) :
    c₄.parentOf^[i] (c.parentOf^[d] x) ≠ c₄.parentOf^[i] (c.parentOf^[d'] y) := by
    rw [hk'.parentOf]
    exact hleast i hi
  obtain ⟨r, c₅, hrun, hk₅, rfl⟩ :=
    meet_spec hk₄.backed common hfuel hmeet₄ hleast₄ ([] ++ c.passed x d) ([] ++ c.passed y d')
  refine ⟨_, c₅, hrun, (returns_pure _).mpr ⟨hk'.trans hk₅, d + t, d' + t, hroute, ?_, ?_, ?_⟩⟩
  · rw [hk'.passed, hk'.passed, hk'.parentOf, passed_add, passed_add, Nat.add_comm d,
      iterate_add_apply]
    simp
  · rw [hk'.parentOf, Nat.add_comm d, iterate_add_apply]
  · -- the ancestor is the last of the first list, and the index goes to it only if there is a second one
    have hback : c.passed y d' ++ c.passed (c.parentOf^[d'] y) t = [] ↔ d' + t = 0 := by
      rw [← passed_add, ← length_eq_zero_iff, length_passed]
    simp only [hk'.passed, nil_append, ne_eq, hback, length_append, length_passed]
    generalize d' + t = k
    cases common <;> by_cases hzero : k = 0 <;> simp [hzero]

/-- A block that can be added to the tree: its parent is there, and if it is there already, it has
the same place. -/
structure Fits (H : Hasher) (c : BlockChain) (b : VerifiedBlock) : Prop where
  ne_zero : b.info.hash H ≠ 0
  ne_genesis : b.info.hash H ≠ c.genesisHash
  parent : c.Stored b.info.parentHash
  number : b.info.number.toNat = c.numberOf b.info.parentHash + 1
  number_lt : b.info.number.toNat < 2 ^ 32 - 1
  again : c.Stored (b.info.hash H) →
    c.numberOf (b.info.hash H) = b.info.number.toNat ∧ c.parentOf (b.info.hash H) = b.info.parentHash

/-- After a block was written, with the details of its parent that were in the cache. -/
structure Grown (H : Hasher) (b : VerifiedBlock) (c c' : BlockChain) : Prop where
  stored : c'.Stored = fun x => x = b.info.hash H ∨ c.Stored x
  numberOf : ∀ x, c.Stored x → c'.numberOf x = c.numberOf x
  parentOf : ∀ x, c.Stored x → c'.parentOf x = c.parentOf x
  number : c'.numberOf (b.info.hash H) = b.info.number.toNat
  parent : c'.parentOf (b.info.hash H) = b.info.parentHash
  backed : c'.Backed

section
variable {b : VerifiedBlock} {parentDetails : BlockDetails}

theorem grown_write (hb : Fits H c b) (hbacked : c.Backed)
    (hparent : (c.detailsOf b.info.parentHash).map (·.place) = some parentDetails.place)
    (totalDifficulty : U256) (receipts : List TransactionReceipt) (best : Bool)
    (blocks : List VerifiedBlock) :
    Grown H b c (write H b totalDifficulty receipts parentDetails best blocks c) := by
  have hlt := hb.number_lt
  have hnumber : b.info.number.toNat % 2 ^ 32 = b.info.number.toNat := Nat.mod_eq_of_lt (by omega)
  have hne : b.info.parentHash ≠ b.info.hash H := by
    intro heq
    have hagain := (hb.again (heq ▸ hb.parent)).1
    rw [hb.number, heq] at hagain
    omega
  generalize hc' : write H b totalDifficulty receipts parentDetails best blocks c = c'
  have hcache (x : H256) : c'.details x = c.details x := by rw [← hc']; rfl
  have hnew : c'.detailsDB (b.info.hash H) =
    some ⟨b.info.number.toNat, totalDifficulty, b.info.parentHash, []⟩ := by
    rw [← hc', write]
    simp only [update_self, hnumber]
  have holdParent : c'.detailsDB b.info.parentHash = some parentDetails := by
    rw [← hc', write]
    simp only [update_of_ne hne, update_self]
  have hold (x : H256) (hx : x ≠ b.info.hash H) (hxp : x ≠ b.info.parentHash) :
    c'.detailsDB x = c.detailsDB x := by
    rw [← hc', write]
    simp only [update_of_ne hx, update_of_ne hxp]
  -- what is in the cache has the place that is written
  have hcached (x : H256) (d : BlockDetails) (hd : c.details x = some d) : c.detailsOf x = some d := by
    rw [detailsOf, hd]
    rfl
  have hcachedNew (d : BlockDetails) (hd : c.details (b.info.hash H) = some d) :
      d.place = (b.info.number.toNat, b.info.parentHash) := by
    have hdetails := hcached _ d hd
    obtain ⟨hn, hp⟩ := hb.again (by rw [Stored, hdetails]; rfl)
    rw [BlockChain.numberOf, hdetails] at hn
    rw [BlockChain.parentOf, hdetails] at hp
    exact Prod.ext hn hp
  have hcachedParent (d : BlockDetails) (hd : c.details b.info.parentHash = some d) :
    d.place = parentDetails.place := by
    rw [hcached _ d hd] at hparent
    exact Option.some.inj hparent
  have hother (x : H256) (hx : x ≠ b.info.hash H) :
    (c'.detailsOf x).map (·.place) = (c.detailsOf x).map (·.place) := by
    by_cases hxp : x = b.info.parentHash
    · subst hxp
      rw [hparent, detailsOf, hcache, holdParent]
      cases hd : c.details b.info.parentHash with
      | none => rfl
      | some d => exact congrArg some (hcachedParent d hd)
    · rw [detailsOf, detailsOf, hcache, hold x hx hxp]
  have hplace : (c'.detailsOf (b.info.hash H)).map (·.place) =
    some (b.info.number.toNat, b.info.parentHash) := by
    rw [detailsOf, hcache, hnew]
    cases hd : c.details (b.info.hash H) with
    | none => rfl
    | some d => exact congrArg some (hcachedNew d hd)
  obtain ⟨d, hd, hdplace⟩ := Option.map_eq_some_iff.mp hplace
  have hnumberOf : c'.numberOf (b.info.hash H) = b.info.number.toNat := by
    rw [BlockChain.numberOf, hd]
    exact congrArg Prod.fst hdplace
  have hparentOf : c'.parentOf (b.info.hash H) = b.info.parentHash := by
    rw [BlockChain.parentOf, hd]
    exact congrArg Prod.snd hdplace
  refine ⟨?_, fun x hx => ?_, fun x hx => ?_, hnumberOf, hparentOf, fun x d' hx => ?_⟩
  · funext x
    by_cases hx : x = b.info.hash H
    · simp [Stored, hx, hd]
    · simp [stored_congr (hother x hx), hx]
  · by_cases hxh : x = b.info.hash H
    · subst hxh
      rw [hnumberOf, (hb.again hx).1]
    · exact numberOf_congr (hother x hxh)
  · by_cases hxh : x = b.info.hash H
    · subst hxh
      rw [hparentOf, (hb.again hx).2]
    · exact parentOf_congr (hother x hxh)
  · rw [hcache] at hx
    by_cases hxh : x = b.info.hash H
    · subst hxh
      rw [hnew, hcachedNew d' hx]
      rfl
    · by_cases hxp : x = b.info.parentHash
      · subst hxp
        rw [holdParent, hcachedParent d' hx]
        rfl
      · rw [hold x hxh hxp]
        exact hbacked x d' hx

theorem Treelike.grow (h : Treelike H c) (hb : Fits H c b) (hg : Grown H b c c')
    (hgenesis : c'.genesisHash = c.genesisHash) (hgenesisBlock : c'.genesisBlock = c.genesisBlock)
    (hblocks : c'.blocks = update c.blocks (b.info.hash H) (some b)) : Treelike H c' := by
  have hstored (x : H256) (hx : c.Stored x) : c'.Stored x := by
    rw [hg.stored]
    exact .inr hx
  refine ⟨hg.backed, ?_, fun x hx => ?_, fun x hx hne => ?_⟩
  · obtain ⟨hs, h0, hne, hfirst⟩ := h.genesis
    rw [hgenesis, hg.numberOf _ hs, hgenesisBlock]
    exact ⟨hstored _ hs, h0, hne, hfirst⟩
  · rw [hg.stored] at hx
    rcases hx with rfl | hx
    · rw [hg.number]
      exact hb.number_lt
    · rw [hg.numberOf x hx]
      exact h.number_lt x hx
  · by_cases hxh : x = b.info.hash H
    · subst hxh
      refine ⟨b, by rw [hblocks, update_self], rfl, hb.ne_zero, hg.number.symm, hg.parent.symm, ?_, ?_⟩
      · rw [hg.parent]
        exact hstored _ hb.parent
      · rw [hg.parent, hg.number, hg.numberOf _ hb.parent, hb.number]
    · rw [hg.stored] at hx
      have hx := hx.resolve_left hxh
      obtain ⟨b', hb', hhash, hnz, hnumber, hparent, hsp, hone⟩ := h.block x hx (hgenesis ▸ hne)
      refine ⟨b', by rw [hblocks, update_of_ne hxh, hb'], hhash, hnz, ?_, ?_, ?_, ?_⟩
      · rw [hg.numberOf x hx, hnumber]
      · rw [hg.parentOf x hx, hparent]
      · rw [hg.parentOf x hx]
        exact hstored _ hsp
      · rw [hg.parentOf x hx, hg.numberOf x hx, hg.numberOf _ hsp, hone]

end

end BlockChain
end Vapory
