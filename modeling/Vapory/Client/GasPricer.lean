import Mathlib.Algebra.Order.BigOperators.Group.List
import Mathlib.Data.BitVec
import Vapory.Block.GasUsed

/-! `BasicGasPricer::update`: the gas that the transactions of the last blocks used, by price. A
receipt has the gas of its transaction and of all before it in the block, and the pricer takes it
for the gas of the transaction. -/
namespace Vapory
open List

/-! Running totals. -/

section
variable {α : Type} [AddCommMonoid α]

def totals (start : α) : List α → List α
  | [] => []
  | u :: us => (start + u) :: totals (start + u) us

@[simp] theorem length_totals (start : α) (us : List α) : (totals start us).length = us.length := by
  induction us generalizing start with
  | nil => rfl
  | cons u us ih => rw [totals, length_cons, ih, length_cons]

theorem totals_concat (start : α) (us : List α) (u : α) :
    totals start (us ++ [u]) = totals start us ++ [start + us.sum + u] := by
  induction us generalizing start with
  | nil => simp [totals]
  | cons v us ih => rw [cons_append, totals, totals, ih, cons_append, sum_cons, add_assoc start]

theorem getLast?_totals (us : List α) : (totals 0 us).getLast?.getD 0 = us.sum := by
  induction us using List.reverseRecOn with
  | nil => rfl
  | append_singleton us u _ =>
    rw [totals_concat, List.getLast?_concat, Option.getD_some, sum_append, sum_singleton, zero_add]

end

theorem sum_totals (start : ℕ) (us : List ℕ) :
    (totals start us).sum = start * us.length + (totals 0 us).sum := by
  induction us generalizing start with
  | nil => simp [totals]
  | cons u us ih =>
    rw [totals, totals, sum_cons, sum_cons, ih (start + u), ih (0 + u), length_cons]
    ring

theorem sum_le_sum_totals (us : List ℕ) : us.sum ≤ (totals 0 us).sum := by
  induction us with
  | nil => exact le_rfl
  | cons u us ih =>
    rw [totals, sum_cons, sum_cons, sum_totals]
    omega

/-- The totals sum up to no more than the numbers only if all but the last number are zero. -/
theorem dropLast_eq_zero {us : List ℕ} (h : (totals 0 us).sum = us.sum) :
    ∀ u ∈ us.dropLast, u = 0 := by
  induction us with
  | nil => simp
  | cons u us ih =>
    have hle := sum_le_sum_totals us
    rw [totals, sum_cons, sum_cons, sum_totals, zero_add] at h
    cases us with
    | nil => simp
    | cons v vs =>
      have hmul : u * (v :: vs).length = 0 := by omega
      have hu : u = 0 := by simpa using hmul
      rw [dropLast_cons_cons]
      rintro w (_ | ⟨_, hw⟩)
      · exact hu
      · exact ih (by omega) w hw

theorem totals_of_dropLast {us : List ℕ} (h : ∀ u ∈ us.dropLast, u = 0) : totals 0 us = us := by
  induction us with
  | nil => rfl
  | cons u us ih =>
    cases us with
    | nil => simp [totals]
    | cons v vs =>
      rw [dropLast_cons_cons] at h
      have hu : u = 0 := h u mem_cons_self
      rw [totals, hu, zero_add, ih fun w hw => h w (mem_cons_of_mem u hw)]

theorem map_toNat_totals {us : List U256} (h : (us.map BitVec.toNat).sum < 2 ^ 256) :
    (totals 0 us).map BitVec.toNat = totals 0 (us.map BitVec.toNat) ∧
    us.sum.toNat = (us.map BitVec.toNat).sum := by
  induction us using List.reverseRecOn with
  | nil => exact ⟨rfl, rfl⟩
  | append_singleton us u ih =>
    rw [map_append, sum_append] at h
    simp only [map_cons, map_nil, sum_singleton] at h
    obtain ⟨hmap, hsum⟩ := ih (by omega)
    have hadd : (us.sum + u).toNat = (us.map BitVec.toNat).sum + u.toNat := by
      rw [BitVec.toNat_add_of_lt (by omega), hsum]
    constructor
    · simp only [totals_concat, map_append, hmap, map_cons, map_nil, zero_add, hadd]
    · simp [hadd]

/-! The receipts of a block. -/

theorem receipt_execute (node : Node) (envInfo : Vvm.EnvInfo) (t : Transaction) (p : Permanence)
    (s : State) : Ends (State.execute node envInfo t p) s fun r _ =>
    r.2.gasUsed = envInfo.gasUsed + r.1.gasUsed t := by
  unfold State.execute
  refine ends_then fun e s₁ => ends_then fun _ s₂ => ?_
  rw [ends_bind, ends_get]
  exact (ends_pure _).mpr rfl

namespace Block
variable {node : Node} {b₀ b : Block}

/-- The transactions and receipts of a block after those with the gas `used` were executed in it. -/
structure Recorded (used : List U256) (b : Block) : Prop where
  transactions : b.transactions.length = used.length
  receipts : b.receipts.map TransactionReceipt.gasUsed = totals 0 used

theorem Recorded.gasUsed {used : List U256} (h : Recorded used b) : b.gasUsed = used.sum := by
  rw [Block.gasUsed, ← List.getLast?_map, h.receipts, getLast?_totals]

theorem Recorded.uncommitToSeal {used : List U256} (h : Recorded used b) (s : State) :
    Recorded used { b.uncommitToSeal with state := s } := by
  constructor
  · exact (congrArg List.length b.uncommitToSeal_transactions).trans h.transactions
  · exact (congrArg (List.map TransactionReceipt.gasUsed) b.uncommitToSeal_receipts).trans h.receipts

theorem recorded_execute {used : List U256} (h : Recorded used b) (lastHashes : H256 → List H256)
    (t : Transaction) (p : Permanence) :
    Ends (execute node lastHashes t p) b fun e b' =>
    Recorded (if p = .Committed then used ++ [e.gasUsed t] else used) b' := by
  have hstate :=
    receipt_execute node (.ofHeader b.currentBlock lastHashes b.gasUsed) t p b.uncommitToSeal.state
  refine (execute_took (Q := fun e receipt => receipt.gasUsed = b.gasUsed + e.gasUsed t)
    hstate).mono ?_
  rintro e b' ⟨receipt, hlast, htook⟩
  by_cases hp : p = .Committed
  · rw [if_pos hp]
    constructor
    · rw [htook.transactions, if_pos hp, length_append, length_append, h.transactions]
      rfl
    · rw [htook.receipts, if_pos hp, map_append, h.receipts, totals_concat, zero_add, map_singleton,
        hlast, h.gasUsed]
  · rw [if_neg hp]
    constructor
    · rw [htook.transactions, if_neg hp, h.transactions]
    · rw [htook.receipts, if_neg hp, h.receipts]

theorem Executes.recorded {used : List U256} (hnew : Recorded [] b₀) (h : Executes node b₀ used b) :
    Recorded used b := by
  induction h with
  | start => exact hnew
  | accept lastHashes t p _ hrun ih => exact recorded_execute ih lastHashes t p _ _ hrun
  | refuse s _ ih => exact ih.uncommitToSeal s

end Block

/-- What the pricer asks of the chain; `block` gives the transactions of the block. -/
structure PricedChain where
  currentHash : H256
  info : H256 → BlockHeader
  block : H256 → List Transaction
  receipts : H256 → List TransactionReceipt

/-- `dist` and `total`. A price that is not in the map has no weight. -/
structure GasPrices where
  dist : U256 → U256 := fun _ => 0
  total : U256 := 0

namespace GasPrices

def add (g : GasPrices) (price gu : U256) : GasPrices :=
  ⟨Function.update g.dist price (g.dist price + gu), g.total + gu⟩

/-- The loop over the transactions of a block. Past the last receipt the source has no meaning. -/
def addTransactions (receipts : List TransactionReceipt) : ℕ → List Transaction → GasPrices →
    Option GasPrices
  | _, [], g => some g
  | i, tx :: txs, g => do
    let r ← receipts[i]?
    addTransactions receipts (i + 1) txs (g.add tx.gasPrice r.gasUsed)

end GasPrices

namespace PricedChain

def addBlock (H : Hasher) (bc : PricedChain) (p : H256) (g : GasPrices) : Option GasPrices :=
  let bi := bc.info p
  if bi.transactionsRoot ≠ H.emptyTrie then g.addTransactions (bc.receipts (bi.hash H)) 0
    (bc.block p) else some g

/-- The loop over the blocks, of which `c` more may be visited. -/
def updateLoop (H : Hasher) (bc : PricedChain) : ℕ → H256 → GasPrices → Option GasPrices
  | 0, _, g => some g
  | c + 1, p, g =>
    if p = 0 then some g
    else do
      let g ← bc.addBlock H p g
      updateLoop H bc c (bc.info p).parentHash g

/-- `update` up to the octiles: `m_gasPerBlock`, and the weights of the prices. -/
def update (H : Hasher) (bc : PricedChain) : Option (U256 × GasPrices) := do
  let g ← bc.updateLoop H 1000 bc.currentHash {}
  return ((bc.info bc.currentHash).gasLimit, g)

/-- The blocks from `p` back, at most `c` of them. -/
def window (bc : PricedChain) : ℕ → H256 → List H256
  | 0, _ => []
  | c + 1, p => if p = 0 then [] else p :: bc.window c (bc.info p).parentHash

/-- The block of the hash was executed: its transactions used the gas `used`, one by one. Of the
genesis block, which has no transactions, the header may name any gas. -/
structure Executed (node : Node) (bc : PricedChain) (p : H256) (used : List U256) : Prop where
  hash : (bc.info p).hash node.H = p
  transactionsRoot : bc.block p ≠ [] → (bc.info p).transactionsRoot ≠ node.H.emptyTrie
  run : (∃ b₀ b, b₀.transactions = [] ∧ b₀.receipts = [] ∧ Block.Executes node b₀ used b ∧
    b.transactions = bc.block p ∧ b.receipts = bc.receipts p ∧ b.gasUsed = (bc.info p).gasUsed) ∨
    used = [] ∧ bc.block p = [] ∧ bc.receipts p = []

end PricedChain

/-! Weights as numbers. -/

def weight (entries : List (U256 × ℕ)) (price : U256) : ℕ :=
  ((entries.filter fun e => e.1 = price).map Prod.snd).sum

def totalWeight (entries : List (U256 × ℕ)) : ℕ := (entries.map Prod.snd).sum

theorem weight_append (es fs : List (U256 × ℕ)) (price : U256) :
    weight (es ++ fs) price = weight es price + weight fs price := by
  simp [weight]

theorem totalWeight_append (es fs : List (U256 × ℕ)) :
    totalWeight (es ++ fs) = totalWeight es + totalWeight fs := by
  simp [totalWeight]

theorem sum_weight {es : List (U256 × ℕ)} {prices : Finset U256} (h : ∀ e ∈ es, e.1 ∈ prices) :
    ∑ price ∈ prices, weight es price = totalWeight es := by
  induction es with
  | nil => exact Finset.sum_eq_zero fun _ _ => rfl
  | cons e es ih =>
    have hcons (price : U256) : weight (e :: es) price =
        (if e.1 = price then e.2 else 0) + weight es price := by
      simp only [weight, filter_cons, decide_eq_true_eq]
      split_ifs <;> simp
    obtain ⟨he, hes⟩ := forall_mem_cons.mp h
    simp only [hcons, Finset.sum_add_distrib, ih hes, Finset.sum_ite_eq, he, if_true]
    rw [totalWeight, totalWeight, map_cons, sum_cons]

theorem totalWeight_congr {es fs : List (U256 × ℕ)}
    (h : ∀ price, weight es price = weight fs price) : totalWeight es = totalWeight fs := by
  have hin (e : U256 × ℕ) (he : e ∈ es ++ fs) : e.1 ∈ ((es ++ fs).map Prod.fst).toFinset :=
    mem_toFinset.mpr (mem_map_of_mem he)
  rw [← sum_weight fun e he => hin e (mem_append_left fs he),
    ← sum_weight fun e he => hin e (mem_append_right es he)]
  exact Finset.sum_congr rfl fun price _ => h price

theorem weight_le (es : List (U256 × ℕ)) (price : U256) : weight es price ≤ totalWeight es :=
  (filter_sublist.map Prod.snd).sum_le_sum fun _ _ => Nat.zero_le _

namespace GasPrices

/-- The distribution has the weights of these entries. -/
structure Weighs (g : GasPrices) (es : List (U256 × ℕ)) : Prop where
  dist : ∀ price, (g.dist price).toNat = weight es price
  total : g.total.toNat = totalWeight es

variable {g : GasPrices} {es : List (U256 × ℕ)}

theorem dist_add_self (g : GasPrices) (price gu : U256) :
    (g.add price gu).dist price = g.dist price + gu := Function.update_self ..

theorem dist_add_of_ne (g : GasPrices) {price q : U256} (h : q ≠ price) (gu : U256) :
    (g.add price gu).dist q = g.dist q :=
  Function.update_of_ne h ..

theorem total_add (g : GasPrices) (price gu : U256) : (g.add price gu).total = g.total + gu := rfl

theorem Weighs.add (h : g.Weighs es) (price gu : U256)
    (hlt : totalWeight (es ++ [(price, gu.toNat)]) < 2 ^ 256) :
    (g.add price gu).Weighs (es ++ [(price, gu.toNat)]) := by
  have hle := weight_le es price
  rw [totalWeight_append] at hlt
  have hone : totalWeight [(price, gu.toNat)] = gu.toNat := by simp [totalWeight]
  constructor
  · intro q
    rw [weight_append]
    by_cases hq : q = price
    · subst hq
      have hone' : weight [(q, gu.toNat)] q = gu.toNat := by simp [weight]
      rw [dist_add_self, BitVec.toNat_add_of_lt (by rw [h.dist]; omega), h.dist, hone']
    · have hnone : weight [(price, gu.toNat)] q = 0 := by simp [weight, Ne.symm hq]
      rw [dist_add_of_ne g hq, h.dist, hnone, add_zero]
  · rw [totalWeight_append, total_add, BitVec.toNat_add_of_lt (by rw [h.total]; omega), h.total, hone]

theorem Weighs.addTransactions {receipts : List TransactionReceipt} {i : ℕ} {txs : List Transaction}
    (h : g.Weighs es) (hlen : receipts.length = i + txs.length)
    (hlt : totalWeight (es ++ (txs.map Transaction.gasPrice).zip
      ((receipts.drop i).map fun r => r.gasUsed.toNat)) < 2 ^ 256) :
    ∃ g', g.addTransactions receipts i txs = some g' ∧
      g'.Weighs (es ++ (txs.map Transaction.gasPrice).zip
        ((receipts.drop i).map fun r => r.gasUsed.toNat)) := by
  induction txs generalizing g es i with
  | nil =>
    refine ⟨g, rfl, ?_⟩
    rw [map_nil, zip_nil_left, append_nil]
    exact h
  | cons tx txs ih =>
    rw [length_cons] at hlen
    have hi : i < receipts.length := by omega
    rw [drop_eq_getElem_cons hi, map_cons, map_cons, zip_cons_cons, append_cons] at hlt ⊢
    have hadd := h.add tx.gasPrice receipts[i].gasUsed (by rw [totalWeight_append] at hlt; omega)
    obtain ⟨g', hg', hw⟩ := ih hadd (by omega) hlt
    refine ⟨g', ?_, hw⟩
    rw [GasPrices.addTransactions, List.getElem?_eq_getElem hi]
    exact hg'

end GasPrices

namespace PricedChain
variable {node : Node} {bc : PricedChain} {used : H256 → List U256} {p : H256}

def spent (bc : PricedChain) (used : H256 → List U256) (p : H256) : List (U256 × ℕ) :=
  ((bc.block p).map Transaction.gasPrice).zip ((used p).map BitVec.toNat)

/-- The prices with the gas up to each transaction, which is what the receipts say. -/
def counted (bc : PricedChain) (used : H256 → List U256) (p : H256) : List (U256 × ℕ) :=
  ((bc.block p).map Transaction.gasPrice).zip (totals 0 ((used p).map BitVec.toNat))

theorem totalWeight_zip {prices : List U256} {ns : List ℕ} (h : prices.length = ns.length) :
    totalWeight (prices.zip ns) = ns.sum := by
  rw [totalWeight, map_snd_zip h.ge]

theorem Executed.recorded (h : Executed node bc p (used p)) :
    (bc.block p).length = (used p).length ∧
      (bc.receipts p).map TransactionReceipt.gasUsed = totals 0 (used p) ∧
      (used p ≠ [] → (bc.info p).gasUsed = (used p).sum) := by
  rcases h.run with ⟨b₀, b, htxs, hreceipts, hrun, hblock, hbr, hgas⟩ | ⟨hused, hblock, hreceipts⟩
  · have hrec : Block.Recorded (used p) b :=
      hrun.recorded ⟨by rw [htxs]; rfl, by rw [hreceipts]; rfl⟩
    rw [← hblock, ← hbr, ← hgas]
    exact ⟨hrec.transactions, hrec.receipts, fun _ => hrec.gasUsed⟩
  · rw [hused, hblock, hreceipts]
    exact ⟨rfl, rfl, fun hne => absurd rfl hne⟩

theorem Executed.totalWeight_counted (h : Executed node bc p (used p)) :
    totalWeight (bc.counted used p) = (totals 0 ((used p).map BitVec.toNat)).sum := by
  apply totalWeight_zip
  rw [length_map, length_totals, length_map, h.recorded.1]

theorem Executed.weighs {g : GasPrices} {es : List (U256 × ℕ)} (h : Executed node bc p (used p))
    (hg : g.Weighs es) (hlt : totalWeight (es ++ bc.counted used p) < 2 ^ 256) :
    ∃ g', bc.addBlock node.H p g = some g' ∧ g'.Weighs (es ++ bc.counted used p) := by
  obtain ⟨hlen, hreceipts, -⟩ := h.recorded
  have hsum : ((used p).map BitVec.toNat).sum < 2 ^ 256 := by
    have hle := sum_le_sum_totals ((used p).map BitVec.toNat)
    rw [totalWeight_append, h.totalWeight_counted] at hlt
    omega
  have hnat : (bc.receipts p).map (fun r => r.gasUsed.toNat) =
    totals 0 ((used p).map BitVec.toNat) := by
    rw [← (map_toNat_totals hsum).1, ← hreceipts, map_map]
    rfl
  by_cases hroot : (bc.info p).transactionsRoot ≠ node.H.emptyTrie
  · rw [addBlock, if_pos hroot, h.hash]
    rw [counted, ← hnat] at hlt ⊢
    refine hg.addTransactions ?_ hlt
    rw [Nat.zero_add, hlen, ← length_totals 0 (used p), ← hreceipts, length_map]
  · have hempty : bc.block p = [] := by
      by_contra hne
      exact hroot (h.transactionsRoot hne)
    refine ⟨g, if_neg hroot, ?_⟩
    rw [counted, hempty, map_nil, zip_nil_left, append_nil]
    exact hg

theorem updateLoop_weighs {c : ℕ} {g : GasPrices} {es : List (U256 × ℕ)} (hg : g.Weighs es)
    (hrun : ∀ q ∈ bc.window c p, Executed node bc q (used q))
    (hlt : totalWeight (es ++ (bc.window c p).flatMap (bc.counted used)) < 2 ^ 256) :
    ∃ g', bc.updateLoop node.H c p g = some g' ∧
    g'.Weighs (es ++ (bc.window c p).flatMap (bc.counted used)) := by
  induction c generalizing p g es with
  | zero =>
    refine ⟨g, rfl, ?_⟩
    rwa [window, flatMap_nil, append_nil]
  | succ c ih =>
    by_cases hp : p = 0
    · rw [window, if_pos hp, flatMap_nil, append_nil]
      refine ⟨g, ?_, hg⟩
      rw [updateLoop, if_pos hp]
    · rw [window, if_neg hp] at hrun hlt ⊢
      rw [flatMap_cons, ← append_assoc] at hlt ⊢
      have hblock := hrun p mem_cons_self
      obtain ⟨g₁, hg₁, hw₁⟩ := hblock.weighs hg (by rw [totalWeight_append] at hlt; omega)
      obtain ⟨g', hg', hw'⟩ := ih hw₁ (fun q hq => hrun q (mem_cons_of_mem p hq)) hlt
      refine ⟨g', ?_, hw'⟩
      rw [updateLoop, if_neg hp, hg₁]
      exact hg'

theorem totalWeight_flatMap {f : H256 → List (U256 × ℕ)} (ps : List H256) :
    totalWeight (ps.flatMap f) = (ps.map fun p => totalWeight (f p)).sum := by
  induction ps with
  | nil => rfl
  | cons p ps ih => rw [flatMap_cons, totalWeight_append, ih, map_cons, sum_cons]

theorem eq_of_sum_eq {f g : H256 → ℕ} {ps : List H256} (hle : ∀ p ∈ ps, f p ≤ g p)
    (h : (ps.map g).sum = (ps.map f).sum) : ∀ p ∈ ps, g p = f p := by
  induction ps with
  | nil => simp
  | cons p ps ih =>
    have hp := hle p mem_cons_self
    have hps : (ps.map f).sum ≤ (ps.map g).sum := sum_le_sum fun q hq => hle q (mem_cons_of_mem p hq)
    rw [map_cons, map_cons, sum_cons, sum_cons] at h
    rintro q (_ | ⟨_, hq⟩)
    · omega
    · exact ih (fun q hq => hle q (mem_cons_of_mem p hq)) (by omega) q hq

/-- The gas that a header names though its block has no transactions. -/
def unspent (bc : PricedChain) (used : H256 → List U256) (p : H256) : ℕ :=
  if used p = [] then (bc.info p).gasUsed.toNat else 0

theorem Executed.gasUsed (h : Executed node bc p (used p))
    (hlt : ((used p).map BitVec.toNat).sum < 2 ^ 256) :
    (bc.info p).gasUsed.toNat = ((used p).map BitVec.toNat).sum + bc.unspent used p := by
  unfold unspent
  by_cases hused : used p = []
  · rw [if_pos hused, hused, map_nil, sum_nil, zero_add]
  · rw [if_neg hused, h.recorded.2.2 hused, (map_toNat_totals hlt).2, add_zero]

/-- The weights are the gas that the transactions used, and their total is the gas of the headers,
exactly if in each block all transactions but the last used none, and a block without transactions
names none. -/
theorem update_iff (hrun : ∀ p ∈ bc.window 1000 bc.currentHash, Executed node bc p (used p))
    (hlt : ((bc.window 1000 bc.currentHash).map fun p =>
      (totals 0 ((used p).map BitVec.toNat)).sum).sum < 2 ^ 256) :
    ∃ g, bc.update node.H = some ((bc.info bc.currentHash).gasLimit, g) ∧
      (((∀ price, (g.dist price).toNat =
            weight ((bc.window 1000 bc.currentHash).flatMap (bc.spent used)) price) ∧
          g.total.toNat = ((bc.window 1000 bc.currentHash).map fun p => (bc.info p).gasUsed.toNat).sum) ↔
        ∀ p ∈ bc.window 1000 bc.currentHash, (∀ u ∈ (used p).dropLast, u = 0) ∧
          (used p = [] → (bc.info p).gasUsed = 0)) := by
  generalize hps : bc.window 1000 bc.currentHash = ps at hrun hlt ⊢
  have hcounted : totalWeight (ps.flatMap (bc.counted used)) =
      (ps.map fun p => (totals 0 ((used p).map BitVec.toNat)).sum).sum := by
    rw [totalWeight_flatMap]
    exact congrArg List.sum (map_congr_left fun p hp => (hrun p hp).totalWeight_counted)
  have hspent : totalWeight (ps.flatMap (bc.spent used)) =
      (ps.map fun p => ((used p).map BitVec.toNat).sum).sum := by
    rw [totalWeight_flatMap]
    exact congrArg List.sum (map_congr_left fun p hp =>
      totalWeight_zip (by rw [length_map, length_map, (hrun p hp).recorded.1]))
  have hheaders : (ps.map fun p => (bc.info p).gasUsed.toNat).sum =
      (ps.map fun p => ((used p).map BitVec.toNat).sum).sum + (ps.map (bc.unspent used)).sum := by
    rw [← sum_map_add]
    refine congrArg List.sum (map_congr_left fun p hp => (hrun p hp).gasUsed ?_)
    have hle := sum_le_sum_totals ((used p).map BitVec.toNat)
    have hmem := mem_map_of_mem (f := fun p => (totals 0 ((used p).map BitVec.toNat)).sum) hp
    have hone := single_le_sum (fun _ _ => Nat.zero_le _) _ hmem
    omega
  obtain ⟨g, hg, hw⟩ := @updateLoop_weighs node bc used bc.currentHash 1000 {} []
    ⟨fun _ => rfl, rfl⟩ (by rwa [hps]) (by rw [hps, nil_append, hcounted]; exact hlt)
  rw [hps, nil_append] at hw
  refine ⟨g, by rw [update, hg]; rfl, ?_⟩
  rw [hw.total, hcounted, hheaders]
  constructor
  · rintro ⟨hdist, htotal⟩ p hp
    have hsame := totalWeight_congr fun price => (hw.dist price).symm.trans (hdist price)
    rw [hcounted, hspent] at hsame
    constructor
    · intro u hu
      have hsum := eq_of_sum_eq (fun p _ => sum_le_sum_totals ((used p).map BitVec.toNat)) hsame p hp
      have hmem : u.toNat ∈ ((used p).map BitVec.toNat).dropLast := by
        rw [← map_dropLast]
        exact mem_map_of_mem hu
      exact BitVec.eq_of_toNat_eq (dropLast_eq_zero hsum _ hmem)
    · intro hused
      have hone := single_le_sum (fun _ _ => Nat.zero_le _) _ (mem_map_of_mem (f := bc.unspent used) hp)
      rw [unspent, if_pos hused] at hone
      have hzero : (bc.info p).gasUsed.toNat = (0 : U256).toNat := by
        change _ = 0
        omega
      exact BitVec.eq_of_toNat_eq hzero
  · intro hzero
    have htotals : ∀ p ∈ ps, totals 0 ((used p).map BitVec.toNat) = (used p).map BitVec.toNat := by
      intro p hp
      apply totals_of_dropLast
      rw [← map_dropLast]
      intro n hn
      obtain ⟨u, hu, rfl⟩ := mem_map.mp hn
      rw [(hzero p hp).1 u hu]
      rfl
    have hunspent : (ps.map (bc.unspent used)).sum = 0 := by
      refine sum_eq_zero fun n hn => ?_
      obtain ⟨p, hp, rfl⟩ := mem_map.mp hn
      unfold unspent
      split_ifs with hused
      · rw [(hzero p hp).2 hused]
        rfl
      · rfl
    have heq : ps.flatMap (bc.counted used) = ps.flatMap (bc.spent used) := by
      apply flatMap_congr
      intro p hp
      rw [counted, htotals p hp, spent]
    refine ⟨fun price => by rw [hw.dist, heq], ?_⟩
    rw [← hcounted, heq, hspent, hunspent, add_zero]

/-- Two blocks with the transactions of `b`, over a genesis block. -/
def twice (b : Block) : PricedChain where
  currentHash := 3
  info p := { exampleHeader with
    memo := p, parentHash := if p = 3 then 2 else if p = 2 then 1 else 0,
    gasUsed := if p = 1 then 0 else b.gasUsed }
  block p := if p = 1 then [] else b.transactions
  receipts p := if p = 1 then [] else b.receipts

theorem window_twice (b : Block) : (twice b).window 1000 (twice b).currentHash = [3, 2, 1] := rfl

theorem executed_twice {b : Block} {used : List U256}
    (h : Block.Executes exampleNode (exampleBlock [0]) used b) :
    ∀ p ∈ [3, 2, 1], Executed exampleNode (twice b) p (if p = 1 then [] else used) := by
  have hroot : (0 : H256) ≠ State.lengthHasher.emptyTrie := by decide +kernel
  simp only [mem_cons, not_mem_nil, or_false, forall_eq_or_imp, forall_eq]
  exact ⟨⟨rfl, fun _ => hroot, .inl ⟨_, b, rfl, rfl, h, rfl, rfl, rfl⟩⟩,
    ⟨rfl, fun _ => hroot, .inl ⟨_, b, rfl, rfl, h, rfl, rfl, rfl⟩⟩, rfl, fun _ => hroot,
    .inr ⟨rfl, rfl, rfl⟩⟩

/-- Blocks of one transaction are counted right. -/
theorem update_iff_single :
    ∃ e b, (Block.execute exampleNode (fun _ => []) (exampleTransaction 30000) .Committed).run
        (exampleBlock [0]) = .ok (e, b) ∧
      ∃ g, (twice b).update State.lengthHasher = some (100000, g) ∧
        g.total.toNat = b.gasUsed.toNat + b.gasUsed.toNat := by
  obtain ⟨⟨e, b⟩, hrun, hsmall⟩ : ∃ r, (Block.execute exampleNode (fun _ => [])
      (exampleTransaction 30000) .Committed).run (exampleBlock [0]) = .ok r ∧
        r.1.gasUsed (exampleTransaction 30000) < 2 ^ 32 := Except.exists_ok_and (by decide +kernel)
  have hsum (u : U256) (hu : u.toNat < 2 ^ 32) : (([3, 2, 1] : List H256).map fun p =>
      (totals 0 ((if p = 1 then [] else [u]).map BitVec.toNat)).sum).sum < 2 ^ 256 := by
    simp [totals]
    omega
  obtain ⟨g, hg, hiff⟩ := @update_iff exampleNode (twice b)
    (fun p => if p = 1 then [] else [e.gasUsed (exampleTransaction 30000)])
    (executed_twice (.accept _ _ .Committed .start hrun)) (hsum _ hsmall)
  refine ⟨e, b, hrun, g, hg, ?_⟩
  have htotal := (hiff.mpr fun p _ => ?_).2
  · rw [htotal, window_twice]
    exact Nat.add_zero _
  · by_cases hp : p = 1
    · subst hp
      exact ⟨by simp, fun _ => rfl⟩
    · rw [if_neg hp]
      simp

/-- Of two transactions in a block, which use 21000 each, the first is counted twice. -/
theorem update_counts_twice :
    (do
      let t₁ := exampleTransaction 30000
      let t₂ := { t₁ with nonce := 4 }
      let e₁ ← Block.execute exampleNode (fun _ => []) t₁ .Committed
      let e₂ ← Block.execute exampleNode (fun _ => []) t₂ .Committed
      let b ← get
      return ([e₁.gasUsed t₁, e₂.gasUsed t₂], (twice b).info 3 |>.gasUsed,
        ((twice b).update State.lengthHasher).map fun r => r.2.total) :
        Process Block (List U256 × U256 × Option U256)).run' (exampleBlock [0]) =
          .ok ([21000, 21000], 42000, some 126000) := by
  decide +kernel

end PricedChain
end Vapory
