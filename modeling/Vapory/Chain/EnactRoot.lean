import Vapory.Block.GasUsed
import Vapory.Chain.Canonical
import Vapory.Chain.Enact

/-! A block that `enact` accepts, and the state that its transactions and its rewards make of the
parent's. -/
namespace Vapory
open Vapory.Except

namespace State
variable (node : Node)

def executeAll (info : BlockHeader) (lastHashes : H256 → List H256) : List Transaction → U256 →
    Process State U256
  | [], gasUsed => return gasUsed
  | t :: ts, gasUsed => do
    let r ← execute node (.ofHeader info lastHashes gasUsed) t .Committed
    executeAll info lastHashes ts r.2.gasUsed

def reward (info : BlockHeader) (uncles : List BlockHeader) : Process State Unit := do
  let blockReward := node.blockReward info.number
  uncles.forM fun u => uncaught
    (addBalance node.H u.author (Block.uncleReward blockReward info.number u.number))
  uncaught (addBalance node.H info.author (uncles.foldl (fun r _ => r + blockReward / 32) blockReward))
  node.commit (node.commitBehaviour info.number)

def transition (C : Crypto) (lastHashes : H256 → List H256) (block : VerifiedBlock) :
    Process State Unit := do
  let _ ← executeAll node block.info lastHashes
    (block.transactions.map fun t => t.toTransaction node.H C) 0
  reward node block.info block.uncles

end State

namespace Block
variable {node : Node} {C : Crypto} {lastHashes : H256 → List H256} {bc : BlockChain}
  {b b' b₁ : Block} {block : VerifiedBlock} {rewarded : List BlockHeader} {receipts : List Bytes}

theorem onState_bind {α β : Type} (m : Process State α) (f : α → Process State β) :
    onState (m >>= f) = onState m >>= fun a => onState (f a) := by
  unfold onState
  apply zoom_bind
  · intro _ _
    rfl
  · intro _ _ _
    rfl

theorem onState_forM {α : Type} (f : α → Process State PUnit) (l : List α) :
    onState (l.forM f) = l.forM fun a => onState (f a) := by
  induction l with
  | nil => exact zoom_pure (fun _ => rfl) _
  | cons a l ih =>
    change onState (f a >>= fun _ => l.forM f) = onState (f a) >>= fun _ => l.forM fun a => onState (f a)
    rw [onState_bind, ih]

theorem reward_run (uncles : List BlockHeader) (b : Block) :
    (node.reward uncles).run b = (onState (State.reward node b.currentBlock uncles)).run b := by
  simp only [Node.reward, applyRewards, State.reward, onState_bind, onState_forM, StateT.run_bind,
    StateT.run_get, bind_assoc]
  rfl

theorem ends_execute (hb : b.committedToSeal = false) (t : Transaction) :
    Ends (execute node lastHashes t .Committed) b fun e b' => ∃ receipt,
      (State.execute node (.ofHeader b.currentBlock lastHashes b.gasUsed) t .Committed).run
      b.state = .ok ((e, receipt), b'.state) ∧
      b' = { b with
        state := b'.state, transactions := b.transactions ++ [t],
        receipts := b.receipts ++ [receipt] } := by
  have hsame : b.uncommitToSeal = b := by
    unfold uncommitToSeal
    rw [hb]
    rfl
  unfold execute
  rw [ends_bind, ends_get]
  cases b.isSealed with
  | true => exact (ends_stop _).mpr trivial
  | false =>
    simp only [Bool.false_eq_true, if_false, ends_bind, ends_set, onState, ends_zoom, ends_modify,
      ends_pure, if_true, hsame]
    intro r s hr
    exact ⟨r.2, hr, rfl⟩

/-- What `playback` comes to, from a block that is not committed. -/
structure Played (node : Node) (C : Crypto) (lastHashes : H256 → List H256)
    (transactions : List TransactionBase) (b : Block) (receipts : List Bytes) (b' : Block) :
    Prop where
  state : (State.executeAll node b.currentBlock lastHashes
    (transactions.map fun t => t.toTransaction node.H C) b.gasUsed).run b.state =
    .ok (b'.gasUsed, b'.state)
  eq : b' = { b with state := b'.state, transactions := b'.transactions, receipts := b'.receipts }
  receipts : ∃ rs, b'.receipts = b.receipts ++ rs ∧ receipts = rs.map TransactionReceipt.rlp

theorem ends_playback (hb : b.committedToSeal = false) (transactions : List TransactionBase) :
    Ends (playback node C lastHashes transactions) b (Played node C lastHashes transactions b) := by
  unfold playback
  induction transactions generalizing b with
  | nil => exact (ends_pure _).mpr ⟨rfl, rfl, [], by simp, rfl⟩
  | cons t transactions ih =>
    rw [List.mapM_cons]
    simp only [ends_bind, ends_get, ends_pure]
    refine (ends_execute hb _).mono fun e b₁ h₁ => ?_
    obtain ⟨receipt, hstate, heq⟩ := h₁
    have hb₁ : b₁.committedToSeal = false := by rw [heq]; exact hb
    refine (ih hb₁).mono fun rest b₂ h₂ => ?_
    obtain ⟨rs, hrs, hrest⟩ := h₂.receipts
    have hreceipts : b₁.receipts = b.receipts ++ [receipt] := by rw [heq]
    refine ⟨?_, ?_, receipt :: rs, ?_, ?_⟩
    · have hrun := h₂.state
      have hcurrent : b₁.currentBlock = b.currentBlock := by rw [heq]
      have hused : b₁.gasUsed = receipt.gasUsed := by simp [gasUsed, hreceipts]
      rw [hcurrent, hused] at hrun
      simp only [List.map_cons, State.executeAll, StateT.run_bind, hstate]
      exact hrun
    · rw [h₂.eq, heq]
    · rw [hrs, hreceipts, List.append_assoc]
      rfl
    · simp [hreceipts, hrest]

theorem checkPlayback_eq_ok {uncles : List BlockHeader} :
    checkPlayback node bc b receipts uncles = .ok rewarded ↔
    orderedTrieRoot node.H receipts = b.currentBlock.receiptsRoot ∧
    b.currentBlock.logBloom = b.logBloom ∧ uncles.length ≤ 2 ∧
      checkUncles node.H bc b.currentBlock
      (b.currentBlock.hash node.H :: bc.allKinFrom node.H b.currentBlock.parentHash 6) uncles =
        .ok () ∧ uncles = rewarded := by
  simp only [checkPlayback, checkedUncles, guard_eq_ok, bind_eq_ok, not_not, not_lt, ne_eq]
  constructor
  · rintro ⟨hreceipts, hbloom, hlength, _, huncles, hrewarded⟩
    exact ⟨hreceipts, hbloom, hlength, huncles, Except.ok.inj hrewarded⟩
  · rintro ⟨hreceipts, hbloom, hlength, huncles, hrewarded⟩
    exact ⟨hreceipts, hbloom, hlength, (), huncles, congrArg Except.ok hrewarded⟩

/-- What the checks at the end ask for. A state root that is the parent's is not looked at. -/
theorem checkRewarded_eq_ok : checkRewarded node b = .ok () ↔
    (b.currentBlock.stateRoot = b.previousBlock.stateRoot ∨
      b.currentBlock.stateRoot = b.state.rootHash node.roots) ∧
      b.currentBlock.gasUsed = b.gasUsed := by
  simp only [checkRewarded, guard_eq_ok, not_and_or, not_not, ne_eq]
  apply and_congr_right
  intro _
  by_cases hgas : b.currentBlock.gasUsed = b.gasUsed
  · rw [if_neg (not_not.mpr hgas)]
    exact iff_of_true rfl hgas
  · rw [if_pos hgas]
    exact iff_of_false (by rintro ⟨⟩) hgas

/-- The way of a block through `enact`: `b` is the block that was reset, `b₁` the one after the
transactions and `b'` the one after the rewards. -/
structure Accepts (node : Node) (C : Crypto) (lastHashes : H256 → List H256) (bc : BlockChain)
    (block : VerifiedBlock) (b b₁ b' : Block) (receipts : List Bytes) : Prop where
  parentHash : b.currentBlock.parentHash = b.previousBlock.hash node.H
  playback : (playback node C lastHashes block.transactions).run
    { b with currentBlock := block.info } = .ok (receipts, b₁)
  checkPlayback : checkPlayback node bc b₁ receipts block.uncles = .ok block.uncles
  reward : (node.reward block.uncles).run b₁ = .ok ((), b')
  checkRewarded : checkRewarded node b' = .ok ()

theorem enactPlayback_eq_ok {d : U256} :
    (enactPlayback node bc block receipts).run b₁ = .ok (.ok d, b') ↔
    d = block.info.difficulty ∧ checkPlayback node bc b₁ receipts block.uncles = .ok block.uncles ∧
      (node.reward block.uncles).run b₁ = .ok ((), b') ∧ checkRewarded node b' = .ok () := by
  rw [run_eq_ok_iff, enactPlayback]
  simp only [returns_bind, returns_get]
  cases hplayed : checkPlayback node bc b₁ receipts block.uncles with
  | error e => simp
  | ok rewarded =>
    obtain rfl : block.uncles = rewarded := (checkPlayback_eq_ok.mp hplayed).2.2.2.2
    simp only [returns_bind, returns_get, true_and]
    constructor
    · rintro ⟨_, b₂, hreward, hrest⟩
      cases hchecked : checkRewarded node b₂ with
      | error e => simp [hchecked] at hrest
      | ok _ =>
        simp only [hchecked, returns_pure, Except.ok.injEq] at hrest
        obtain ⟨hd, rfl⟩ := hrest
        exact ⟨hd.symm, hreward, hchecked⟩
    · rintro ⟨hd, hreward, hchecked⟩
      refine ⟨(), b', hreward, ?_⟩
      simp [hchecked, hd]

theorem enact_eq_ok {d : U256} : (enact node C lastHashes bc block).run b = .ok (.ok d, b') ↔
    d = block.info.difficulty ∧
    ∃ b₁ receipts, Accepts node C lastHashes bc block b b₁ b' receipts := by
  rw [run_eq_ok_iff, enact]
  simp only [returns_bind, returns_get]
  by_cases hparent : b.currentBlock.parentHash = b.previousBlock.hash node.H
  · rw [if_neg (not_not.mpr hparent)]
    simp only [returns_bind, returns_set]
    constructor
    · rintro ⟨receipts, b₁, hplayback, hrest⟩
      obtain ⟨hd, hplayed, hreward, hchecked⟩ := enactPlayback_eq_ok.mp (run_eq_ok_iff.mpr hrest)
      exact ⟨hd, b₁, receipts, hparent, hplayback, hplayed, hreward, hchecked⟩
    · rintro ⟨hd, b₁, receipts, h⟩
      have hrest := enactPlayback_eq_ok.mpr ⟨hd, h.checkPlayback, h.reward, h.checkRewarded⟩
      exact ⟨receipts, b₁, h.playback, run_eq_ok_iff.mp hrest⟩
  · rw [if_pos hparent]
    simp only [returns_pure]
    constructor
    · rintro ⟨⟨⟩, _⟩
    · rintro ⟨_, _, _, h⟩
      exact absurd h.parentHash hparent

/-- The block is as `resetCurrent` leaves it. -/
structure Reset (b : Block) : Prop where
  receipts : b.receipts = []
  committedToSeal : b.committedToSeal = false

theorem Accepts.transition (hb : Reset b) (h : Accepts node C lastHashes bc block b b₁ b' receipts) :
    (State.transition node C lastHashes block).run b.state = .ok ((), b'.state) ∧
    b'.previousBlock = b.previousBlock ∧
      b'.currentBlock = block.info := by
  have hcommitted : ({ b with currentBlock := block.info } : Block).committedToSeal = false :=
    hb.committedToSeal
  have hplayed := ends_playback hcommitted block.transactions _ _ h.playback
  have hused : ({ b with currentBlock := block.info } : Block).gasUsed = 0 := by
    simp [gasUsed, hb.receipts]
  have hstate := hplayed.state
  rw [hused] at hstate
  have hcurrent : b₁.currentBlock = block.info := by rw [hplayed.eq]
  have hreward := h.reward
  rw [reward_run, hcurrent] at hreward
  obtain ⟨r, hr, hput⟩ :=
    bind_eq_ok.mp (show (State.reward node block.info block.uncles b₁.state >>= _) = _ from hreward)
  obtain ⟨_, s⟩ := r
  obtain rfl : { b₁ with state := s } = b' := congrArg Prod.snd (Except.ok.inj hput)
  refine ⟨?_, ?_, hcurrent⟩
  · unfold State.transition
    rw [StateT.run_bind, hstate]
    exact hr
  · rw [hplayed.eq]

/-- In every run of `enact` that returns, the state is the one that the transactions and the rewards
make of the parent's, and the header has its root just if it has not the root of the parent, or that
is the root of what they make. -/
theorem enact_stateRoot (hb : Reset b) {d : U256}
    (h : (enact node C lastHashes bc block).run b = .ok (.ok d, b')) :
    ∃ s, (State.transition node C lastHashes block).run b.state = .ok ((), s) ∧ b'.state = s ∧
      (block.info.stateRoot = b'.state.rootHash node.roots ↔
        block.info.stateRoot ≠ b.previousBlock.stateRoot ∨
          s.rootHash node.roots = b.previousBlock.stateRoot) := by
  obtain ⟨-, b₁, receipts, haccepts⟩ := enact_eq_ok.mp h
  obtain ⟨hstate, hprevious, hcurrent⟩ := haccepts.transition hb
  have hroot := (checkRewarded_eq_ok.mp haccepts.checkRewarded).1
  rw [hprevious, hcurrent] at hroot
  refine ⟨b'.state, hstate, rfl, ?_⟩
  constructor
  · intro heq
    by_cases hsame : block.info.stateRoot = b.previousBlock.stateRoot
    · exact .inr (heq.symm.trans hsame)
    · exact .inl hsame
  · intro hcases
    obtain hsame | hkept := hroot
    · obtain hdiffers | hunchanged := hcases
      · exact absurd hsame hdiffers
      · exact hsame.trans hunchanged.symm
    · exact hkept

/-- A node whose state root is the balance of the author. -/
def balanceNode : Node :=
  { exampleNode with
    roots := ⟨fun accounts => ((accounts 9).map fun a => a.balance).getD 0, fun root _ => root,
      fun _ => rfl⟩ }

/-- Account 1 sends 2 to the author. -/
def payment (nonce : U256) : TransactionBase :=
  { type := .MessageCall, nonce, value := 2, receiveAddress := 9, gas := 30000,
    vrs := some ⟨1, 1, 0⟩, cachedSender := 1 }

def paymentsBlock (stateRoot : H256) : VerifiedBlock :=
  ⟨{ exampleHeader with stateRoot, receiptsRoot := 0x53 <<< 248, gasUsed := 42000 },
    [payment 3, payment 4], [], []⟩

def emptyChain : BlockChain :=
  .opened State.lengthHasher ⟨{ exampleHeader with number := 0 }, [], [], []⟩ false false

def resetBlock : Block :=
  { exampleBlock [] with
    currentBlock := { exampleHeader with
      parentHash := ({ exampleHeader with number := 0 } : BlockHeader).hash State.lengthHasher } }

def enactPayments (stateRoot : H256) : Except Stop (Except BlockError U256 × Block) :=
  (enact balanceNode ⟨fun _ _ => ⟨0, 0, 0⟩, fun _ _ => 0⟩ (fun _ => []) emptyChain
    (paymentsBlock stateRoot)).run resetBlock

theorem enact_stateRoot_example :
    ∃ d b', enactPayments 0x4563918244f40004 = .ok (.ok d, b') ∧
      b'.state.rootHash balanceNode.roots = 0x4563918244f40004 := by
  obtain ⟨⟨r, b'⟩, hrun, hok⟩ :
      ∃ r, enactPayments 0x4563918244f40004 = .ok r ∧ r.1.toOption.isSome = true :=
    exists_ok_and (by decide +kernel)
  obtain ⟨d, rfl⟩ := exists_ok hok
  obtain ⟨s, -, -, hroot⟩ := enact_stateRoot ⟨rfl, rfl⟩ hrun
  exact ⟨d, b', hrun, (hroot.mpr (.inl (by decide))).symm⟩

/-- The author has the reward, but the root may be the one from before; another wrong root is
refused. -/
theorem enact_staleRoot :
    (∃ r, enactPayments 0 = .ok r ∧ r.1.toOption.isSome = true ∧
      (paymentsBlock 0).info.stateRoot ≠ r.2.state.rootHash balanceNode.roots) ∧
      ∃ r, enactPayments 1 = .ok r ∧ r.1 = .error .InvalidStateRoot := by
  refine ⟨exists_ok_and (by decide +kernel), ?_⟩
  exact exists_ok_and (by decide +kernel)

end Block
end Vapory
