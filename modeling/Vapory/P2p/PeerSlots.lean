import Mathlib.Algebra.Group.Int.Defs
import Mathlib.Data.Int.Order.Basic
import Mathlib.Tactic.Common

/-! `Host::run` of `Host.cpp`: the peers that a host connects to in one turn. -/
namespace Vapory.P2p
open List

inductive PeerType where
  | Optional
  | Required
deriving DecidableEq

/-- `Peer`, with `shouldReconnect` at the time of the turn. -/
structure Peer (I : Type) where
  id : I
  peerType : PeerType
  shouldReconnect : Bool
deriving DecidableEq

/-- What `Host::run` reads of a host. -/
structure HostState (I : Type) where
  isRunning : Bool
  /-- `m_netPrefs.pin`. -/
  pin : Bool
  idealPeerCount : BitVec 32
  peers : List (Peer I)
  /-- The sessions that are alive, with `isConnected`. -/
  sessions : List (I × Bool)
  nodeTable : List I
  pendingPeerConns : List I

namespace HostState
variable {I : Type} [DecidableEq I] (s : HostState I)

def havePeerSession (id : I) : Bool := s.sessions.any fun n => n.1 = id

def peerCount : ℕ := s.sessions.countP fun n => n.2

/-- `connect`, up to the socket. -/
def connect (p : Peer I) : HostState I :=
  if !s.isRunning || s.havePeerSession p.id then s
  else if p.id ∉ s.nodeTable ∧ p.peerType = .Optional then s
  else if p.id ∈ s.pendingPeerConns then s
  else { s with pendingPeerConns := p.id :: s.pendingPeerConns }

/-- The required peers that are connected, as `reqConn` counts them. -/
def connected : List (Peer I) :=
  s.peers.filter fun p => s.havePeerSession p.id && p.peerType = .Required

def toConnect : List (Peer I) :=
  s.peers.filter fun p =>
    !s.havePeerSession p.id && p.shouldReconnect && (!s.pin || p.peerType = .Required)

/-- The loop over the required peers: the host, `reqConn` and the calls of `connect`. -/
def connectRequired : List (Peer I) → HostState I → BitVec 32 → HostState I × BitVec 32 × List (Peer I)
  | [], s, reqConn => (s, reqConn, [])
  | p :: ps, s, reqConn =>
    if p.peerType = .Required then
      if reqConn < s.idealPeerCount then
        let (s, reqConn, calls) := connectRequired ps (s.connect p) (reqConn + 1)
        (s, reqConn, p :: calls)
      else connectRequired ps s (reqConn + 1)
    else connectRequired ps s reqConn

/-- The loop over the optional peers. The value of `openSlots` is looked at before it goes down. -/
def connectOptional : List (Peer I) → HostState I → ℤ → HostState I × List (Peer I)
  | [], s, _ => (s, [])
  | p :: ps, s, openSlots =>
    if p.peerType = .Optional then
      if openSlots ≠ 0 then
        let (s, calls) := connectOptional ps (s.connect p) (openSlots - 1)
        (s, p :: calls)
      else connectOptional ps s (openSlots - 1)
    else connectOptional ps s openSlots

/-- `openSlots`: a `size_t` that is converted to `int`. -/
def openSlots (reqConn : BitVec 32) : ℤ :=
  ((s.idealPeerCount.setWidth 64 - .ofNat 64 s.peerCount - .ofNat 64
    s.pendingPeerConns.length + reqConn.setWidth 64).setWidth 32).toInt

/-- The state and `reqConn` when the required peers were gone through, and the calls for them. -/
def required : HostState I × BitVec 32 × List (Peer I) :=
  connectRequired s.toConnect s (.ofNat 32 s.connected.length)

/-- The host after a turn, and the peers that `connect` was called for. -/
def run : HostState I × List (Peer I) :=
  if s.isRunning then
    let (t, reqConn, calls) := s.required
    if s.pin then (t, calls)
    else if 0 < t.openSlots reqConn then
      let (t, more) := connectOptional s.toConnect t (t.openSlots reqConn)
      (t, calls ++ more)
    else (t, calls)
  else (s, [])

/-- The calls of `connect` for optional peers in a turn. -/
def optionalCalls : List (Peer I) := s.run.2.filter fun p => p.peerType = .Optional

def candidates : List (Peer I) := s.toConnect.filter fun p => p.peerType = .Optional

/-- The free slots as an integer, once the required peers were gone through. -/
def freeSlots : ℤ :=
  s.required.1.idealPeerCount.toNat - s.required.1.peerCount - s.required.1.pendingPeerConns.length + s.required.2.1.toNat

theorem connectOptional_optional (ps : List (Peer I)) (s : HostState I) (k : ℤ) :
    ∀ p ∈ (connectOptional ps s k).2, p.peerType = .Optional := by
  induction ps generalizing s k with
  | nil => exact fun p hp => absurd hp not_mem_nil
  | cons q ps ih =>
    intro p hp
    by_cases hq : q.peerType = .Optional
    · by_cases hk : k ≠ 0
      · rw [connectOptional, if_pos hq, if_pos hk] at hp
        obtain rfl | hp := mem_cons.mp hp
        · exact hq
        · exact ih _ _ p hp
      · rw [connectOptional, if_pos hq, if_neg hk] at hp
        exact ih _ _ p hp
    · rw [connectOptional, if_neg hq] at hp
      exact ih _ _ p hp

theorem connectRequired_required (ps : List (Peer I)) (s : HostState I) (reqConn : BitVec 32) :
    ∀ p ∈ (connectRequired ps s reqConn).2.2, p.peerType = .Required := by
  induction ps generalizing s reqConn with
  | nil => exact fun p hp => absurd hp not_mem_nil
  | cons q ps ih =>
    intro p hp
    by_cases hq : q.peerType = .Required
    · by_cases hk : reqConn < s.idealPeerCount
      · rw [connectRequired, if_pos hq, if_pos hk] at hp
        obtain rfl | hp := mem_cons.mp hp
        · exact hq
        · exact ih _ _ p hp
      · rw [connectRequired, if_pos hq, if_neg hk] at hp
        exact ih _ _ p hp
    · rw [connectRequired, if_neg hq] at hp
      exact ih _ _ p hp

theorem length_connectOptional (ps : List (Peer I)) (s : HostState I) (k : ℤ) :
    ((connectOptional ps s k).2.length : ℤ) =
      if 0 ≤ k ∧ k < (ps.filter fun p => p.peerType = .Optional).length then (ps.filter fun p =>
        p.peerType = .Optional).length - 1
      else (ps.filter fun p => p.peerType = .Optional).length := by
  induction ps generalizing s k with
  | nil =>
    rw [connectOptional, filter_nil, if_neg (by simp)]
  | cons p ps ih =>
    by_cases hp : p.peerType = .Optional
    · rw [filter_cons_of_pos (by simpa using hp), length_cons]
      by_cases hk : k ≠ 0
      · rw [connectOptional, if_pos hp, if_pos hk]
        have hrest := ih (s.connect p) (k - 1)
        split_ifs at hrest ⊢ <;> simp only [length_cons] <;> omega
      · rw [connectOptional, if_pos hp, if_neg hk, ih]
        split_ifs <;> omega
    · rw [filter_cons_of_neg (by simpa using hp), connectOptional, if_neg hp, ih]

omit [DecidableEq I] in
theorem openSlots_eq (reqConn : BitVec 32) {k : ℤ}
    (hk : k = s.idealPeerCount.toNat - s.peerCount - s.pendingPeerConns.length + reqConn.toNat)
    (hlow : -2 ^ 31 ≤ k) (hhigh : k < 2 ^ 31) : s.openSlots reqConn = k := by
  have hideal := s.idealPeerCount.isLt
  have hreq := reqConn.isLt
  rw [openSlots, BitVec.toInt_setWidth, Int.bmod]
  simp only [BitVec.toNat_add, BitVec.toNat_sub, BitVec.toNat_setWidth, BitVec.toNat_ofNat]
  omega

/-- The calls for optional peers are no more than the free slots, unless there is a slot and there
are at least two more optional peers than slots. -/
theorem optionalCalls_le_iff (s : HostState I) (hrun : s.isRunning = true)
    (hlow : -2 ^ 31 ≤ s.freeSlots) (hhigh : s.freeSlots < 2 ^ 31) :
    (s.optionalCalls.length : ℤ) ≤ max 0 s.freeSlots ↔
      s.pin = true ∨ s.freeSlots ≤ 0 ∨ (s.candidates.length : ℤ) ≤ s.freeSlots + 1 := by
  have hopen : s.required.1.openSlots s.required.2.1 = s.freeSlots := openSlots_eq _ _ rfl hlow hhigh
  have hnone : s.required.2.2.filter (fun p => p.peerType = .Optional) = [] := by
    refine filter_eq_nil_iff.mpr fun p hp => ?_
    rw [connectRequired_required _ _ _ p hp]
    decide
  rw [optionalCalls, run, if_pos hrun]
  dsimp only
  rw [hopen]
  by_cases hpin : s.pin = true
  · rw [if_pos hpin, hnone]
    simp only [hpin, true_or, iff_true]
    exact le_max_left ..
  · rw [if_neg hpin]
    by_cases hfree : 0 < s.freeSlots
    · have hall : ((connectOptional s.toConnect s.required.1 s.freeSlots).2.filter fun p =>
          p.peerType = .Optional) = (connectOptional s.toConnect s.required.1 s.freeSlots).2 :=
        filter_eq_self.mpr fun p hp => decide_eq_true (connectOptional_optional _ _ _ p hp)
      have hlength := length_connectOptional s.toConnect s.required.1 s.freeSlots
      rw [if_pos hfree, filter_append, hnone, hall, nil_append, hlength,
        max_eq_right (le_of_lt hfree), candidates]
      simp only [hpin, Bool.false_eq_true, false_or]
      split_ifs <;> omega
    · rw [if_neg hfree, hnone]
      simp only [not_lt.mp hfree, true_or, or_true, iff_true]
      exact le_max_left ..

/-- One free slot and three optional peers: two calls. -/
theorem optionalCalls_three :
    let peer := fun i : ℕ => (⟨i, .Optional, true⟩ : Peer ℕ)
    let s : HostState ℕ := ⟨true, false, 1, [peer 1, peer 2, peer 3], [], [1, 2, 3], []⟩
    s.freeSlots = 1 ∧ s.optionalCalls = [peer 1, peer 3] ∧
      ¬ (s.optionalCalls.length : ℤ) ≤ max 0 s.freeSlots := by
  decide +kernel

/-- One free slot and two optional peers. -/
theorem optionalCalls_le_two :
    let peer := fun i : ℕ => (⟨i, .Optional, true⟩ : Peer ℕ)
    let s : HostState ℕ := ⟨true, false, 1, [peer 1, peer 2], [], [1, 2], []⟩
    (s.optionalCalls.length : ℤ) ≤ max 0 s.freeSlots := by
  intro peer s
  exact (optionalCalls_le_iff s rfl (by decide +kernel) (by decide +kernel)).mpr
    (.inr (.inr (by decide +kernel)))

end HostState
end Vapory.P2p
