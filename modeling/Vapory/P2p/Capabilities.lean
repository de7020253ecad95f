import Mathlib.Algebra.BigOperators.Group.List.Basic
import Mathlib.Algebra.Ring.Nat
import Mathlib.Data.Prod.Lex
import Mathlib.Order.Nat
import Vapory.Base.RemoveIf

/-! `startPeerSession` of `Host.cpp` and `readPacket` of `Session.cpp`: what two hosts make of each
other's capabilities, and where a packet goes then. -/
namespace Vapory.P2p
open List

/-- `CapDesc`: a name, the least of which is the empty one, and a version. -/
abbrev CapDesc (N : Type) := N ×ₗ ℕ

def userPacket : ℕ := 0x10

/-- A host with its capabilities, which are the keys of `m_capabilities` in their order. -/
structure Host (N : Type) [LinearOrder N] where
  capabilities : List (CapDesc N)
  sorted : capabilities.Pairwise (· < ·)
  messageCount : CapDesc N → ℕ

/-- `m_capabilities` of a session, with the offsets of the packet ids. -/
abbrev Session (N : Type) := List (CapDesc N × ℕ)

/-- A pair that was moved away: the name is empty then. -/
def movedFrom {N : Type} [LinearOrder N] [OrderBot N] (c : CapDesc N) : CapDesc N :=
  toLex (⊥, (ofLex c).2)

namespace Host
variable {N : Type} [LinearOrder N] (h : Host N)

def haveCapability (c : CapDesc N) : Bool := c ∈ h.capabilities

/-- The predicate by which `startPeerSession` removes capabilities of the peer from `caps`. -/
def unwanted (caps : List (CapDesc N)) (r : CapDesc N) : Bool :=
  !h.haveCapability r ||
    caps.any fun o => (ofLex r).1 = (ofLex o).1 ∧ (ofLex r).2 < (ofLex o).2 ∧ h.haveCapability o

/-- The offsets of the capabilities, as `unsigned` numbers. -/
def assign : ℕ → List (CapDesc N) → Session N
  | _, [] => []
  | offset, c :: caps => (c, offset) :: assign ((offset + h.messageCount c) % 2 ^ 32) caps

/-- `readPacket`, with the capability that interprets the packet and the packet id that it gets.
There is none for the packets that the session interprets itself. The source compares with
`(int)m_idOffset`, which is negative for offsets from `2 ^ 31` on: such offsets are compared as they
are here. -/
def readPacket (session : Session N) (t : ℕ) : Option (CapDesc N × ℕ) :=
  if t < userPacket then none
  else (session.find? fun i => i.2 ≤ t ∧ t - i.2 < h.messageCount i.1).map fun i => (i.1, t - i.2)

/-- What comes of a packet whose first byte is `byte`: `checkPacket` lets those through that are RLP
for themselves. -/
def receive (session : Session N) (byte : ℕ) : Option (CapDesc N × ℕ) :=
  if 0x7f < byte then none else h.readPacket session byte

/-- `prep` of a capability: the first byte of its packet. -/
def packet (idOffset id : ℕ) : ℕ := (id + idOffset) % 2 ^ 8

section
variable [OrderBot N]

def negotiated (caps : List (CapDesc N)) : List (CapDesc N) :=
  compact movedFrom h.unwanted [] [] caps

/-- The session that `startPeerSession` starts with a peer which sent these capabilities. There is
none if the list is empty. -/
def startPeerSession (caps : List (CapDesc N)) : Session N :=
  h.assign userPacket (h.negotiated caps)

end

end Host

section
variable {N : Type} [LinearOrder N] {a b : Host N} {c : CapDesc N} {s t : ℕ}
  {caps : List (CapDesc N)}

/-- Both hosts have the capability, and of its name no higher version. -/
structure Highest (a b : Host N) (c : CapDesc N) : Prop where
  left : c ∈ a.capabilities
  right : c ∈ b.capabilities
  max : ∀ o ∈ a.capabilities, o ∈ b.capabilities → (ofLex o).1 = (ofLex c).1 →
    (ofLex o).2 ≤ (ofLex c).2

theorem Highest.symm (h : Highest a b c) : Highest b a c :=
  ⟨h.right, h.left, fun o hb ha => h.max o ha hb⟩

theorem unwanted_eq_false (a b : Host N) (hc : c ∈ b.capabilities) :
    a.unwanted b.capabilities c = false ↔ Highest a b c := by
  unfold Host.unwanted Host.haveCapability
  simp only [Bool.or_eq_false_iff, Bool.not_eq_false', decide_eq_true_eq, any_eq_false, not_and]
  constructor
  · rintro ⟨ha, hmax⟩
    exact ⟨ha, hc, fun o hoa hob hname => by
      by_contra hlt
      exact hmax o hob hname.symm (not_le.mp hlt) hoa⟩
  · intro h
    exact ⟨h.left, fun o hob hname hlt hoa => absurd (h.max o hoa hob hname.symm) (not_le.mpr hlt)⟩

theorem not_surpassed [OrderBot N] {x y z : CapDesc N} (hz : z < x) (hy : y = z ∨ y = movedFrom z) :
    ¬ ((ofLex x).1 = (ofLex y).1 ∧ (ofLex x).2 < (ofLex y).2) := by
  rintro ⟨hname, hlt⟩
  rw [Prod.Lex.lt_iff] at hz
  rcases hy with rfl | rfl
  · rcases hz with hz | hz
    · exact absurd hname hz.ne'
    · exact absurd hlt (not_lt.mpr hz.2.le)
  · have hbot : (ofLex x).1 = ⊥ := hname
    rcases hz with hz | hz
    · exact absurd (hbot ▸ hz) not_lt_bot
    · exact absurd hlt (not_lt.mpr hz.2.le)

theorem unwanted_append {front : List (CapDesc N)} (a : Host N) (c : CapDesc N) (rest : List (CapDesc N))
    (hfront : ∀ y ∈ front, ¬ ((ofLex c).1 = (ofLex y).1 ∧ (ofLex c).2 < (ofLex y).2)) :
    a.unwanted (front ++ rest) c = a.unwanted rest c := by
  have hany : (front.any fun o =>
      decide ((ofLex c).1 = (ofLex o).1 ∧ (ofLex c).2 < (ofLex o).2 ∧ a.haveCapability o)) = false := by
    rw [any_eq_false]
    intro o ho
    rw [decide_eq_true_eq]
    exact fun h => hfront o ho ⟨h.1, h.2.1⟩
  unfold Host.unwanted
  rw [any_append, hany, Bool.false_or]

/-- The peer's list is sorted, so that it does not matter that it is compacted while it is
searched. -/
theorem negotiated_eq [OrderBot N] (a b : Host N) :
    a.negotiated b.capabilities = b.capabilities.filter fun c => !a.unwanted b.capabilities c := by
  apply compact_eq_filter
  intro before x rest hl front hfront
  have hsorted := b.sorted
  rw [hl, pairwise_append] at hsorted
  have hbefore (z : CapDesc N) (hz : z ∈ before) : z < x := hsorted.2.2 z hz x mem_cons_self
  rw [hl, unwanted_append, unwanted_append]
  · intro y hy
    exact not_surpassed (hbefore y hy) (.inl rfl)
  · intro y hy
    obtain ⟨z, hz, hyz⟩ := hfront y hy
    exact not_surpassed (hbefore z hz) hyz

theorem mem_negotiated [OrderBot N] (a b : Host N) (c : CapDesc N) :
    c ∈ a.negotiated b.capabilities ↔ Highest a b c := by
  rw [negotiated_eq, mem_filter, Bool.not_eq_true']
  constructor
  · rintro ⟨hc, hwanted⟩
    exact (unwanted_eq_false a b hc).mp hwanted
  · intro h
    exact ⟨h.right, (unwanted_eq_false a b h.right).mpr h⟩

theorem sorted_negotiated [OrderBot N] (a b : Host N) :
    (a.negotiated b.capabilities).Pairwise (· < ·) := by
  rw [negotiated_eq]
  exact b.sorted.filter _

theorem negotiated_comm [OrderBot N] (a b : Host N) :
    a.negotiated b.capabilities = b.negotiated a.capabilities := by
  have hnodup (a b : Host N) : (a.negotiated b.capabilities).Nodup :=
    (sorted_negotiated a b).imp fun h => h.ne
  have hperm : (a.negotiated b.capabilities).Perm (b.negotiated a.capabilities) := by
    rw [perm_ext_iff_of_nodup (hnodup a b) (hnodup b a)]
    intro c
    rw [mem_negotiated, mem_negotiated]
    exact ⟨Highest.symm, Highest.symm⟩
  exact hperm.eq_of_pairwise (fun x y _ _ hxy hyx => absurd hxy hyx.asymm) (sorted_negotiated a b)
    (sorted_negotiated b a)

def Host.total (a : Host N) (caps : List (CapDesc N)) : ℕ := (caps.map a.messageCount).sum

@[simp] theorem total_nil (a : Host N) : a.total [] = 0 := rfl

@[simp] theorem total_cons (a : Host N) (c : CapDesc N) (caps : List (CapDesc N)) :
    a.total (c :: caps) = a.messageCount c + a.total caps := by
  unfold Host.total
  rw [map_cons, sum_cons]

theorem total_append (a : Host N) (caps caps' : List (CapDesc N)) :
    a.total (caps ++ caps') = a.total caps + a.total caps' := by
  unfold Host.total
  rw [map_append, sum_append]

/-- The capability whose range has the id `t`, where the ranges begin with `s` and are not cut to 32
bits. -/
def Host.owner (a : Host N) : ℕ → List (CapDesc N) → ℕ → Option (CapDesc N × ℕ)
  | _, [], _ => none
  | s, c :: caps, t =>
    if t < s + a.messageCount c then some (c, t - s) else owner a (s + a.messageCount c) caps t

/-- Up to 32 bits the first range that matches is the one that has the id. -/
theorem find_assign (a : Host N) (ht : t < 2 ^ 32) (hs : s ≤ t) (caps : List (CapDesc N)) :
    ((a.assign s caps).find? fun i => i.2 ≤ t ∧ t - i.2 < a.messageCount i.1).map
    (fun i => (i.1, t - i.2)) =
      a.owner s caps t := by
  induction caps generalizing s with
  | nil => rfl
  | cons c caps ih =>
    unfold Host.assign Host.owner
    rw [List.find?_cons]
    by_cases hlt : t < s + a.messageCount c
    · have hmatch : decide (s ≤ t ∧ t - s < a.messageCount c) = true := decide_eq_true ⟨hs, by omega⟩
      rewrite [if_pos hlt, hmatch]
      rfl
    · have hno : decide (s ≤ t ∧ t - s < a.messageCount c) = false := decide_eq_false fun h => by omega
      rw [if_neg hlt, hno, Nat.mod_eq_of_lt (by omega)]
      exact ih (by omega)

theorem owner_append (a : Host N) (before after : List (CapDesc N)) {id : ℕ}
    (hid : id < a.messageCount c) :
    a.owner s (before ++ c :: after) (s + a.total before + id) = some (c, id) := by
  induction before generalizing s with
  | nil =>
    rw [nil_append, Host.owner, total_nil, if_pos (by omega)]
    congr 2
    omega
  | cons x before ih =>
    rw [total_cons, cons_append, Host.owner, if_neg (by omega), ← ih (s := s + a.messageCount x)]
    congr 1
    omega

theorem exists_of_owner (a : Host N) {id : ℕ} (hs : s ≤ t) (h : a.owner s caps t = some (c, id)) :
    ∃ before after, caps = before ++ c :: after ∧ t = s + a.total before + id ∧
    id < a.messageCount c := by
  induction caps generalizing s with
  | nil => cases h
  | cons x caps ih =>
    unfold Host.owner at h
    split_ifs at h with hlt
    · obtain ⟨rfl, rfl⟩ := Prod.mk.inj (Option.some.inj h)
      exact ⟨[], caps, rfl, by rw [total_nil]; omega, by omega⟩
    · obtain ⟨before, after, rfl, ht, hid⟩ := ih (by omega) h
      refine ⟨x :: before, after, rfl, ?_, hid⟩
      rw [total_cons]
      omega

theorem isSome_owner (a : Host N) (hs : s ≤ t) (ht : t < s + a.total caps) :
    (a.owner s caps t).isSome := by
  induction caps generalizing s with
  | nil =>
    rw [total_nil] at ht
    omega
  | cons c caps ih =>
    unfold Host.owner
    split_ifs with hlt
    · rfl
    · rw [total_cons] at ht
      exact ih (by omega) (by omega)

theorem mem_assign (a : Host N) {o : ℕ} (hs : s < 2 ^ 32) : (c, o) ∈ a.assign s caps ↔
    ∃ before after, caps = before ++ c :: after ∧ o = (s + a.total before) % 2 ^ 32 := by
  induction caps generalizing s with
  | nil => simp [Host.assign]
  | cons x caps ih =>
    unfold Host.assign
    rw [mem_cons, ih (Nat.mod_lt _ (by decide))]
    constructor
    · rintro (he | ⟨before, after, rfl, rfl⟩)
      · obtain ⟨rfl, rfl⟩ := Prod.mk.inj he
        exact ⟨[], caps, rfl, by rw [total_nil, Nat.add_zero, Nat.mod_eq_of_lt hs]⟩
      · exact ⟨x :: before, after, rfl, by rw [total_cons]; omega⟩
    · rintro ⟨before, after, hcaps, rfl⟩
      cases before with
      | nil =>
        obtain ⟨rfl, rfl⟩ := List.cons.inj hcaps
        left
        rw [total_nil, Nat.add_zero, Nat.mod_eq_of_lt hs]
      | cons y before =>
        obtain ⟨rfl, rfl⟩ := List.cons.inj hcaps
        exact .inr ⟨before, after, rfl, by rw [total_cons]; omega⟩

theorem pairwise_assign (a : Host N) (caps : List (CapDesc N)) (h : s + a.total caps < 2 ^ 32) :
    (a.assign s caps).Pairwise fun i j => i.2 + a.messageCount i.1 ≤ j.2 := by
  induction caps generalizing s with
  | nil => exact .nil
  | cons c caps ih =>
    rw [total_cons] at h
    unfold Host.assign
    rw [Nat.mod_eq_of_lt (by omega)]
    refine .cons ?_ (ih (by omega))
    rintro ⟨d, o⟩ hd
    obtain ⟨before, after, rfl, rfl⟩ := (mem_assign a (by omega)).mp hd
    rw [total_append] at h
    rw [Nat.mod_eq_of_lt (by omega)]
    exact Nat.le_add_right _ _

theorem assign_congr {caps : List (CapDesc N)} (h : ∀ c ∈ caps, a.messageCount c = b.messageCount c)
    (s : ℕ) : a.assign s caps = b.assign s caps := by
  induction caps generalizing s with
  | nil => rfl
  | cons c caps ih =>
    unfold Host.assign
    rw [h c mem_cons_self, ih fun d hd => h d (mem_cons_of_mem c hd)]

theorem receive_congr {session : Session N}
    (h : ∀ i ∈ session, a.messageCount i.1 = b.messageCount i.1) (byte : ℕ) :
    a.receive session byte = b.receive session byte := by
  have hfind : (session.find? fun i => i.2 ≤ byte ∧ byte - i.2 < a.messageCount i.1) =
      session.find? fun i => i.2 ≤ byte ∧ byte - i.2 < b.messageCount i.1 := by
    induction session with
    | nil => rfl
    | cons i session ih =>
      rw [List.find?_cons, List.find?_cons, h i mem_cons_self, ih fun j hj => h j (mem_cons_of_mem i hj)]
  unfold Host.receive Host.readPacket
  rw [hfind]

theorem receive_packet_iff (a : Host N) {before after : List (CapDesc N)} {id : ℕ}
    (hnodup : (before ++ c :: after).Nodup) (hid : id < a.messageCount c) :
    a.receive (a.assign userPacket (before ++ c :: after))
    (Host.packet ((userPacket + a.total before) % 2 ^ 32) id) =
        some (c, id) ↔
      userPacket + a.total before + id < 0x80 := by
  have hpacket : Host.packet ((userPacket + a.total before) % 2 ^ 32) id =
    (userPacket + a.total before + id) % 2 ^ 8 := by
    unfold Host.packet
    omega
  have hread {t : ℕ} (ht : userPacket ≤ t) (hlt : t < 0x80) :
      a.receive (a.assign userPacket (before ++ c :: after)) t = a.owner userPacket
      (before ++ c :: after) t := by
    unfold Host.receive Host.readPacket
    rw [if_neg (by omega), if_neg (not_lt.mpr ht), find_assign a (by omega) ht]
  rw [hpacket]
  constructor
  · intro h
    have hle : (userPacket + a.total before + id) % 2 ^ 8 < 0x80 := by
      by_contra hlt
      unfold Host.receive at h
      rw [if_pos (by omega)] at h
      cases h
    have hge : userPacket ≤ (userPacket + a.total before + id) % 2 ^ 8 := by
      by_contra hlt
      unfold Host.receive Host.readPacket at h
      rw [if_neg (by omega), if_pos (not_le.mp hlt)] at h
      cases h
    rw [hread hge hle] at h
    obtain ⟨before', after', hcaps, ht, -⟩ := exists_of_owner a hge h
    -- there is only one place where the capability stands
    obtain ⟨-, hright, hdisjoint⟩ := nodup_append.mp hnodup
    have hbefore : c ∉ before := fun hc => hdisjoint c hc c mem_cons_self rfl
    have hafter : c ∉ after := (nodup_cons.mp hright).1
    obtain ⟨rfl, -⟩ := (append_cons_inj_of_notMem hbefore hafter).mp hcaps
    omega
  · intro h
    rw [Nat.mod_eq_of_lt (by omega), hread (by omega) h]
    exact owner_append a before after hid

end

section
variable {N : Type} [LinearOrder N] [OrderBot N] {a b : Host N}

def Host.sessionWith (a b : Host N) : Session N := a.startPeerSession b.capabilities

/-- The ranges of the packet ids follow one another, and every packet that a capability of `a` sends
comes to the same capability of `b` with the same id. -/
structure Conversant (a b : Host N) : Prop where
  disjoint : (a.sessionWith b).Pairwise fun i j => i.2 + a.messageCount i.1 ≤ j.2
  dispatched : ∀ c idOffset, (c, idOffset) ∈ a.sessionWith b → ∀ id < a.messageCount c,
    b.receive (b.sessionWith a) (Host.packet idOffset id) = some (c, id)

/-- Both ends have the same capabilities with the same offsets, the highest version of each name,
from `UserPacket` on. The packets get to them if all ids fit in seven bits. -/
theorem sessionWith_agree_iff (a b : Host N)
    (hcount : ∀ c ∈ a.capabilities, c ∈ b.capabilities → a.messageCount c = b.messageCount c) :
    a.sessionWith b = b.sessionWith a ∧
      (∀ c, (∃ idOffset, (c, idOffset) ∈ a.sessionWith b) ↔ Highest a b c) ∧
      (∀ i ∈ (a.sessionWith b).head?, i.2 = userPacket) ∧
      (Conversant a b ↔ userPacket + a.total (a.negotiated b.capabilities) ≤ 0x80) := by
  have hsame : a.sessionWith b = b.sessionWith a := by
    unfold Host.sessionWith Host.startPeerSession
    rw [← negotiated_comm a b]
    apply assign_congr
    intro c hc
    have hhighest := (mem_negotiated a b c).mp hc
    exact hcount c hhighest.left hhighest.right
  have hmem (c : CapDesc N) (idOffset : ℕ) : (c, idOffset) ∈ a.sessionWith b ↔ ∃ before after,
      a.negotiated b.capabilities = before ++ c :: after ∧
      idOffset = (userPacket + a.total before) % 2 ^ 32 :=
    mem_assign a (by decide)
  have hnodup : (a.negotiated b.capabilities).Nodup := (sorted_negotiated a b).imp fun h => h.ne
  have hreceive (byte : ℕ) : b.receive (b.sessionWith a) byte = a.receive (a.sessionWith b) byte := by
    rw [← hsame]
    apply receive_congr
    rintro ⟨c, idOffset⟩ hc
    obtain ⟨before, after, hcaps, -⟩ := (hmem c idOffset).mp hc
    have hhighest := (mem_negotiated a b c).mp (hcaps ▸ mem_append_right before mem_cons_self)
    exact (hcount c hhighest.left hhighest.right).symm
  refine ⟨hsame, ?_, ?_, ?_, ?_⟩
  · intro c
    rw [← mem_negotiated]
    constructor
    · rintro ⟨idOffset, hc⟩
      obtain ⟨before, after, hcaps, -⟩ := (hmem c idOffset).mp hc
      rw [hcaps]
      exact mem_append_right before mem_cons_self
    · intro hc
      obtain ⟨before, after, hcaps⟩ := append_of_mem hc
      exact ⟨_, (hmem c _).mpr ⟨before, after, hcaps, rfl⟩⟩
  · intro i hi
    unfold Host.sessionWith Host.startPeerSession at hi
    cases hcaps : a.negotiated b.capabilities with
    | nil =>
      rw [hcaps] at hi
      cases hi
    | cons c caps =>
      rw [hcaps] at hi
      cases hi
      rfl
  · intro h
    by_contra hlt
    -- the capability with the id `0x80`
    have hsome := isSome_owner a (show userPacket ≤ 0x80 by decide) (not_le.mp hlt)
    obtain ⟨⟨c, id⟩, howner⟩ := Option.isSome_iff_exists.mp hsome
    obtain ⟨before, after, hcaps, ht, hid⟩ := exists_of_owner a (by decide) howner
    have hsent := h.dispatched c _ ((hmem c _).mpr ⟨before, after, hcaps, rfl⟩) id hid
    rw [hreceive, Host.sessionWith, Host.startPeerSession, hcaps,
      receive_packet_iff a (hcaps ▸ hnodup) hid] at hsent
    omega
  · intro h
    refine ⟨pairwise_assign a _ (by omega), ?_⟩
    intro c idOffset hc id hid
    obtain ⟨before, after, hcaps, rfl⟩ := (hmem c idOffset).mp hc
    rw [hreceive, Host.sessionWith, Host.startPeerSession, hcaps, receive_packet_iff a (hcaps ▸ hnodup) hid]
    rw [hcaps, total_append, total_cons] at h
    omega

end

def exampleHost (messages : ℕ) : Host ℕ :=
  ⟨[toLex (1, 63)], pairwise_singleton _ _, fun _ => messages⟩

def exampleOther (messages : ℕ) : Host ℕ :=
  ⟨[toLex (1, 62), toLex (1, 63), toLex (2, 1)], by decide, fun _ => messages⟩

theorem conversant_example : (exampleHost 17).sessionWith (exampleOther 17) =
    [(toLex (1, 63), 16)] ∧ Conversant (exampleHost 17) (exampleOther 17) :=
  ⟨by decide, (sessionWith_agree_iff (exampleHost 17) (exampleOther 17) fun _ _ _ => rfl).2.2.2.mpr
    (by decide)⟩

/-- The last of 113 messages has the id `0x80`, and its packet is refused. -/
theorem packet_refused : (exampleHost 113).sessionWith (exampleOther 113) = [(toLex (1, 63), 16)] ∧
    (exampleOther 113).receive ((exampleOther 113).sessionWith (exampleHost 113))
    (Host.packet 16 111) =
      some (toLex (1, 63), 111) ∧
    (exampleOther 113).receive ((exampleOther 113).sessionWith (exampleHost 113))
    (Host.packet 16 112) = none := by
  decide

end Vapory.P2p
