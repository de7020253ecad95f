import Vapory.Executive.Executive

/-! `TransactionReceipt.h`, `TransactionReceipt.cpp` and `LogEntry.cpp`: what a block keeps of
an executed transaction. -/
namespace Vapory

/-- `h2048`. -/
abbrev LogBloom := BitVec 2048

/-- `contains`. -/
def bloomContains (a b : LogBloom) : Bool := a &&& b = b

/-- `ref()` of an address. -/
def addressBytes (a : Address) : Bytes :=
  (List.range 20).map fun i => UInt8.ofNat (a.toNat / 256 ^ (19 - i))

/-- `bloomPart<3, 256>`: three bits, each from two bytes at the front of the hash. -/
def bloomPart (h : H256) : LogBloom :=
  let bit (i : ℕ) : LogBloom := 1#2048 <<< (h.toNat / 256 ^ (30 - 2 * i) % 2048)
  bit 0 ||| bit 1 ||| bit 2

namespace LogEntry

def bloom (H : Hasher) (l : LogEntry) : LogBloom :=
  l.topics.foldl (fun ret t => ret ||| bloomPart (H.hash (Vvm.wordBytes t)))
    (bloomPart (H.hash (addressBytes l.address)))

def streamRLP (l : LogEntry) (s : RLPStream) : Except RLPError RLPStream := do
  let s ← s.appendList 3
  let s ← s.append (addressBytes l.address) false
  let s ← s.appendList l.topics.length
  let s ← l.topics.foldlM (fun s t => s.append (Vvm.wordBytes t) false) s
  s.append l.data false

end LogEntry

structure TransactionReceipt where
  statusCodeOrStateRoot : UInt8 ⊕ H256
  gasUsed : U256
  bloom : LogBloom
  log : List LogEntry

namespace TransactionReceipt

def new (H : Hasher) (statusCodeOrStateRoot : UInt8 ⊕ H256) (gasUsed : U256) (log : List LogEntry) :
    TransactionReceipt where
  statusCodeOrStateRoot := statusCodeOrStateRoot
  gasUsed := gasUsed
  bloom := log.foldl (fun ret l => ret ||| l.bloom H) 0
  log := log

def streamRLP (r : TransactionReceipt) (s : RLPStream) : Except RLPError RLPStream := do
  let s ← s.appendList 4
  let s ←
    match r.statusCodeOrStateRoot with
    | .inl status => s.appendInt status.toNat
    | .inr root => s.append (Vvm.wordBytes root) false
  let s ← s.appendInt r.gasUsed.toNat
  let s ← s.append ((List.range 256).map fun i => UInt8.ofNat (r.bloom.toNat / 256 ^ (255 - i))) false
  let s ← s.appendList r.log.length
  r.log.foldlM (fun s l => l.streamRLP s) s

end TransactionReceipt
end Vapory
