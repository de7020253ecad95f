import Vapory.Block.TransactionReceipt

/-! `LogFilter.h` and `LogFilter.cpp`: which log entries a search or a watch asks for. -/
namespace Vapory

def earliestBlockHash : H256 := 1

def pendingBlockHash : H256 := 0

/-- `LogFilter`. The sets are lists here, in the order in which the code goes through them. -/
structure LogFilter where
  addresses : List Address := []
  topics : Fin 4 → List H256 := fun _ => []
  earliest : H256 := earliestBlockHash
  latest : H256 := pendingBlockHash
deriving DecidableEq

namespace LogFilter
variable (H : Hasher) (f : LogFilter)

def topicLists : List (List H256) := List.ofFn f.topics

/-- `append` of a set of hashes. -/
def appendTopics (s : RLPStream) (ts : List H256) : Except RLPError RLPStream := do
  let s ← s.appendList ts.length
  ts.foldlM (fun s t => s.append (Vvm.wordBytes t) false) s

def streamRLP (s : RLPStream) : Except RLPError RLPStream := do
  let s ← s.appendList 4
  let s ← s.appendList f.addresses.length
  let s ← f.addresses.foldlM (fun s a => s.append (addressBytes a) false) s
  let s ← s.appendList 4
  let s ← f.topicLists.foldlM appendTopics s
  let s ← s.append (Vvm.wordBytes f.earliest) false
  s.append (Vvm.wordBytes f.latest) false

def sha3 : Except RLPError H256 := do
  let s ← f.streamRLP {}
  return H.hash (← s.out)

def isRangeFilter : Bool := f.addresses.isEmpty && f.topicLists.all List.isEmpty

/-- What `shiftBloom<3>(sha3(_))` adds for an address. -/
def addressBloom (a : Address) : LogBloom := bloomPart (H.hash (addressBytes a))

def topicBloom (t : H256) : LogBloom := bloomPart (H.hash (Vvm.wordBytes t))

/-- `matches` of a bloom. -/
def matchesBloom (b : LogBloom) : Bool :=
  (f.addresses.isEmpty || f.addresses.any fun i => bloomContains b (addressBloom H i)) &&
    f.topicLists.all fun t => t.isEmpty || t.any fun i => bloomContains b (topicBloom H i)

/-- The test of one entry in `matches`. It lets an entry with as many topics as the position by,
whose topic there is then read behind the end of the vector: `past` is what stands there. -/
def matchesEntry (past : LogEntry → H256) (e : LogEntry) : Bool :=
  (f.addresses.isEmpty || f.addresses.contains e.address) &&
    (List.finRange 4).all fun i =>
      (f.topics i).isEmpty || !(e.topics.length < i.val || !(f.topics i).contains
        (e.topics.getD i.val (past e)))

/-- `matches` of a receipt. -/
def matches_ (past : LogEntry → H256) (m : TransactionReceipt) : List LogEntry :=
  if f.isRangeFilter then m.log else if f.matchesBloom H m.bloom then m.log.filter
    (f.matchesEntry past) else []

end LogFilter
end Vapory
