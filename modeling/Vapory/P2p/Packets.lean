import Vapory.Devcore.FixedHash
import Vapory.Devcore.RLPFields

/-! The packets of `NodeTable.h`: how they are written and signed, and the packets of neighbours
that answer a `FindNode`. -/
namespace Vapory.P2p
open RLPTree List RLPStream BigEndian

/-- `FixedHash<n>`. -/
abbrev FixedBytes (n : ℕ) := { b : Bytes // b.length = n }

inductive IPAddress where
  | v4 (bytes : FixedBytes 4)
  | v6 (bytes : FixedBytes 16)
deriving DecidableEq

structure NodeIPEndpoint where
  address : IPAddress
  udpPort : UInt16
  tcpPort : UInt16
deriving DecidableEq

structure Neighbour where
  endpoint : NodeIPEndpoint
  node : FixedBytes 64
deriving DecidableEq

inductive Packet where
  | PingNode (version : UInt32) (source destination : NodeIPEndpoint)
  | Pong (destination : NodeIPEndpoint)
  | FindNode (target : FixedBytes 64)
  | Neighbours (neighbours : List Neighbour)
deriving DecidableEq

structure DiscoveryDatagram where
  sourceid : FixedBytes 64
  echo : FixedBytes 32
  ts : UInt32
  packet : Packet
deriving DecidableEq

/-- `sign`, `recover` and `toPublic`; `recover` gives zero where it finds no key. -/
structure NodeCrypto (K : Type) where
  sign : K → Bytes → FixedBytes 65
  recover : FixedBytes 65 → Bytes → FixedBytes 64
  toPublic : K → FixedBytes 64

def protocolVersion : ℕ := 4

def IPAddress.toBytes : IPAddress → Bytes
  | v4 b => b.1
  | v6 b => b.1

namespace NodeIPEndpoint

/-- `streamRLP` with `StreamInline`. -/
def streamInline (e : NodeIPEndpoint) (s : RLPStream) : Except RLPError RLPStream := do
  let s ← s.append e.address.toBytes false
  let s ← s.appendInt e.udpPort.toNat
  s.appendInt e.tcpPort.toNat

def streamRLP (e : NodeIPEndpoint) (s : RLPStream) : Except RLPError RLPStream := do
  let s ← s.appendList 3
  e.streamInline s

end NodeIPEndpoint

def Neighbour.streamRLP (n : Neighbour) (s : RLPStream) : Except RLPError RLPStream := do
  let s ← s.appendList 4
  let s ← n.endpoint.streamInline s
  s.append n.node.1 false

namespace DiscoveryDatagram

def packetType (d : DiscoveryDatagram) : UInt8 :=
  match d.packet with
  | .PingNode .. => 1
  | .Pong .. => 2
  | .FindNode .. => 3
  | .Neighbours .. => 4

def streamRLP (d : DiscoveryDatagram) (s : RLPStream) : Except RLPError RLPStream :=
  match d.packet with
  | .PingNode _ source destination => do
    let s ← s.appendList 4
    let s ← s.appendInt protocolVersion
    let s ← source.streamRLP s
    let s ← destination.streamRLP s
    s.appendInt d.ts.toNat
  | .Pong destination => do
    let s ← s.appendList 3
    let s ← destination.streamRLP s
    let s ← s.append d.echo.1 false
    s.appendInt d.ts.toNat
  | .FindNode target => do
    let s ← s.appendList 2
    let s ← s.append target.1 false
    s.appendInt d.ts.toNat
  | .Neighbours neighbours => do
    let s ← s.appendList 2
    let s ← s.appendList neighbours.length
    let s ← neighbours.foldlM (fun s n => n.streamRLP s) s
    s.appendInt d.ts.toNat

def sealed {K : Type} (H : Hasher) (C : NodeCrypto K) (k : K) (rlpx : Bytes) : Bytes :=
  let signedRLPx := (C.sign k (H.sha3 rlpx)).1 ++ rlpx
  H.sha3 signedRLPx ++ signedRLPx

/-- `sign`, with the bytes that it leaves in `data`. -/
def sign {K : Type} (H : Hasher) (C : NodeCrypto K) (k : K) (d : DiscoveryDatagram) :
    Except RLPError Bytes := do
  let s ← appendRaw {} [d.packetType] 1
  let s ← d.streamRLP s
  let rlpx ← s.out
  return sealed H C k rlpx

end DiscoveryDatagram

/-! What is written, as trees. -/

def NodeIPEndpoint.items (e : NodeIPEndpoint) : List RLPTree :=
  [.leaf e.address.toBytes, intTree e.udpPort.toNat, intTree e.tcpPort.toNat]

def Neighbour.tree (n : Neighbour) : RLPTree := .list (n.endpoint.items ++ [.leaf n.node.1])

def DiscoveryDatagram.items (d : DiscoveryDatagram) : List RLPTree :=
  match d.packet with
  | .PingNode _ source destination =>
    [intTree protocolVersion, .list source.items, .list destination.items, intTree d.ts.toNat]
  | .Pong destination => [.list destination.items, .leaf d.echo.1, intTree d.ts.toNat]
  | .FindNode target => [.leaf target.1, intTree d.ts.toNat]
  | .Neighbours neighbours => [.list (neighbours.map Neighbour.tree), intTree d.ts.toNat]

theorem digits_length_le_four {i : ℕ} (h : i < 2 ^ 32) : (digits i).length ≤ 4 :=
  (digits_length_le_iff i 4).mpr h

theorem NodeIPEndpoint.streamInline_eq (e : NodeIPEndpoint) (s : RLPStream) :
    e.streamInline s = s.appendTrees e.items := by
  have hudp : e.udpPort.toNat < 256 ^ 32 := e.udpPort.toNat_lt.trans (by norm_num)
  have htcp : e.tcpPort.toNat < 256 ^ 32 := e.tcpPort.toNat_lt.trans (by norm_num)
  simp only [streamInline, items, appendTrees, appendInt_eq _ hudp,
    appendInt_eq _ htcp]
  exact bind_congr fun s => bind_congr fun s => (bind_pure _).symm

theorem NodeIPEndpoint.streamRLP_eq (e : NodeIPEndpoint) (s : RLPStream) :
    e.streamRLP s = s.appendTree (.list e.items) := by
  rw [appendTree]
  exact bind_congr fun s => e.streamInline_eq s

theorem Neighbour.streamRLP_eq (n : Neighbour) (s : RLPStream) :
    n.streamRLP s = s.appendTree n.tree := by
  rw [Neighbour.tree, appendTree]
  refine bind_congr fun s => ?_
  rw [appendTrees_append, n.endpoint.streamInline_eq]
  refine bind_congr fun s => ?_
  rw [appendTrees_singleton, appendTree]

theorem DiscoveryDatagram.streamRLP_eq (d : DiscoveryDatagram) (s : RLPStream) :
    d.streamRLP s = s.appendTree (.list d.items) := by
  have hts : ∀ s : RLPStream, s.appendInt d.ts.toNat = s.appendTrees [intTree d.ts.toNat] := fun s =>
    (s.appendInt_eq (d.ts.toNat_lt.trans (by norm_num))).trans (s.appendTrees_singleton _).symm
  have hversion : ∀ s : RLPStream, s.appendInt protocolVersion = s.appendTree
    (intTree protocolVersion) := fun s =>
    s.appendInt_eq (by decide)
  obtain ⟨sourceid, echo, ts, packet⟩ := d
  rw [appendTree]
  cases packet with
  | PingNode version source destination =>
    simp only [streamRLP, items, hversion, hts, NodeIPEndpoint.streamRLP_eq, appendTrees]
    rfl
  | Pong destination =>
    simp only [streamRLP, items, hts, NodeIPEndpoint.streamRLP_eq, appendTrees,
      appendTree]
    rfl
  | FindNode target =>
    simp only [streamRLP, items, hts, appendTrees, appendTree]
    rfl
  | Neighbours neighbours =>
    simp only [streamRLP, items, hts, Neighbour.streamRLP_eq, ← appendTrees_map]
    refine bind_congr fun s => ?_
    rw [appendTrees, appendTree, length_map, bind_assoc]

variable {d : DiscoveryDatagram} {K : Type}

theorem DiscoveryDatagram.sign_eq (H : Hasher) (C : NodeCrypto K) (k : K) (d : DiscoveryDatagram)
    (h : (encode (.list d.items)).length < 256 ^ 8) :
    d.sign H C k = .ok (sealed H C k (d.packetType :: encode (.list d.items))) := by
  have hraw : appendRaw {} [d.packetType] 1 = .ok ⟨[d.packetType], []⟩ := rfl
  rw [sign, hraw, Except.ok_bind, d.streamRLP_eq, appendTree_eq _ _ (fits_of_length _ h)]
  rfl

theorem DiscoveryDatagram.length_sealed (H : Hasher) (C : NodeCrypto K) (k : K) (rlpx : Bytes) :
    (sealed H C k rlpx).length = 97 + rlpx.length := by
  rw [sealed, length_append, H.size, length_append, (C.sign k _).2]
  omega

/-! Sizes. -/

def intSize (i : ℕ) : ℕ := if i < 0x80 then 1 else 1 + (digits i).length

def Neighbour.size (n : Neighbour) : ℕ :=
  2 + (1 + n.endpoint.address.toBytes.length) + intSize n.endpoint.udpPort.toNat + intSize
    n.endpoint.tcpPort.toNat + 66

theorem length_intTree {i : ℕ} (h : i < 2 ^ 32) : (encode (intTree i)).length = intSize i := by
  have hlen := digits_length_le_four h
  rw [intTree, encode_leaf, intSize]
  by_cases h0 : i = 0
  · rw [h0, if_pos (by norm_num)]
    rfl
  · by_cases hlt : i < 0x80
    · rw [encodeLeaf_digits_of_lt h0 hlt, if_pos hlt, length_singleton]
    · rw [encodeLeaf_digits_of_le (by omega), if_neg hlt, length_append,
        RLP.length_header, if_pos (by omega)]

theorem length_encodeLeaf_of_lt {b : Bytes} (h : 1 < b.length) :
    (encodeLeaf b).length = (header 0x80 b.length).length + b.length := by
  rw [encodeLeaf, if_neg (fun hb => by omega), length_append]

theorem length_header_of_lt {start m : ℕ} (h : m < 65536) :
    (header start m).length = if m < 56 then 1 else if m < 256 then 2 else 3 := by
  have hone := digits_length_le_iff m 1
  have htwo := (digits_length_le_iff m 2).mpr h
  have hpos := @RLP.digits_length_pos m
  rw [RLP.length_header]
  split_ifs <;> omega

theorem length_toBytes (a : IPAddress) : a.toBytes.length = 4 ∨ a.toBytes.length = 16 := by
  cases a with
  | v4 b => exact .inl b.2
  | v6 b => exact .inr b.2

theorem intSize_le {i k : ℕ} (h : i < 256 ^ k) (hk : 0 < k) : 1 ≤ intSize i ∧ intSize i ≤ 1 + k := by
  have := (digits_length_le_iff i k).mpr h
  rw [intSize]
  split_ifs <;> omega

theorem Neighbour.size_bounds (n : Neighbour) : 75 ≤ n.size ∧ n.size ≤ 91 := by
  have hudp := intSize_le (k := 2) n.endpoint.udpPort.toNat_lt (by norm_num)
  have htcp := intSize_le (k := 2) n.endpoint.tcpPort.toNat_lt (by norm_num)
  have haddress := length_toBytes n.endpoint.address
  rw [Neighbour.size]
  omega

theorem NodeIPEndpoint.length_items (e : NodeIPEndpoint) :
    (encodeItems e.items).length = 1 + e.address.toBytes.length + intSize e.udpPort.toNat + intSize
    e.tcpPort.toNat := by
  have hudp : e.udpPort.toNat < 2 ^ 32 := e.udpPort.toNat_lt.trans (by norm_num)
  have htcp : e.tcpPort.toNat < 2 ^ 32 := e.tcpPort.toNat_lt.trans (by norm_num)
  have haddress := length_toBytes e.address
  have hleaf : (encodeLeaf e.address.toBytes).length = 1 + e.address.toBytes.length := by
    rw [length_encodeLeaf_of_lt (by omega), length_header_of_lt (by omega), if_pos (by omega)]
  simp only [items, encodeItems_cons, encodeItems_nil, length_append, encode_leaf, hleaf,
    length_intTree hudp, length_intTree htcp, length_nil]
  omega

theorem encodeItems_append (ts us : List RLPTree) :
    encodeItems (ts ++ us) = encodeItems ts ++ encodeItems us := by
  rw [encodeItems_eq_flatten, encodeItems_eq_flatten, encodeItems_eq_flatten, map_append,
    flatten_append]

theorem Neighbour.length_tree (n : Neighbour) : (encode n.tree).length = n.size := by
  have hbounds := n.size_bounds
  have hnode : (encodeLeaf n.node.1).length = 66 := by
    rw [length_encodeLeaf_of_lt (by rw [n.node.2]; norm_num), n.node.2]
    rfl
  have hitems : (encodeItems (n.endpoint.items ++ [.leaf n.node.1])).length + 2 = n.size := by
    rw [encodeItems_append, length_append, n.endpoint.length_items, encodeItems_cons,
      encodeItems_nil, encode_leaf, append_nil, hnode, Neighbour.size]
    omega
  rw [Neighbour.tree, encode_list, length_append, length_header_of_lt (by omega), if_neg (by omega),
    if_pos (by omega)]
  omega

theorem length_trees (ns : List Neighbour) :
    (encodeItems (ns.map Neighbour.tree)).length = (ns.map Neighbour.size).sum := by
  induction ns with
  | nil => simp
  | cons n ns ih =>
    rw [map_cons, encodeItems_cons, length_append, n.length_tree, ih, map_cons, sum_cons]

/-! The answer to a `FindNode`. -/

/-- The most neighbours in a packet, with `maxDatagramSize` of 1280 bytes. -/
def nlimit : ℕ := (1280 - 109) / 90

/-- The constructor of `Neighbours` from nodes. -/
def neighbours (nearest : List Neighbour) (offset limit : ℕ) (ts : UInt32) : DiscoveryDatagram :=
  let limit := if limit ≠ 0 then min nearest.length (offset + limit) else nearest.length
  ⟨⟨List.replicate 64 0, rfl⟩, ⟨List.replicate 32 0, rfl⟩, ts,
    .Neighbours ((nearest.take limit).drop offset)⟩

/-- The loop over the nodes from `offset` on, with the time stamps. It takes no more turns than
there are nodes. -/
def answer (nearest : List Neighbour) (ts : ℕ → UInt32) : ℕ → ℕ → List DiscoveryDatagram
  | 0, _ => []
  | turns + 1, offset =>
    if offset < nearest.length then neighbours nearest offset nlimit (ts offset) :: answer nearest
    ts turns (offset + nlimit) else []

def DiscoveryDatagram.carried (d : DiscoveryDatagram) : List Neighbour :=
  match d.packet with
  | .Neighbours ns => ns
  | _ => []

variable {nearest : List Neighbour}

theorem carried_neighbours {offset : ℕ} {ts : UInt32} :
    (neighbours nearest offset nlimit ts).carried = (nearest.drop offset).take nlimit := by
  have hnlimit : nlimit ≠ 0 := by decide
  change (nearest.take (if nlimit ≠ 0 then min nearest.length (offset + nlimit)
    else nearest.length)).drop offset = _
  rw [if_pos hnlimit, min_comm, ← take_take, take_length, drop_take, Nat.add_sub_cancel_left]

theorem flatMap_answer (nearest : List Neighbour) (ts : ℕ → UInt32) {turns offset : ℕ}
    (h : nearest.length ≤ offset + turns) :
    (answer nearest ts turns offset).flatMap DiscoveryDatagram.carried = nearest.drop offset := by
  induction turns generalizing offset with
  | zero =>
    rw [drop_eq_nil_of_le (by omega)]
    rfl
  | succ turns ih =>
    have hnlimit : nlimit = 13 := rfl
    rw [answer]
    split_ifs with hlt
    · rw [flatMap_cons, carried_neighbours, ih (by omega), ← drop_drop, take_append_drop]
    · rw [drop_eq_nil_of_le (by omega)]
      rfl

theorem getElem?_answer {ts : ℕ → UInt32} {turns offset i : ℕ}
    (h : (answer nearest ts turns offset)[i]? = some d) :
    d = neighbours nearest (offset + nlimit * i) nlimit (ts (offset + nlimit * i)) := by
  induction turns generalizing offset i with
  | zero => cases h
  | succ turns ih =>
    rw [answer] at h
    split_ifs at h
    · cases i with
      | zero => exact (Option.some.inj h).symm
      | succ i =>
        rw [Nat.mul_succ, Nat.add_comm (nlimit * i), ← Nat.add_assoc]
        exact ih h
    · cases h

theorem sum_size_bounds (ns : List Neighbour) : 75 * ns.length ≤ (ns.map Neighbour.size).sum ∧
    (ns.map Neighbour.size).sum ≤ 91 * ns.length := by
  induction ns with
  | nil => simp
  | cons n ns ih =>
    have := n.size_bounds
    rw [map_cons, sum_cons, length_cons]
    omega

def headerSize (m : ℕ) : ℕ := if m < 56 then 1 else if m < 256 then 2 else 3

/-- The length of the list of neighbours and the time stamp. -/
def itemsSize (ns : List Neighbour) (ts : UInt32) : ℕ :=
  headerSize (ns.map Neighbour.size).sum + (ns.map Neighbour.size).sum + intSize ts.toNat

theorem sign_neighbours (H : Hasher) (C : NodeCrypto K) (k : K) {ns : List Neighbour}
    (hd : d.packet = .Neighbours ns) (hcount : ns.length ≤ nlimit) :
    ∃ data, d.sign H C k = .ok data ∧
    data.length = 98 + headerSize (itemsSize ns d.ts) + itemsSize ns d.ts := by
  have hnlimit : nlimit = 13 := rfl
  have hsum := sum_size_bounds ns
  have hts := intSize_le (k := 4) d.ts.toNat_lt (by norm_num)
  have hitems : d.items = [.list (ns.map Neighbour.tree), intTree d.ts.toNat] := by
    rw [DiscoveryDatagram.items, hd]
  have hinner : (encodeItems (ns.map Neighbour.tree)).length = (ns.map Neighbour.size).sum :=
    length_trees ns
  have hlist :=
    @length_header_of_lt 0xc0 _ (by omega : (encodeItems (ns.map Neighbour.tree)).length < 65536)
  have houter : (encodeItems d.items).length = itemsSize ns d.ts := by
    rw [hitems, encodeItems_cons, encodeItems_cons, encodeItems_nil, append_nil, length_append,
      encode_list, length_append, hlist, hinner, length_intTree d.ts.toNat_lt]
    rfl
  have hthree (m : ℕ) : headerSize m ≤ 3 := by
    unfold headerSize
    split_ifs <;> omega
  have hsize : itemsSize ns d.ts < 65536 := by
    have hhead := hthree (ns.map Neighbour.size).sum
    unfold itemsSize
    omega
  have hpacket := @length_header_of_lt 0xc0 _ hsize
  have hlength : (encode (.list d.items)).length =
    headerSize (itemsSize ns d.ts) + itemsSize ns d.ts := by
    rw [encode_list, length_append, houter, hpacket]
    rfl
  have hfits : (encode (.list d.items)).length < 256 ^ 8 := by
    have hhead := hthree (itemsSize ns d.ts)
    omega
  refine ⟨_, d.sign_eq H C k hfits, ?_⟩
  rw [DiscoveryDatagram.length_sealed, length_cons, hlength]
  omega

theorem neighbours_fit_iff (H : Hasher) (C : NodeCrypto K) (k : K) {ns : List Neighbour}
    (hd : d.packet = .Neighbours ns) (hcount : ns.length ≤ nlimit) :
    ∃ data, d.sign H C k = .ok data ∧
    (data.length ≤ 1280 ↔ (ns.map Neighbour.size).sum + intSize d.ts.toNat ≤ 1176) := by
  obtain ⟨data, hsign, hlength⟩ := sign_neighbours H C k hd hcount
  refine ⟨data, hsign, ?_⟩
  have hnlimit : nlimit = 13 := rfl
  have hsum := sum_size_bounds ns
  have hts := intSize_le (k := 4) d.ts.toNat_lt (by norm_num)
  rw [hlength]
  -- From four neighbours on both lists have a length of two bytes.
  unfold itemsSize headerSize
  split_ifs <;> omega

/-- The packets carry all nodes in their order, and the packet of index `i` fits a datagram exactly
if the nodes of its slice and its time stamp take no more than 1176 bytes. -/
theorem answer_fits_iff (H : Hasher) (C : NodeCrypto K) (k : K)
    (nearest : List Neighbour) (ts : ℕ → UInt32) :
    (answer nearest ts nearest.length 0).flatMap DiscoveryDatagram.carried = nearest ∧
      ∀ i d, (answer nearest ts nearest.length 0)[i]? = some d → ∃ data, d.sign H C k = .ok data ∧
        (data.length ≤ 1280 ↔
          (((nearest.drop (nlimit * i)).take nlimit).map Neighbour.size).sum +
            intSize (ts (nlimit * i)).toNat ≤ 1176) := by
  refine ⟨flatMap_answer nearest ts (Nat.le_add_left ..), fun i d hd => ?_⟩
  obtain rfl := getElem?_answer hd
  rw [Nat.zero_add, ← @carried_neighbours nearest _ (ts (nlimit * i))]
  refine neighbours_fit_iff H C k rfl ?_
  rw [carried_neighbours]
  exact length_take_le ..

def wideNeighbour : Neighbour :=
  ⟨⟨.v6 ⟨List.replicate 16 1, rfl⟩, 30303, 30303⟩, ⟨List.replicate 64 1, rfl⟩⟩

def plainHasher : Hasher := ⟨fun _ => List.replicate 32 0, fun _ => rfl⟩

def plainCrypto : NodeCrypto Unit where
  sign := fun _ _ => ⟨List.replicate 65 0, rfl⟩
  recover := fun _ _ => ⟨List.replicate 64 1, rfl⟩
  toPublic := fun _ => ⟨List.replicate 64 1, rfl⟩

/-- Thirteen such neighbours in a packet are twelve bytes too many. -/
theorem answer_too_long :
    (answer (List.replicate 16 wideNeighbour) (fun _ => 0x60000000) 16 0).map
    (fun d => (d.sign plainHasher plainCrypto ()).map List.length) =
      [.ok 1292, .ok 382] := by
  have hanswer : answer (List.replicate 16 wideNeighbour) (fun _ => 0x60000000) 16 0 =
      [neighbours (List.replicate 16 wideNeighbour) 0 nlimit 0x60000000,
      neighbours (List.replicate 16 wideNeighbour) 13 nlimit 0x60000000] := rfl
  have hfirst : (neighbours (List.replicate 16 wideNeighbour) 0 nlimit 0x60000000).packet =
    .Neighbours (List.replicate 13 wideNeighbour) := rfl
  have hrest : (neighbours (List.replicate 16 wideNeighbour) 13 nlimit 0x60000000).packet =
    .Neighbours (List.replicate 3 wideNeighbour) := rfl
  obtain ⟨data, hsign, hlength⟩ := sign_neighbours plainHasher plainCrypto () hfirst (by decide)
  obtain ⟨data', hsign', hlength'⟩ := sign_neighbours plainHasher plainCrypto () hrest (by decide)
  rw [hanswer, map_cons, map_singleton, hsign, hsign', Except.map, Except.map, hlength, hlength']
  decide +kernel

end Vapory.P2p
