import Vapory.P2p.Packets

/-! `interpretUDP` of `NodeTable.cpp`: what a node makes of a datagram. -/
namespace Vapory.P2p
open RLP RLPTree BytesRef List

/-- The bytes that memory has from a place on, when there are enough of them. -/
def FixedBytes.ofBytes (n : ℕ) (b : Bytes) : FixedBytes n :=
  ⟨(b ++ List.replicate n 0).take n, by simp⟩

theorem FixedBytes.ofBytes_eq {n : ℕ} (b : FixedBytes n) : FixedBytes.ofBytes n b.1 = b :=
  Subtype.ext (take_left' b.2)

def readFrom {α : Type} (read : StateT RLP (Except RLPError) α) (r : RLP) : Except RLPError α := do
  let a ← read.run r
  return a.1

namespace NodeIPEndpoint

def readAddress : StateT RLP (Except RLPError) IPAddress := do
  let size ← readItem id 0 sizeOfItem
  if size = 4 then
    let bytes ← readItem id 0 fun x => x.toBytes .laissezFaire
    return .v4 (.ofBytes 4 bytes)
  else
    let size ← readItem id 0 sizeOfItem
    if size = 16 then
      let bytes ← readItem id 0 fun x => x.toBytes .laissezFaire
      return .v6 (.ofBytes 16 bytes)
    else return .v4 (.ofBytes 4 [])

def interpretRLP : StateT RLP (Except RLPError) NodeIPEndpoint := do
  let address ← readAddress
  let udpPort ← readItem id 1 (toInt 2 .strict)
  let tcpPort ← readItem id 2 (toInt 2 .strict)
  return ⟨address, UInt16.ofNat udpPort, UInt16.ofNat tcpPort⟩

end NodeIPEndpoint

/-- The constructor of `Neighbour` from RLP. An id of another size is the zero id. -/
def Neighbour.interpretRLP : StateT RLP (Except RLPError) Neighbour := do
  let endpoint ← NodeIPEndpoint.interpretRLP
  let node ← readItem id 3 fun x => x.toBytes .laissezFaire
  return ⟨endpoint, .ofBytes 64 (if node.length = 64 then node else [])⟩

namespace DiscoveryDatagram

/-- `interpretRLP` of the packet of a type, on the items of its list. -/
def readPacket (sourceid : FixedBytes 64) (echo : FixedBytes 32) :
    UInt8 → Option (StateT RLP (Except RLPError) DiscoveryDatagram)
  | 1 => some do
    let version ← readItem id 0 (toInt 4 .strict)
    let source ← readItem id 1 (readFrom NodeIPEndpoint.interpretRLP)
    let destination ← readItem id 2 (readFrom NodeIPEndpoint.interpretRLP)
    let ts ← readItem id 3 (toInt 4 .strict)
    return ⟨sourceid, echo, UInt32.ofNat ts, .PingNode (UInt32.ofNat version) source destination⟩
  | 2 => some do
    let destination ← readItem id 0 (readFrom NodeIPEndpoint.interpretRLP)
    let echo ← readItem id 1 (toHash 32 .strict)
    let ts ← readItem id 2 (toInt 4 .strict)
    return ⟨sourceid, .ofBytes 32 echo, UInt32.ofNat ts, .Pong destination⟩
  | 3 => some do
    let target ← readItem id 0 (toHash 64 .strict)
    let ts ← readItem id 1 (toInt 4 .strict)
    return ⟨sourceid, echo, UInt32.ofNat ts, .FindNode (.ofBytes 64 target)⟩
  | 4 => some do
    let neighbours ← readItem id 0 fun x => do
      (← x.toList .laissezFaire).mapM (readFrom Neighbour.interpretRLP)
    let ts ← readItem id 1 (toInt 4 .strict)
    return ⟨sourceid, echo, UInt32.ofNat ts, .Neighbours neighbours⟩
  | _ => none

/-- `interpretUDP`. A datagram that is refused gives nothing; reading a packet may throw. -/
def interpretUDP {K : Type} (H : Hasher) (C : NodeCrypto K) (packet : Bytes) :
    Except RLPError (Option DiscoveryDatagram) := do
  if packet.length < 32 + 65 + 1 + 3 then return none
  let hashedBytes := packet.drop 32
  let signedBytes := hashedBytes.drop 65
  let echo := H.sha3 hashedBytes
  if packet.take 32 ≠ echo then return none
  let sourceid := C.recover (.ofBytes 65 (hashedBytes.take 65)) (H.sha3 signedBytes)
  if sourceid = .ofBytes 64 [] then return none
  match readPacket sourceid (.ofBytes 32 echo) (signedBytes.headD 0) with
  | none => return none
  | some read =>
    let r ← RLP.parse (.ofBytes (packet.drop (32 + 65 + 1))) { allowNonCanon := true, throwOnFail := true }
    return some (← readFrom read r)

end DiscoveryDatagram

/-! Reading the items of an encoded list, whatever follows it. -/

/-- `r` is an object that views the encoded list `ts` and maybe more, in some state of its cache. -/
inductive Offers : RLP → List RLPTree → Prop where
  | intro {buf rest : Bytes} {p n : ℕ} {ts : List RLPTree} {r : RLP}
      (h : buf.drop p = encode (.list ts) ++ rest)
      (hs : (encode (.list ts)).length < encodedSizeLimit) (hn : (encode (.list ts)).length ≤ n)
      (hp : p + n ≤ buf.length)
      (hc : Cached (view buf p n) (window buf (p + (header 0xc0 (encodeItems ts).length).length)
        (encodeItems ts).length) r) : Offers r ts

/-- The program reads `a` from any object with these items. -/
def Reads {α : Type} (read : StateT RLP (Except RLPError) α) (ts : List RLPTree) (a : α) : Prop :=
  ∀ r, Offers r ts → ∃ r', read r = .ok (a, r') ∧ Offers r' ts

section
variable {α β : Type} {ts : List RLPTree} {t : RLPTree} {a : α} {b : β}

theorem Offers.index {r : RLP} {i : ℕ} (h : Offers r ts) (hi : ts[i]? = some t) :
    ∃ x, (r.index i).1 = .ok x ∧ Fills x (encode t) ∧ Offers (r.index i).2 ts := by
  cases h with
  | @intro buf rest p n _ _ h hs hn hp hc =>
    have hlength : (encode (.list ts)).length =
      (header 0xc0 (encodeItems ts).length).length + (encodeItems ts).length := by
      rw [encode_list, length_append]
    have hdrop : buf.drop (p + (header 0xc0 (encodeItems ts).length).length) = encodeItems ts ++ rest := by
      rw [← drop_drop, h, encode_list, append_assoc, drop_left]
    have hF := framed_list h hs
    have ht := tiles_itemViews hdrop (by omega)
    have hlt : i < (itemViews buf (p + (header 0xc0 (encodeItems ts).length).length) ts).length := by
      rw [length_itemViews]
      exact (List.getElem?_eq_some_iff.mp hi).1
    have hget := List.getElem?_eq_getElem hlt
    have hread := readable_view hF (by omega) hp
    have hi' : i < sizeMax := (hlt.trans_le ht.length_le).trans hread.lt
    obtain ⟨s, k, hview, -, hat⟩ := itemAt_of_tiles (by omega) le_rfl ht hget
    obtain ⟨hindex, hcached⟩ := hc.index hread hi' hat
    refine ⟨_, hindex.trans (congrArg _ hview.symm), ?_, .intro h hs hn hp hcached⟩
    have hfills := ht.fills (by omega) hget
    have hbytes := congrArg (fun xs => xs[i]?) (map_itemViews hdrop)
    simp only [List.getElem?_map, hget, hi, Option.map_some, Option.some.injEq] at hbytes
    rwa [hbytes] at hfills

theorem reads_pure (a : α) : Reads (pure a) ts a := fun r h => ⟨r, rfl, h⟩

variable {read : StateT RLP (Except RLPError) α}

theorem Reads.bind {next : α → StateT RLP (Except RLPError) β} (h : Reads read ts a)
    (hnext : Reads (next a) ts b) : Reads (read >>= next) ts b := by
  intro r hr
  obtain ⟨r₁, hread, hr₁⟩ := h r hr
  obtain ⟨r₂, hread₂, hr₂⟩ := hnext r₁ hr₁
  refine ⟨r₂, ?_, hr₂⟩
  change (read r >>= fun p => next p.1 p.2) = _
  rw [hread]
  exact hread₂

theorem reads_item {convert : RLP → Except RLPError α} (i : ℕ) (hi : ts[i]? = some t)
    (hc : ∀ x, Fills x (encode t) → convert x = .ok a) : Reads (readItem id i convert) ts a := by
  intro r hr
  obtain ⟨x, hindex, hfills, hr'⟩ := hr.index hi
  refine ⟨_, ?_, hr'⟩
  rw [readItem, hindex]
  change ((convert x).mapError id >>= fun a => pure (a, (r.index i).2)) = _
  rw [hc x hfills]
  rfl

theorem offers_of_fills {x : RLP} (h : Fills x (encode (.list ts)))
    (hs : (encode (.list ts)).length < encodedSizeLimit) : Offers x ts := by
  generalize he : encode (.list ts) = e at h
  cases h with
  | @intro buf p n hp _ =>
    have hlength : (encode (.list ts)).length = n := by
      rw [he, length_take, length_drop]
      omega
    have hdrop : buf.drop p = encode (.list ts) ++ buf.drop (p + n) := by
      rw [he, ← drop_drop, take_append_drop]
    exact .intro hdrop hs hlength.le hp .new

theorem Reads.fills (h : Reads read ts a) (hs : (encode (.list ts)).length < encodedSizeLimit)
    (x : RLP) (hx : Fills x (encode (.list ts))) : readFrom read x = .ok a := by
  obtain ⟨r', hread, -⟩ := h x (offers_of_fills hx hs)
  rw [readFrom, StateT.run, hread]
  rfl

end

namespace NodeIPEndpoint

theorem reads_address (e : NodeIPEndpoint) (more : List RLPTree) :
    Reads readAddress (e.items ++ more) e.address := by
  have hlength := length_toBytes e.address
  have hsize : Reads (readItem id 0 sizeOfItem) (e.items ++ more) e.address.toBytes.length :=
    reads_item 0 rfl fun x hx => sizeOfItem_leaf hx
  have hbytes : Reads (readItem id 0 fun x => x.toBytes .laissezFaire) (e.items ++ more)
    e.address.toBytes :=
    reads_item 0 rfl fun x hx => toBytes_leaf hx
  rw [readAddress]
  refine hsize.bind ?_
  cases haddress : e.address with
  | v4 b =>
    have hbytes' : Reads (readItem id 0 fun x => x.toBytes .laissezFaire) (e.items ++ more)
      b.1 := by rwa [haddress] at hbytes
    rw [show (IPAddress.v4 b).toBytes.length = 4 from b.2, if_pos rfl]
    refine hbytes'.bind ?_
    rw [FixedBytes.ofBytes_eq]
    exact reads_pure _
  | v6 b =>
    have hbytes' : Reads (readItem id 0 fun x => x.toBytes .laissezFaire) (e.items ++ more)
      b.1 := by rwa [haddress] at hbytes
    have hlength' : (IPAddress.v6 b).toBytes.length = 16 := b.2
    rw [haddress, hlength'] at hsize
    rw [hlength', if_neg (by decide)]
    refine hsize.bind ?_
    rw [if_pos rfl]
    refine hbytes'.bind ?_
    rw [FixedBytes.ofBytes_eq]
    exact reads_pure _

theorem reads (e : NodeIPEndpoint) (more : List RLPTree) : Reads interpretRLP (e.items ++ more) e := by
  have hudp : Reads (readItem id 1 (toInt 2 .strict)) (e.items ++ more) e.udpPort.toNat :=
    reads_item 1 rfl fun x hx => toInt_intTree hx e.udpPort.toNat_lt
  have htcp : Reads (readItem id 2 (toInt 2 .strict)) (e.items ++ more) e.tcpPort.toNat :=
    reads_item 2 rfl fun x hx => toInt_intTree hx e.tcpPort.toNat_lt
  refine (e.reads_address more).bind (hudp.bind (htcp.bind ?_))
  rw [UInt16.ofNat_toNat, UInt16.ofNat_toNat]
  exact reads_pure e

theorem readFrom_interpretRLP (e : NodeIPEndpoint) (x : RLP)
    (hx : Fills x (encode (.list e.items))) : readFrom interpretRLP x = .ok e := by
  have hreads := e.reads []
  rw [append_nil] at hreads
  refine hreads.fills ?_ x hx
  have hudp := intSize_le (k := 2) e.udpPort.toNat_lt (by norm_num)
  have htcp := intSize_le (k := 2) e.tcpPort.toNat_lt (by norm_num)
  have haddress := length_toBytes e.address
  have hitems := e.length_items
  have hlimit : 24 < encodedSizeLimit := by decide
  rw [encode_list, length_append, length_header_of_lt (by omega), if_pos (by omega)]
  omega

end NodeIPEndpoint

theorem Neighbour.readFrom_interpretRLP (n : Neighbour) (x : RLP) (hx : Fills x (encode n.tree)) :
    readFrom Neighbour.interpretRLP x = .ok n := by
  have hnode : Reads (readItem id 3 fun x => x.toBytes .laissezFaire)
    (n.endpoint.items ++ [.leaf n.node.1]) n.node.1 :=
    reads_item 3 rfl fun x hx => toBytes_leaf hx
  have hreads : Reads Neighbour.interpretRLP (n.endpoint.items ++ [.leaf n.node.1]) n := by
    refine (n.endpoint.reads _).bind (hnode.bind ?_)
    rw [if_pos n.node.2, FixedBytes.ofBytes_eq]
    exact reads_pure n
  refine hreads.fills ?_ x hx
  have hlength := n.length_tree
  have hbounds := n.size_bounds
  have hlimit : 91 < encodedSizeLimit := by decide
  rw [Neighbour.tree] at hlength
  omega

theorem readFrom_neighbours (ns : List Neighbour) (x : RLP)
    (hx : Fills x (encode (.list (ns.map Neighbour.tree)))) :
    (do (← x.toList .laissezFaire).mapM (readFrom Neighbour.interpretRLP)) = .ok ns := by
  obtain ⟨rs, hrs, hfills⟩ := hx.toList .laissezFaire
  rw [hrs, Except.ok_bind, Except.mapM_eq_ok]
  exact (forall₂_map_right_iff.mp hfills).imp fun x n hx => n.readFrom_interpretRLP x hx

namespace DiscoveryDatagram
variable {d : DiscoveryDatagram} {extra : List RLPTree} {rest : Bytes}

/-- The fields that are sent, with the version that the packet itself holds. -/
def fields (d : DiscoveryDatagram) : List RLPTree :=
  match d.packet with
  | .PingNode version source destination =>
    [intTree version.toNat, .list source.items, .list destination.items, intTree d.ts.toNat]
  | _ => d.items

/-- A `PingNode` is signed with the version of the protocol. -/
def stamped (d : DiscoveryDatagram) : DiscoveryDatagram :=
  match d.packet with
  | .PingNode _ source destination =>
    { d with packet := .PingNode (UInt32.ofNat protocolVersion) source destination }
  | _ => d

theorem fields_stamped (d : DiscoveryDatagram) : d.stamped.fields = d.items := by
  obtain ⟨_, _, _, packet⟩ := d
  cases packet <;> rfl

/-- The datagram as it is received: all but a `Pong` have the hash of the datagram as echo. -/
def received (d : DiscoveryDatagram) (sourceid : FixedBytes 64) (hash : FixedBytes 32) :
    DiscoveryDatagram :=
  match d.packet with
  | .Pong _ => { d with sourceid := sourceid }
  | _ => { d with sourceid := sourceid, echo := hash }

theorem readPacket_reads (d : DiscoveryDatagram) (extra : List RLPTree) (sourceid : FixedBytes 64)
    (hash : FixedBytes 32) : ∃ read, readPacket sourceid hash d.packetType = some read ∧
    Reads read (d.fields ++ extra) (d.received sourceid hash) := by
  have hint : ∀ i v, (d.fields ++ extra)[i]? = some (intTree v) → v < 2 ^ 32 →
    Reads (readItem id i (toInt 4 .strict)) (d.fields ++ extra) v :=
    fun i v hi hv => reads_item i hi fun x hx => toInt_intTree hx hv
  have hts := d.ts.toNat_lt
  obtain ⟨_, echo, ts, packet⟩ := d
  cases packet with
  | PingNode version source destination =>
    refine ⟨_, rfl, (hint 0 _ rfl version.toNat_lt).bind ((reads_item 1 rfl source.readFrom_interpretRLP).bind
      ((reads_item 2 rfl destination.readFrom_interpretRLP).bind ((hint 3 _ rfl hts).bind ?_)))⟩
    rw [UInt32.ofNat_toNat, UInt32.ofNat_toNat]
    exact reads_pure _
  | Pong destination =>
    refine ⟨_, rfl, (reads_item 0 rfl destination.readFrom_interpretRLP).bind
      ((reads_item 1 rfl fun x hx => toHash_leaf .strict hx echo.2).bind ((hint 2 _ rfl hts).bind ?_))⟩
    rw [UInt32.ofNat_toNat, FixedBytes.ofBytes_eq]
    exact reads_pure _
  | FindNode target =>
    refine ⟨_, rfl, (reads_item 0 rfl fun x hx => toHash_leaf .strict hx target.2).bind
      ((hint 1 _ rfl hts).bind ?_)⟩
    rw [UInt32.ofNat_toNat, FixedBytes.ofBytes_eq]
    exact reads_pure _
  | Neighbours neighbours =>
    refine ⟨_, rfl, (reads_item 0 rfl (readFrom_neighbours neighbours)).bind ((hint 1 _ rfl hts).bind ?_)⟩
    rw [UInt32.ofNat_toNat]
    exact reads_pure _

theorem length_le_encodeItems (ts : List RLPTree) : ts.length ≤ (encodeItems ts).length := by
  induction ts with
  | nil => simp
  | cons t ts ih =>
    have := encode_length_pos t
    rw [encodeItems_cons, length_append, length_cons]
    omega

theorem two_le_fields (d : DiscoveryDatagram) : 2 ≤ d.fields.length := by
  obtain ⟨_, _, _, packet⟩ := d
  cases packet <;> simp [fields, items]

theorem interpretUDP_of_hash {K : Type} (H : Hasher) (C : NodeCrypto K) {packet : Bytes}
    (h : packet.take 32 ≠ H.sha3 (packet.drop 32)) : interpretUDP H C packet = .ok none := by
  rw [interpretUDP]
  by_cases hlength : packet.length < 32 + 65 + 1 + 3
  · rw [if_pos hlength]
    rfl
  · rw [if_neg hlength]
    exact if_pos h

theorem interpretUDP_sealed {K : Type} (H : Hasher) (C : NodeCrypto K) (k : K)
    (hrecover : ∀ h, C.recover (C.sign k h) h = C.toPublic k)
    (hpublic : C.toPublic k ≠ .ofBytes 64 []) (d : DiscoveryDatagram) (extra : List RLPTree)
    (rest : Bytes) (hmax : (encode (.list (d.fields ++ extra)) ++ rest).length < encodedSizeLimit) :
    let data := sealed H C k (d.packetType :: (encode (.list (d.fields ++ extra)) ++ rest))
    interpretUDP H C data = .ok (some (d.received (C.toPublic k) (.ofBytes 32 (data.take 32)))) := by
  intro data
  generalize hbody : encode (.list (d.fields ++ extra)) ++ rest = body at hmax
  generalize hsig : C.sign k (H.sha3 (d.packetType :: body)) = sig
  have hdata : data = H.sha3 (sig.1 ++ d.packetType :: body) ++ (sig.1 ++ d.packetType :: body) := by
    simp only [data, sealed, hbody, hsig]
  have htake : data.take 32 = H.sha3 (sig.1 ++ d.packetType :: body) := by
    rw [hdata, take_left' (H.size _)]
  have hdrop : data.drop 32 = sig.1 ++ d.packetType :: body := by rw [hdata, drop_left' (H.size _)]
  have hhash : data.take 32 = H.sha3 (data.drop 32) := by rw [htake, hdrop]
  have hsigned : (data.drop 32).drop 65 = d.packetType :: body := by rw [hdrop, drop_left' sig.2]
  have hbytes : data.drop (32 + 65 + 1) = body := by
    rw [← drop_drop, ← drop_drop, hsigned, drop_one, tail_cons]
  have hlength : ¬ data.length < 32 + 65 + 1 + 3 := by
    have hitems := length_le_encodeItems (d.fields ++ extra)
    have htwo := d.two_le_fields
    have hheader := length_header_pos 0xc0 (encodeItems (d.fields ++ extra)).length
    have hlist : (encode (.list (d.fields ++ extra))).length =
      (header 0xc0 (encodeItems (d.fields ++ extra)).length).length +
      (encodeItems (d.fields ++ extra)).length := by rw [encode_list, length_append]
    rw [length_append] at hitems
    simp only [data, length_sealed, length_cons, length_append]
    omega
  have hle : (encode (.list (d.fields ++ extra))).length ≤ body.length := by
    rw [← hbody, length_append]
    omega
  have hs := lt_of_le_of_lt hle hmax
  obtain ⟨read, hread, hreads⟩ :=
    d.readPacket_reads extra (C.toPublic k) (.ofBytes 32 (H.sha3 (data.drop 32)))
  have hoffers : Offers { data := .ofBytes body } (d.fields ++ extra) :=
    @Offers.intro body rest 0 body.length _ _ hbody.symm hs hle (by omega) .new
  obtain ⟨r', hrun, -⟩ := hreads _ hoffers
  have hid : C.recover (.ofBytes 65 ((data.drop 32).take 65)) (H.sha3 (d.packetType :: body)) =
    C.toPublic k := by
    rw [hdrop, take_left' sig.2, FixedBytes.ofBytes_eq, ← hsig, hrecover]
  rw [hhash, interpretUDP, if_neg hlength]
  refine (if_neg (not_not_intro hhash)).trans ?_
  simp only [hid, hsigned, headD_cons, hread, if_neg hpublic, hbytes]
  have hparse : RLP.parse (.ofBytes body) { allowNonCanon := true, throwOnFail := true } =
    .ok { data := .ofBytes body } := rfl
  rw [hparse, Except.ok_bind, readFrom, StateT.run, hrun]
  rfl

/-- A datagram is signed over its fields; with more items and more bytes after them it is accepted,
with the same fields and the signer as source, and with another hash none is. -/
theorem interpretUDP_forward {K : Type} (H : Hasher) (C : NodeCrypto K) (k : K)
    (hrecover : ∀ h, C.recover (C.sign k h) h = C.toPublic k)
    (hpublic : C.toPublic k ≠ .ofBytes 64 []) (d : DiscoveryDatagram) :
    ((encode (.list d.items)).length < encodedSizeLimit →
      d.sign H C k = .ok (sealed H C k (d.packetType :: encode (.list d.stamped.fields)))) ∧
    (∀ (extra : List RLPTree) (rest : Bytes),
      (encode (.list (d.fields ++ extra)) ++ rest).length < encodedSizeLimit →
      let data := sealed H C k (d.packetType :: (encode (.list (d.fields ++ extra)) ++ rest))
      interpretUDP H C data = .ok (some (d.received (C.toPublic k) (.ofBytes 32 (data.take 32))))) ∧
    ∀ packet : Bytes, packet.take 32 ≠ H.sha3 (packet.drop 32) → interpretUDP H C packet = .ok none := by
  refine ⟨fun h => ?_, fun extra rest => interpretUDP_sealed H C k hrecover hpublic d extra rest,
    fun packet => interpretUDP_of_hash H C⟩
  rw [fields_stamped]
  exact d.sign_eq H C k (h.trans (by decide))

/-- A search with an unknown item in its list and a byte after it. -/
theorem interpretUDP_forward_findNode :
    let d : DiscoveryDatagram := ⟨.ofBytes 64 [], .ofBytes 32 [], 5, .FindNode (.ofBytes 64 [3])⟩
    let data := sealed plainHasher plainCrypto ()
      (d.packetType :: (encode (.list (d.fields ++ [.list [.leaf [1, 2]]])) ++ [7]))
    interpretUDP plainHasher plainCrypto data =
      .ok (some (d.received (plainCrypto.toPublic ()) (.ofBytes 32 (data.take 32)))) := by
  intro d
  exact (interpretUDP_forward plainHasher plainCrypto () (fun _ => rfl) (by decide) d).2.1
    [.list [.leaf [1, 2]]] [7] (by decide +kernel)

end DiscoveryDatagram
end Vapory.P2p
