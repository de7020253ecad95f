import Vapory.Block.TransactionReceipt
import Vapory.Devcore.RLPFields
import Vapory.Devcore.RLPNested

/-! The constructors of `TransactionReceipt` and `LogEntry` from RLP, and which bytes are written
back as they were. -/
namespace Vapory
open RLP List Vapory.Except RLPStream BigEndian

inductive ReceiptError where
  | rlp (e : RLPError)
  | InvalidTransactionReceiptFormat
deriving DecidableEq, Repr

/-- `toVector<h256>`. -/
def RLP.toHashes (r : RLP) : Except RLPError (List H256) := do
  if r.isList then
    let _ ← r.itemCount
    let items ← r.toList .laissezFaire
    items.mapM fun i => do return BitVec.ofNat 256 (value (← i.toHash 32 .laissezFaire))
  else return []

def LogEntry.read : StateT RLP (Except RLPError) LogEntry := do
  let address ← readItem id 0 (toHash 20 .strict)
  let topics ← readItem id 1 toHashes
  let data ← readItem id 2 fun x => x.toBytes .laissezFaire
  return ⟨BitVec.ofNat 160 (value address), topics, data⟩

def LogEntry.ofRLP (r : RLP) : Except RLPError LogEntry := do
  let e ← LogEntry.read.run r
  return e.1

namespace TransactionReceipt

/-- `m_statusCodeOrStateRoot`, from the first item. -/
def readStatus : StateT RLP (Except ReceiptError) (UInt8 ⊕ H256) := do
  let isData ← readItem .rlp 0 fun x => pure x.isData
  if !isData then throw .InvalidTransactionReceiptFormat
  let size ← readItem .rlp 0 fun x => if x.isData then x.length else pure 0
  if size = 32 then
    let root ← readItem .rlp 0 (toHash 32 .strict)
    return .inr (BitVec.ofNat 256 (value root))
  else
    let isInt ← readItem .rlp 0 isInt
    if !isInt then throw .InvalidTransactionReceiptFormat
    let status ← readItem .rlp 0 (toInt 1 .strict)
    return .inl (UInt8.ofNat status)

/-- The constructor once the object `rlp` is made. -/
def read (rlp : RLP) : StateT RLP (Except ReceiptError) TransactionReceipt := do
  if !rlp.isList then throw .InvalidTransactionReceiptFormat
  let itemCount ← rlp.itemCount.mapError ReceiptError.rlp
  if itemCount ≠ 4 then throw .InvalidTransactionReceiptFormat
  let statusCodeOrStateRoot ← readStatus
  let gasUsed ← readItem .rlp 1 (toInt 32 .strict)
  let bloom ← readItem .rlp 2 (toHash 256 .strict)
  let log ← readItem .rlp 3 fun x => do (← x.toList .laissezFaire).mapM LogEntry.ofRLP
  return ⟨statusCodeOrStateRoot, BitVec.ofNat 256 gasUsed,
    BitVec.ofNat 2048 (value bloom), log⟩

def ofRLP (data : Bytes) : Except ReceiptError TransactionReceipt := do
  let rlp ← (RLP.parse (.ofBytes data) .veryStrict).mapError ReceiptError.rlp
  let r ← (read rlp).run rlp
  return r.1

end TransactionReceipt

open RLPTree

theorem RLP.toHashes_leaves {x : RLP} {topics : List Bytes}
    (hx : Fills x (encode (.list (topics.map .leaf)))) (hsize : ∀ t ∈ topics, t.length = 32) :
    x.toHashes = .ok (topics.map fun t => BitVec.ofNat 256 (value t)) := by
  obtain ⟨rs, hrs, hfills⟩ := hx.toList .laissezFaire
  rw [toHashes, if_pos hx.isList, hx.lists.itemCount hx.isList, ok_bind, hrs, ok_bind, mapM_eq_ok,
    forall₂_map_right_iff]
  rw [forall₂_map_right_iff, forall₂_iff_get] at hfills
  refine forall₂_iff_get.mpr ⟨hfills.1, fun i hr ht => ?_⟩
  rw [toHash_leaf .laissezFaire (hfills.2 i hr ht) (hsize _ (get_mem _ _))]
  rfl

namespace LogEntry

def tree (l : LogEntry) : RLPTree :=
  .list [.leaf (addressBytes l.address), .list (l.topics.map fun t => .leaf (Vvm.wordBytes t)),
    .leaf l.data]

theorem streamRLP_eq (l : LogEntry) (s : RLPStream) : l.streamRLP s = s.appendTree l.tree := by
  simp only [streamRLP, tree, appendTree, appendTrees,
    appendTrees_map, length_map, bind_assoc]
  exact bind_congr fun s => bind_congr fun s => bind_congr fun s => bind_congr fun s =>
    (bind_pure _).symm

/-- A list of an address of twenty bytes, topics of 32 bytes and a string. -/
inductive Exact : RLPTree → Prop where
  | intro {address data : Bytes} {topics : List Bytes} (ha : address.length = 20)
      (ht : ∀ t ∈ topics, t.length = 32) :
      Exact (.list [.leaf address, .list (topics.map .leaf), .leaf data])

theorem exact_tree (l : LogEntry) : Exact l.tree := by
  have hwords : ∀ t ∈ l.topics.map Vvm.wordBytes, t.length = 32 := by
    intro t ht
    obtain ⟨w, -, rfl⟩ := mem_map.mp ht
    exact length_fixed 32 w.toNat
  have ht := @Exact.intro _ l.data _ (length_fixed 20 l.address.toNat) hwords
  rwa [map_map] at ht

theorem tree_ofRLP {x : RLP} {t : RLPTree} {l : LogEntry} (ht : Exact t) (hx : Fills x (encode t))
    (hl : ofRLP x = .ok l) : l.tree = t := by
  cases ht with
  | @intro address data topics ha ht =>
    have hmax : 4 < sizeMax := by decide
    obtain ⟨x₀, r₁, f₀, l₁, e₀⟩ := yields_readItem id 0 (toHash 20 .strict) hx.lists (by omega)
    obtain ⟨x₁, r₂, f₁, l₂, e₁⟩ := yields_readItem id 1 toHashes l₁ (by omega)
    obtain ⟨x₂, r₃, f₂, -, e₂⟩ := yields_readItem id 2 (fun x => x.toBytes .laissezFaire) l₂ (by omega)
    have hy : Yields LogEntry.read x fun u _ => u = l := by
      obtain ⟨⟨u, r'⟩, hrun, hu⟩ := bind_eq_ok.mp hl
      exact ⟨u, r', hrun, Except.ok.inj hu⟩
    simp only [LogEntry.read, yields_bind, e₀, e₁, e₂, yields_pure, toHash_leaf .strict f₀ ha,
      toHashes_leaves f₁ ht, toBytes_leaf f₂, Except.ok.injEq, exists_eq_left'] at hy
    have htopics : (topics.map fun t => BitVec.ofNat 256 (value t)).map
      (fun t => leaf (Vvm.wordBytes t)) = topics.map leaf := by
      rw [map_map]
      exact map_congr_left fun t h => congrArg leaf (fixed_toNat_ofNat rfl (ht t h))
    have haddress : addressBytes (BitVec.ofNat 160 (value address)) = address :=
      fixed_toNat_ofNat rfl ha
    rw [← hy, tree, htopics, haddress]

theorem map_tree {xs : List RLP} {ts : List RLPTree} {ls : List LogEntry} (ht : ∀ t ∈ ts, Exact t)
    (hx : List.Forall₂ (fun x t => Fills x (encode t)) xs ts)
    (hl : List.Forall₂ (fun x l => ofRLP x = .ok l) xs ls) : ls.map tree = ts := by
  induction hx generalizing ls with
  | nil =>
    cases hl
    rfl
  | @cons x t xs ts hx _ ih =>
    cases hl with
    | cons hl hls =>
      rw [map_cons, tree_ofRLP (ht t mem_cons_self) hx hl, ih (fun u hu => ht u (mem_cons_of_mem t hu)) hls]

end LogEntry

namespace TransactionReceipt

def statusTree : UInt8 ⊕ H256 → RLPTree
  | .inl status => intTree status.toNat
  | .inr root => .leaf (Vvm.wordBytes root)

def tree (r : TransactionReceipt) : RLPTree :=
  .list [statusTree r.statusCodeOrStateRoot, intTree r.gasUsed.toNat,
    .leaf (fixed 256 r.bloom.toNat), .list (r.log.map LogEntry.tree)]

theorem streamRLP_eq (r : TransactionReceipt) (s : RLPStream) :
    r.streamRLP s = s.appendTree r.tree := by
  have hgas : r.gasUsed.toNat < 256 ^ 32 := r.gasUsed.isLt.trans_eq (by norm_num)
  have hbloom : ((List.range 256).map fun i => UInt8.ofNat (r.bloom.toNat / 256 ^ (255 - i))) =
    fixed 256 r.bloom.toNat := rfl
  obtain ⟨status, gasUsed, bloom, log⟩ := r
  have hlog (s : RLPStream) :
      (do let s ← s.appendList log.length; log.foldlM (fun s l => l.streamRLP s) s) =
        s.appendTrees [.list (log.map LogEntry.tree)] := by
    simp [appendTrees_singleton, appendTree, appendTrees_map,
      LogEntry.streamRLP_eq]
  cases status with
  | inl status =>
    have hstatus : status.toNat < 256 ^ 32 := status.toNat_lt.trans (by norm_num)
    simp only [streamRLP, hlog, hbloom, appendInt_eq _ hgas, appendInt_eq _ hstatus]
    rw [tree, appendTree]
    simp only [appendTrees, appendTree, statusTree]
    rfl
  | inr root =>
    simp only [streamRLP, hlog, hbloom, appendInt_eq _ hgas]
    rw [tree, appendTree]
    simp only [appendTrees, appendTree, statusTree]
    rfl

/-- A list of two strings, a bloom of 256 bytes and a list of exact entries. -/
inductive Exact : RLPTree → Prop where
  | intro {status gasUsed bloom : Bytes} {log : List RLPTree} (hb : bloom.length = 256)
      (hl : ∀ t ∈ log, LogEntry.Exact t) :
      Exact (.list [.leaf status, .leaf gasUsed, .leaf bloom, .list log])

theorem exact_tree (r : TransactionReceipt) : Exact r.tree := by
  have hlog : ∀ t ∈ r.log.map LogEntry.tree, LogEntry.Exact t := by
    intro t ht
    obtain ⟨l, -, rfl⟩ := mem_map.mp ht
    exact l.exact_tree
  rw [tree]
  cases r.statusCodeOrStateRoot with
  | inl status => exact .intro (length_fixed 256 _) hlog
  | inr root => exact .intro (length_fixed 256 _) hlog

theorem yields_readStatus {r : RLP} {xs : List Bytes} {status : Bytes} {P : UInt8 ⊕ H256 → RLP → Prop}
    (hr : Lists r (encode (.leaf status) :: xs)) (hy : Yields readStatus r P) :
    ∃ v r', statusTree v = .leaf status ∧ Lists r' (encode (.leaf status) :: xs) ∧ P v r' := by
  have hmax : 4 < sizeMax := by decide
  obtain ⟨x₀, r₁, f₀, l₁, e₀⟩ :=
    yields_readItem ReceiptError.rlp 0 (fun x => pure x.isData) hr (by omega)
  obtain ⟨x₁, r₂, f₁, l₂, e₁⟩ := yields_readItem ReceiptError.rlp 0 sizeOfItem l₁ (by omega)
  have hsize := sizeOfItem_leaf f₁
  unfold sizeOfItem at e₁ hsize
  have hisData : x₀.isData = true := (holds_leaf f₀).isData
  rw [readStatus, yields_bind, e₀, hisData] at hy
  obtain ⟨_, ⟨⟩, hy⟩ := hy
  rw [Bool.not_true, if_neg Bool.false_ne_true, yields_bind] at hy
  rw [e₁, hsize] at hy
  obtain ⟨_, ⟨⟩, hy⟩ := hy
  by_cases h32 : status.length = 32
  · obtain ⟨x₂, r₃, f₂, l₃, e₂⟩ := yields_readItem ReceiptError.rlp 0 (toHash 32 .strict) l₂ (by omega)
    rw [if_pos h32, yields_bind, e₂, toHash_leaf .strict f₂ h32] at hy
    obtain ⟨_, ⟨⟩, hy⟩ := hy
    refine ⟨_, r₃, ?_, l₃, (yields_pure _).mp hy⟩
    exact congrArg leaf (fixed_toNat_ofNat rfl h32)
  · obtain ⟨x₂, r₃, f₂, l₃, e₂⟩ := yields_readItem ReceiptError.rlp 0 isInt l₂ (by omega)
    obtain ⟨x₃, r₄, f₃, l₄, e₃⟩ := yields_readItem ReceiptError.rlp 0 (toInt 1 .strict) l₃ (by omega)
    rw [if_neg h32, yields_bind, e₂] at hy
    obtain ⟨int, -, hy⟩ := hy
    cases int with
    | false => exact ((yields_throw _).mp ((yields_bind).mp hy)).elim
    | true =>
      rw [Bool.not_true, if_neg Bool.false_ne_true, yields_bind, e₃] at hy
      obtain ⟨v, hv, hy⟩ := hy
      obtain ⟨hold, hlt⟩ := f₃.toInt_eq_ok.mp hv
      refine ⟨_, r₄, ?_, l₄, (yields_pure _).mp hy⟩
      have hdigits : digits v = status := hold.injective (holds_leaf f₃)
      have hnat : (UInt8.ofNat v).toNat = v := Nat.mod_eq_of_lt (by omega)
      rw [statusTree, intTree, hnat, hdigits]

theorem tree_ofRLP {bs : Bytes} {t : RLPTree} {r : TransactionReceipt} (ht : Exact t)
    (hbs : bs = encode t) (hr : ofRLP bs = .ok r) : r.tree = t := by
  obtain ⟨rlp, hrlp, hr⟩ := bind_eq_ok.mp hr
  obtain ⟨⟨u, r'⟩, hrun, hu⟩ := bind_eq_ok.mp hr
  obtain rfl := Except.ok.inj hu
  have hfills : Fills rlp bs := fills_of_parse (mapError_eq_ok.mp hrlp)
  have hy : Yields (read rlp) rlp fun v _ => v = u := ⟨u, r', hrun, rfl⟩
  cases ht with
  | @intro status gasUsed bloom log hb hl =>
    rw [hbs] at hfills
    have hmax : 4 < sizeMax := by decide
    have hcount : rlp.itemCount.mapError ReceiptError.rlp = .ok 4 := by
      rw [hfills.lists.itemCount hfills.isList]
      rfl
    rw [read, hfills.isList, Bool.not_true, if_neg Bool.false_ne_true, hcount, yields_bind, yields_lift] at hy
    obtain ⟨_, ⟨⟩, hy⟩ := hy
    rw [if_neg (by decide), yields_bind] at hy
    obtain ⟨v, r₁, hv, l₁, hy⟩ := yields_readStatus hfills.lists hy
    obtain ⟨x₁, r₂, f₁, l₂, e₁⟩ := yields_readItem ReceiptError.rlp 1 (toInt 32 .strict) l₁ (by omega)
    obtain ⟨x₂, r₃, f₂, l₃, e₂⟩ := yields_readItem ReceiptError.rlp 2 (toHash 256 .strict) l₂ (by omega)
    obtain ⟨x₃, r₄, f₃, l₄, e₃⟩ := yields_readItem ReceiptError.rlp 3
      (fun x => do (← x.toList .laissezFaire).mapM LogEntry.ofRLP) l₃ (by omega)
    simp only [yields_bind, e₁, e₂, e₃, yields_pure, toHash_leaf .strict f₂ hb, Except.ok.injEq,
      exists_eq_left'] at hy
    obtain ⟨gas, hgas, log', hlog, hu⟩ := hy
    obtain ⟨hold, hlt⟩ := f₁.toInt_eq_ok.mp hgas
    have hgasUsed : intTree (BitVec.ofNat 256 gas).toNat = .leaf gasUsed := by
      rw [BitVec.toNat_ofNat, Nat.mod_eq_of_lt (hlt.trans_eq (by norm_num)), intTree,
        hold.injective (holds_leaf f₁)]
    have hbloom : fixed 256 (BitVec.ofNat 2048 (value bloom)).toNat = bloom :=
      fixed_toNat_ofNat rfl hb
    obtain ⟨rs, hrs, hitems⟩ := f₃.toList .laissezFaire
    rw [hrs, ok_bind, mapM_eq_ok] at hlog
    rw [← hu, tree, hv, hgasUsed, hbloom, LogEntry.map_tree hl hitems hlog]

theorem fits_of_streamRLP {r : TransactionReceipt} {bs : Bytes}
    (h : r.streamRLP {} >>= out = .ok bs) : Fits r.tree := by
  by_contra hfits
  obtain ⟨s, hs, -⟩ := bind_eq_ok.mp h
  obtain ⟨e, he⟩ := throws_appendTree {} r.tree hfits
  rw [streamRLP_eq, he] at hs
  cases hs

/-- A receipt that is accepted is written as the bytes that it was read from exactly if these encode
an exact list. -/
theorem ofRLP_streamRLP {bs : Bytes} {r : TransactionReceipt} (h : ofRLP bs = .ok r) :
    r.streamRLP {} >>= out = .ok bs ↔ ∃ t, Exact t ∧ bs = encode t := by
  have hwrite (hfits : Fits r.tree) : r.streamRLP {} >>= out = .ok (encode r.tree) := by
    rw [streamRLP_eq, appendTree_eq _ _ hfits]
    rfl
  constructor
  · intro hs
    rw [hwrite (fits_of_streamRLP hs)] at hs
    exact ⟨r.tree, r.exact_tree, (Except.ok.inj hs).symm⟩
  · rintro ⟨t, ht, hbs⟩
    have htree := tree_ofRLP ht hbs h
    obtain ⟨rlp, hrlp, -⟩ := bind_eq_ok.mp h
    have hlt := (fills_of_parse (mapError_eq_ok.mp hrlp)).length_lt
    rw [hwrite (fits_of_length _ (by rwa [htree, ← hbs])), htree, hbs]

/-- A receipt with one log entry, which is written back. -/
theorem ofRLP_streamRLP_entry :
    let entry :=
  RLPTree.list [.leaf (List.replicate 20 7), .list [.leaf (List.replicate 32 9)], .leaf [1, 2]]
    let t := RLPTree.list [.leaf [1], .leaf [0x52, 0x08], .leaf (List.replicate 256 0), .list [entry]]
    ∃ r, ofRLP (encode t) = .ok r ∧ r.streamRLP {} >>= out = .ok (encode t) := by
  intro entry t
  have hsome : (ofRLP (encode t)).toOption.isSome = true := by decide +kernel
  cases hr : ofRLP (encode t) with
  | error e =>
    rw [hr] at hsome
    cases hsome
  | ok r =>
    have hentry : LogEntry.Exact entry := @LogEntry.Exact.intro _ _ [List.replicate 32 9] rfl (by simp)
    exact ⟨r, rfl, (ofRLP_streamRLP hr).mpr ⟨t, .intro length_replicate (by simpa using hentry), rfl⟩⟩

/-- An empty bloom is accepted and written with all its bytes. -/
theorem ofRLP_malleable :
    (ofRLP [0xc4, 0x01, 0x80, 0x80, 0xc0]).toOption.bind
    (fun r => (r.streamRLP {} >>= out).toOption) =
      some ([0xf9, 0x01, 0x06, 0x01, 0x80, 0xb9, 0x01, 0x00] ++ List.replicate 256 0 ++ [0xc0]) := by
  decide +kernel

end TransactionReceipt
end Vapory
