import Vapory.Devcore.FixedHash

/-! `hash256`, the root of a map computed from its entries at once. -/
namespace Vapory

/-- `std::map<bytes, bytes>`. -/
abbrev BytesMap := Std.ExtTreeMap Bytes Bytes compare

abbrev HexMap := Std.ExtTreeMap (List Nibble) Bytes compare

namespace TrieHash
open RLPTree
variable (H : Hasher)

/-- The inner loop that counts shared nibbles, from `shared` up to `x`. -/
def sharedLoop (k l : List Nibble) (x : ℕ) : ℕ → ℕ → ℕ
  | 0, shared => shared
  | fuel + 1, shared =>
    if shared < x ∧ k[shared]? = l[shared]? then sharedLoop k l x fuel (shared + 1) else shared

/-- The outer loop: the least count over the entries after the first, whose key is `k`. -/
def sharedPre (k : List Nibble) (preLen : ℕ) : List (List Nibble × Bytes) → ℕ → ℕ
  | [], pre => pre
  | (l, _) :: es, pre =>
    if pre = 0 then pre
    else
      let x := min pre (min k.length l.length)
      sharedPre k preLen es (min (sharedLoop k l x x preLen) pre)

/-- `hash256aux`, with the call it makes as a parameter. -/
def hash256aux (rlp : RLPStream → Except RLPError RLPStream) (s : RLPStream) :
    Except RLPError RLPStream := do
  let r ← rlp {}
  let out ← r.out
  if out.length < 32 then s.appendRaw out 1 else s.append (H.sha3 out) false

def hash256child (aux : List (List Nibble × Bytes) → RLPStream → Except RLPError RLPStream)
    (now : List (List Nibble × Bytes)) (s : RLPStream) : Except RLPError RLPStream :=
  if now.isEmpty then s.append [] false else aux now s

/-- The loop over the nibbles: `b` is what is left of the entries, in their order. -/
def hash256children (aux : List (List Nibble × Bytes) → RLPStream → Except RLPError RLPStream)
    (preLen : ℕ) : List Nibble → List (List Nibble × Bytes) → RLPStream → Except RLPError RLPStream
  | [], _, s => .ok s
  | i :: is, b, s => do
    let s ← hash256child aux (b.takeWhile fun e => e.1[preLen]? == some i) s
    hash256children aux preLen is (b.dropWhile fun e => e.1[preLen]? == some i) s

/-- `hash256rlp`; the entries are those from `_begin` to `_end`. -/
def hash256rlp : ℕ → List (List Nibble × Bytes) → ℕ → RLPStream → Except RLPError RLPStream
  | 0, _, _, _ => .error .diverges
  | _ + 1, [], _, s => s.append [] false
  | _ + 1, [(k, v)], preLen, s => do
    let s ← s.appendList 2
    let s ← s.append (hexPrefixEncodeVector k true preLen) false
    s.append v false
  | fuel + 1, (k, v) :: e :: es, preLen, s =>
    let pre := sharedPre k preLen (e :: es) (2 ^ 32 - 1)
    if preLen < pre then do
      let s ← s.appendList 2
      let s ← s.append (hexPrefixEncodeVector k false preLen (some pre)) false
      hash256aux H (hash256rlp fuel ((k, v) :: e :: es) pre) s
    else do
      let s ← s.appendList 17
      let b := if preLen = k.length then e :: es else (k, v) :: e :: es
      let s ← hash256children (fun now => hash256aux H (hash256rlp fuel now (preLen + 1))) preLen
        (List.finRange 16) b s
      s.append (if preLen = k.length then v else []) false

/-- The nibble keys of a map; the order of insertion is the source's. -/
def hexMap (m : BytesMap) : HexMap :=
  m.toList.reverse.foldl (fun h e => h.insert (asNibbles e.1) e.2) ∅

/-- Each call looks at more nibbles of the keys. -/
def rlpFuel (es : List (List Nibble × Bytes)) : ℕ := (es.map fun e => e.1.length).foldr max 0 + 1

def rlp256 (m : BytesMap) : Except RLPError Bytes := do
  let es := (hexMap m).toList
  let s ← if m.isEmpty then RLPStream.append {} [] false else hash256rlp H (rlpFuel es) es 0 {}
  s.out

def hash256 (m : BytesMap) : Except RLPError Bytes := return H.sha3 (← rlp256 H m)

end TrieHash
end Vapory
