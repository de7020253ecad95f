import Vapory.Devcore.RLPCodec
import Vapory.Devcore.TrieCommon

/-! The 256-bit and 160-bit words of `Common.h` and `FixedHash.h`, and hashes as words. -/
namespace Vapory

abbrev U256 := BitVec 256
abbrev H256 := BitVec 256
abbrev Address := BitVec 160

def right160 (h : H256) : Address := h.setWidth 160

/-- `h256(v).firstBitSet()`. -/
def firstBitSet (v : H256) : ℕ := ((List.range 256).find? fun i => v.getMsbD i).getD 256

/-- `sha3`, of which only this is used: it is a function to 32 bytes. -/
structure Hasher where
  sha3 : Bytes → Bytes
  size : ∀ b, (sha3 b).length = 32

namespace Hasher
variable (H : Hasher)

/-- `(u256)sha3(b)`. -/
def hash (b : Bytes) : H256 := BitVec.ofNat 256 (BigEndian.value (H.sha3 b))

def emptySHA3 : H256 := H.hash []

/-- `EmptyTrie`, the hash of `rlp("")`. -/
def emptyTrie : H256 := H.hash [0x80]

end Hasher
end Vapory
