import Mathlib.Data.List.Basic

/-! Byte strings and `vector_ref<byte const>`, the non-owning views that the RLP
reader works on. A view is a pointer into a buffer and a count. -/
namespace Vapory

abbrev Byte := UInt8
abbrev Bytes := List UInt8

/-- `bytesConstRef`. `ptr` is the offset of `m_data` in the buffer it points into and
`none` is the null pointer; two views of one buffer compare by pointer and count. -/
structure BytesRef where
  buf : Bytes
  ptr : Option ℕ
  count : ℕ
deriving DecidableEq, Repr

namespace BytesRef

def null (buf : Bytes) : BytesRef := ⟨buf, none, 0⟩

/-- `vector_ref(std::vector const*)`. -/
def ofBytes (b : Bytes) : BytesRef := ⟨b, some 0, b.length⟩

/-- `m_data[_i]`. -/
def get (r : BytesRef) (i : ℕ) : Byte :=
  match r.ptr with
  | none => 0
  | some p => r.buf.getD (p + i) 0

/-- `toBytes()`, the bytes in view. -/
def toBytes (r : BytesRef) : Bytes :=
  match r.ptr with
  | none => []
  | some p => (r.buf.drop p).take r.count

/-- The next chunk of `size()` elements. -/
def next (r : BytesRef) : BytesRef :=
  match r.ptr with
  | none => r
  | some p => ⟨r.buf, some (p + r.count), r.count⟩

/-- `retarget(_d.data(), _s)`. -/
def retarget (_r d : BytesRef) (s : ℕ) : BytesRef := ⟨d.buf, d.ptr, s⟩

/-- `cropped(_begin, _count)`: out of bounds in any way gives the null view. A
`_count` of `~size_t(0)` never passes the bound, so its special case is not reached. -/
def cropped (r : BytesRef) (b c : ℕ) : BytesRef :=
  match r.ptr with
  | none => null r.buf
  | some p =>
    if b ≤ r.count ∧ c ≤ r.count ∧ b + c ≤ r.count then ⟨r.buf, some (p + b), c⟩ else null r.buf

/-- `cropped(_begin)`: everything from `_begin` on. -/
def croppedFrom (r : BytesRef) (b : ℕ) : BytesRef :=
  match r.ptr with
  | none => null r.buf
  | some p => if b ≤ r.count then ⟨r.buf, some (p + b), r.count - b⟩ else null r.buf

/-- `operator==`: pointer and count. -/
def same (a b : BytesRef) : Bool := a.ptr = b.ptr ∧ a.count = b.count

/-- The view of `n` bytes of `buf` from offset `p`. -/
def window (buf : Bytes) (p n : ℕ) : BytesRef := ⟨buf, some p, n⟩

variable (buf : Bytes) (p n : ℕ)

@[simp] theorem window_buf : (window buf p n).buf = buf := rfl
@[simp] theorem window_count : (window buf p n).count = n := rfl
@[simp] theorem window_ptr : (window buf p n).ptr = some p := rfl
@[simp] theorem null_count : (null buf).count = 0 := rfl
@[simp] theorem null_buf : (null buf).buf = buf := rfl

@[simp] theorem window_toBytes : (window buf p n).toBytes = (buf.drop p).take n := rfl

@[simp] theorem window_get (i : ℕ) : (window buf p n).get i = (buf.drop p).getD i 0 := by
  simp [window, get]

theorem window_cropped {b c : ℕ} (h : b + c ≤ n) :
    (window buf p n).cropped b c = window buf (p + b) c := by
  have hb : b ≤ n := by omega
  have hc : c ≤ n := by omega
  simp [window, cropped, h, hb, hc]

theorem window_croppedFrom {b : ℕ} (h : b ≤ n) :
    (window buf p n).croppedFrom b = window buf (p + b) (n - b) := by
  simp [window, croppedFrom, h]

@[simp] theorem ofBytes_eq_window (b : Bytes) : ofBytes b = window b 0 b.length := rfl

end BytesRef
end Vapory
