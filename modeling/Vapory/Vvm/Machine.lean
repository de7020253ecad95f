import Vapory.Vvm.ExtVMFace

/-! The state of the interpreter and what every instruction does to it: stack pointers,
memory and metering, from `VM.h` and the first part of `VM.cpp`. -/
namespace Vapory.Vvm

inductive VMException where
  | OutOfGas
  | BadInstruction
  | BadJumpDestination
  | DisallowedStateChange
  | StackUnderflow (required got : ℤ)
  | OutOfStack (required got : ℤ)
  | BufferOverrun (required got : ℤ)
  | RevertInstruction (output : Bytes)
deriving DecidableEq

/-- `VM` between two instructions, without the code. The stack grows towards smaller
indices from `stackEnd`; `sp` and `spp` index into it. -/
structure Machine where
  ioGas : UInt64
  mem : Bytes
  returnData : Bytes
  stack : ℕ → U256
  sp : ℕ
  spp : ℕ
  runGas : UInt64
  newMemSize : UInt64
  copyMemSize : UInt64

namespace Machine

def stackEnd : ℕ := 1024

def init (gas : UInt64) : Machine where
  ioGas := gas
  mem := []
  returnData := []
  stack := fun _ => 0
  sp := stackEnd
  spp := stackEnd
  runGas := 0
  newMemSize := 0
  copyMemSize := 0

end Machine

abbrev MachineM := ProgT ExtCall ExtCall.Answer VMException Machine

/-- A call into `ExtVMFace`. -/
def ext (q : ExtCall) : MachineM q.Answer := ProgT.ask q

/-- `uint64_t(v)`, the low 64 bits. -/
def u64 (v : U256) : UInt64 := UInt64.ofNat v.toNat

/-- `m_SP[i]`. -/
def sp (i : ℕ) : MachineM U256 := do
  let s ← get
  return s.stack (s.sp + i)

/-- `m_SP[i] = v`. -/
def setSp (i : ℕ) (v : U256) : MachineM Unit :=
  modify fun s => { s with stack := Function.update s.stack (s.sp + i) v }

/-- `m_SPP[0] = v`. -/
def setSpp (v : U256) : MachineM Unit :=
  modify fun s => { s with stack := Function.update s.stack s.spp v }

/-- `m_runGas = gas`. -/
def setRunGas (gas : UInt64) : MachineM Unit := modify fun s => { s with runGas := gas }

/-- `m_runGas += gas`. -/
def addRunGas (gas : UInt64) : MachineM Unit := modify fun s => { s with runGas := s.runGas + gas }

def throwOutOfGas {α : Type} : MachineM α := throw .OutOfGas
def throwBadInstruction {α : Type} : MachineM α := throw .BadInstruction
def throwBadJumpDestination {α : Type} : MachineM α := throw .BadJumpDestination
def throwDisallowedStateChange {α : Type} : MachineM α := throw .DisallowedStateChange
def throwRevertInstruction {α : Type} (output : Bytes) : MachineM α :=
  throw (.RevertInstruction output)

/-- `spp` is the pointer that went out of bounds. -/
def throwBadStack {α : Type} (spp : ℤ) (removed added : ℕ) : MachineM α :=
  let size := (Machine.stackEnd : ℤ) - spp
  if size < removed then throw (.StackUnderflow removed size) else throw
    (.OutOfStack (added - removed) size)

def throwBufferOverrun {α : Type} (endOfAccess : ℕ) : MachineM α := do
  let s ← get
  throw (.BufferOverrun endOfAccess s.returnData.length)

/-- `toInt63` of an unsigned integer of any width. -/
def toInt63 (v : ℕ) : MachineM UInt64 :=
  if v > 0x7FFFFFFFFFFFFFFF then throwOutOfGas else return UInt64.ofNat v

def memNeed (offset size : U256) : MachineM UInt64 :=
  toInt63 (if size ≠ 0 then offset.toNat + size.toNat else 0)

def adjustStack (removed added : ℕ) : MachineM Unit := do
  modify fun s => { s with sp := s.spp }
  modify fun s => { s with spp := s.spp + removed }
  let s ← get
  if Machine.stackEnd < s.spp then throwBadStack s.spp removed added
  if s.spp < added then throwBadStack ((s.spp : ℤ) - added) removed added
  modify fun s => { s with spp := s.spp - added }

section
variable (E : ExtVMFace)

/-- The unsigned arithmetic is in `u512`, which no intermediate value exceeds. -/
def gasForMem (size : ℕ) : MachineM UInt64 :=
  let s := size / 32
  toInt63 (E.vvmSchedule.memoryGas.toNat * s + s * s / E.vvmSchedule.quadCoeffDiv.toNat)

def updateIOGas : MachineM Unit := do
  let s ← get
  if s.ioGas < s.runGas then throwOutOfGas
  modify fun s => { s with ioGas := s.ioGas - s.runGas }

def updateGas : MachineM Unit := do
  let s ← get
  if s.newMemSize.toNat > s.mem.length then
    let new ← gasForMem E s.newMemSize.toNat
    let old ← gasForMem E s.mem.length
    addRunGas (← toInt63 (new - old).toNat)
  addRunGas (E.vvmSchedule.copyGas.toUInt64 * ((s.copyMemSize + 31) / 32))
  let s ← get
  if s.ioGas < s.runGas then throwOutOfGas

def updateMem (newMem : UInt64) : MachineM Unit := do
  modify fun s => { s with newMemSize := (newMem + 31) / 32 * 32 }
  updateGas E
  modify fun s =>
    if s.newMemSize.toNat > s.mem.length then
      { s with mem := s.mem ++ List.replicate (s.newMemSize.toNat - s.mem.length) 0 }
    else s

/-- Two calls of `store` unless the first decides. -/
def updateSSGas : MachineM Unit := do
  let key ← sp 0
  let value ← sp 1
  let old : U256 ← ext (.store key)
  if old = 0 ∧ value ≠ 0 then
    setRunGas (← toInt63 E.vvmSchedule.sstoreSetGas.toNat)
  else
    let old : U256 ← ext (.store key)
    if old ≠ 0 ∧ value = 0 then
      setRunGas (← toInt63 E.vvmSchedule.sstoreResetGas.toNat)
      ext (.addRefund (BitVec.ofNat 256 E.vvmSchedule.sstoreRefundGas.toNat))
    else
      setRunGas (← toInt63 E.vvmSchedule.sstoreResetGas.toNat)

def logGasMem (n : ℕ) : MachineM Unit := do
  let size ← sp 1
  setRunGas (← toInt63 ((E.vvmSchedule.logGas + E.vvmSchedule.logTopicGas * UInt32.ofNat n).toNat +
    E.vvmSchedule.logDataGas.toNat * size.toNat))
  updateMem E (← memNeed (← sp 0) size)

/-- `tierStepGas[tier]`. The array ends before `Invalid`; every instruction of that tier
throws before its gas is used. -/
def tierStepGas : Tier → UInt32
  | .Zero => E.vvmSchedule.tierStepGas 0
  | .Base => E.vvmSchedule.tierStepGas 1
  | .VeryLow => E.vvmSchedule.tierStepGas 2
  | .Low => E.vvmSchedule.tierStepGas 3
  | .Mid => E.vvmSchedule.tierStepGas 4
  | .High => E.vvmSchedule.tierStepGas 5
  | .Ext => E.vvmSchedule.tierStepGas 6
  | .Special => E.vvmSchedule.tierStepGas 7
  | .Invalid => 0

/-- `fetchInstruction` after `m_OP` is read. -/
def fetchInstruction (op : Instruction) : MachineM Unit := do
  adjustStack op.metric.args op.metric.ret
  setRunGas (← toInt63 (tierStepGas E op.metric.gasPriceTier).toNat)
  modify fun s => { s with newMemSize := UInt64.ofNat s.mem.length, copyMemSize := 0 }

end

/-- `bytesConstRef(m_mem.data() + off, size)` of a buffer. -/
def slice (buf : Bytes) (off size : ℕ) : Bytes := (buf.drop off).take size

/-- The buffer with `bs` written at `off`. -/
def write (buf : Bytes) (off : ℕ) (bs : Bytes) : Bytes :=
  buf.take off ++ bs ++ buf.drop (off + bs.length)

/-- `(u256)*(h256 const*)(buf.data() + off)`. -/
def wordAt (buf : Bytes) (off : ℕ) : U256 := BitVec.ofNat 256 (BigEndian.value (slice buf off 32))

/-- `h256(v)`, 32 bytes with the most significant first. -/
def wordBytes (v : U256) : Bytes :=
  (List.range 32).map fun i => UInt8.ofNat (v.toNat / 256 ^ (31 - i))

def asAddress (item : U256) : Address := right160 item

def fromAddress (a : Address) : U256 := a.setWidth 256

end Vapory.Vvm
