import Vapory.Vvm.VMCalls

/-! `VM.cpp`: the instructions, the interpreter loop and its entry. -/
namespace Vapory.Vvm

def u2s (u : U256) : ℤ := if u.getLsbD 255 then -((2 : ℤ) ^ 256 - u.toNat) else u.toNat

def s2u (u : ℤ) : U256 := if u ≥ 0 then BitVec.ofInt 256 u else BitVec.ofInt 256 (2 ^ 256 + u)

/-- `divWorkaround`, in `s512`. -/
def divWorkaround (a b : ℤ) : ℤ := a.tdiv b

/-- `modWorkaround`, in `s512`. -/
def modWorkaround (a b : ℤ) : ℤ := a.tmod b

/-- The loop of `exp256`; 256 turns use up every exponent. -/
def exp256Loop : ℕ → U256 → U256 → U256 → U256
  | 0, result, _, _ => result
  | n + 1, result, base, exponent =>
    if exponent = 0 then result
    else exp256Loop n (if exponent.getLsbD 0 then result * base else result) (base * base)
    (exponent >>> 1)

def exp256 (base exponent : U256) : U256 := exp256Loop 256 1 base exponent

/-- The value of `BYTE`. -/
def byteOf (i v : U256) : U256 := if i < 32 then (v >>> (8 * (31 - i.toNat))) &&& 0xff else 0

/-- What `SIGNEXTEND` makes of `number`. -/
def signExtend (k number : U256) : U256 :=
  if k < 31 then
    let testBit := k.toNat * 8 + 7
    let mask : U256 := (1 <<< testBit) - 1
    if number.getLsbD testBit then number ||| ~~~mask else number &&& mask
  else number

/-- The value of `CALLDATALOAD`. -/
def callDataLoad (data : Bytes) (i : U256) : U256 :=
  if i.toNat + 31 < data.length then wordAt data i.toNat
  else if i.toNat ≥ data.length then 0
  else BitVec.ofNat 256 (BigEndian.value ((List.range 32).map fun j => data.getD (i.toNat + j) 0))

def word (p : Prop) [Decidable p] : U256 := if p then 1 else 0

/-- An instruction that pays for its tier and replaces `m_SPP[0]`. -/
def nullary (v : U256) : MachineM Unit := do
  updateIOGas
  setSpp v

def unary (f : U256 → U256) : MachineM Unit := do
  updateIOGas
  setSpp (f (← sp 0))

def binary (f : U256 → U256 → U256) : MachineM Unit := do
  updateIOGas
  setSpp (f (← sp 0) (← sp 1))

def ternary (f : U256 → U256 → U256 → U256) : MachineM Unit := do
  updateIOGas
  setSpp (f (← sp 0) (← sp 1) (← sp 2))

section
variable (H : Hasher) (E : ExtVMFace)

/-- `CALLDATACOPY`, `CODECOPY` and the end of `RETURNDATACOPY`. -/
def copyToMemory (data : Bytes) : MachineM Unit := do
  let copyMemSize ← toInt63 (← sp 2).toNat
  modify fun s => { s with copyMemSize }
  updateMem E (← memNeed (← sp 0) (← sp 2))
  updateIOGas
  copyDataToMemory data 0

/-- `RETURN`, and `REVERT` up to its exception: the bytes returned. -/
def returned : MachineM Bytes := do
  modify fun s => { s with copyMemSize := 0 }
  updateMem E (← memNeed (← sp 0) (← sp 1))
  updateIOGas
  let s ← get
  return slice s.mem (u64 (← sp 0)).toNat (u64 (← sp 1)).toNat

/-- `LOG0` to `LOG4`. -/
def caseLog (n : ℕ) : MachineM Unit := do
  if E.staticCall then throwDisallowedStateChange
  logGasMem E n
  updateIOGas
  let s ← get
  let topics ← (List.range n).mapM fun i => sp (i + 2)
  ext (.log topics (slice s.mem (u64 (← sp 0)).toNat (u64 (← sp 1)).toNat))

def caseSuicide : MachineM Unit := do
  if E.staticCall then throwDisallowedStateChange
  setRunGas (← toInt63 E.vvmSchedule.suicideGas.toNat)
  let dest := asAddress (← sp 0)
  let balance : U256 ← ext (.balance E.myAddress)
  if balance > 0 ∨ E.vvmSchedule.zeroValueTransferChargesNewAccountGas then
    if E.vvmSchedule.suicideChargesNewAccountGas then
      let found : Bool ← ext (.exists_ dest)
      if !found then addRunGas E.vvmSchedule.callNewAccountGas.toUInt64
  updateIOGas
  ext (.suicide dest)

def caseNext (pc : ℕ) (op : Instruction) : MachineM Unit := do
  match op with
  | .CREATE2 =>
    if !E.vvmSchedule.haveCreate2 then throwBadInstruction
    caseCreate E op
  | .CREATE =>
    if E.staticCall then throwDisallowedStateChange
    caseCreate E op
  | .DELEGATECALL =>
    if !E.vvmSchedule.haveDelegateCall then throwBadInstruction
    caseCall E op
  | .STATICCALL =>
    if !E.vvmSchedule.haveStaticCall then throwBadInstruction
    caseCall E op
  | .CALL =>
    if E.staticCall ∧ (← sp 2) ≠ 0 then throwDisallowedStateChange
    caseCall E op
  | .CALLCODE => caseCall E op
  -- the address is cast to 32 bits
  | .MLOAD =>
    updateMem E ((← toInt63 (← sp 0).toNat) + 32)
    updateIOGas
    let s ← get
    setSpp (wordAt s.mem ((← sp 0).toNat % 2 ^ 32))
  | .MSTORE =>
    updateMem E ((← toInt63 (← sp 0).toNat) + 32)
    updateIOGas
    let off := (← sp 0).toNat % 2 ^ 32
    let v ← sp 1
    modify fun s => { s with mem := write s.mem off (wordBytes v) }
  | .MSTORE8 =>
    updateMem E ((← toInt63 (← sp 0).toNat) + 1)
    updateIOGas
    let off := (← sp 0).toNat % 2 ^ 32
    let v ← sp 1
    modify fun s => { s with mem := write s.mem off [UInt8.ofNat v.toNat] }
  | .SHA3 =>
    let inSize ← sp 1
    setRunGas (← toInt63 (E.vvmSchedule.sha3Gas.toNat + (inSize.toNat + 31) / 32 * E.vvmSchedule.sha3WordGas.toNat))
    updateMem E (← memNeed (← sp 0) inSize)
    updateIOGas
    let s ← get
    setSpp (H.hash (slice s.mem (u64 (← sp 0)).toNat (u64 inSize).toNat))
  | .LOG n => caseLog E n
  | .EXP =>
    let expon ← sp 1
    setRunGas (← toInt63 (E.vvmSchedule.expGas +
      E.vvmSchedule.expByteGas * (32 - UInt32.ofNat (firstBitSet expon) / 8)).toNat)
    updateIOGas
    setSpp (exp256 (← sp 0) expon)
  | .ADD => binary fun a b => a + b
  | .MUL => binary fun a b => a * b
  | .SUB => binary fun a b => a - b
  | .DIV => binary fun a b => if b ≠ 0 then BitVec.ofInt 256 (divWorkaround a.toNat b.toNat) else 0
  | .SDIV => binary fun a b => if b ≠ 0 then s2u (divWorkaround (u2s a) (u2s b)) else 0
  | .MOD => binary fun a b => if b ≠ 0 then BitVec.ofInt 256 (modWorkaround a.toNat b.toNat) else 0
  | .SMOD => binary fun a b => if b ≠ 0 then s2u (modWorkaround (u2s a) (u2s b)) else 0
  | .NOT => unary fun a => ~~~a
  | .LT => binary fun a b => word (a < b)
  | .GT => binary fun a b => word (a > b)
  | .SLT => binary fun a b => word (u2s a < u2s b)
  | .SGT => binary fun a b => word (u2s a > u2s b)
  | .EQ => binary fun a b => word (a = b)
  | .ISZERO => unary fun a => word (a = 0)
  | .AND => binary fun a b => a &&& b
  | .OR => binary fun a b => a ||| b
  | .XOR => binary fun a b => a ^^^ b
  | .BYTE => binary byteOf
  | .ADDMOD =>
    ternary fun a b c => if c ≠ 0 then BitVec.ofNat 256 ((a.toNat + b.toNat) % c.toNat) else 0
  | .MULMOD => ternary fun a b c => if c ≠ 0 then BitVec.ofNat 256 (a.toNat * b.toNat % c.toNat) else 0
  | .SIGNEXTEND =>
    updateIOGas
    setSp 1 (signExtend (← sp 0) (← sp 1))
  | .ADDRESS => nullary (fromAddress E.myAddress)
  | .ORIGIN => nullary (fromAddress E.origin)
  | .BALANCE =>
    setRunGas (← toInt63 E.vvmSchedule.balanceGas.toNat)
    updateIOGas
    setSpp (← ext (.balance (asAddress (← sp 0))))
  | .CALLER => nullary (fromAddress E.caller)
  | .CALLVALUE => nullary E.value
  | .CALLDATALOAD =>
    updateIOGas
    setSp 0 (callDataLoad E.data (← sp 0))
  | .CALLDATASIZE => nullary (BitVec.ofNat 256 E.data.length)
  | .RETURNDATASIZE =>
    if !E.vvmSchedule.haveReturnData then throwBadInstruction
    updateIOGas
    let s ← get
    setSpp (BitVec.ofNat 256 s.returnData.length)
  | .CODESIZE => nullary (BitVec.ofNat 256 E.code.length)
  | .EXTCODESIZE =>
    setRunGas (← toInt63 E.vvmSchedule.extcodesizeGas.toNat)
    updateIOGas
    let size : ℕ ← ext (.codeSizeAt (asAddress (← sp 0)))
    setSpp (BitVec.ofNat 256 size)
  | .CALLDATACOPY => copyToMemory E E.data
  | .RETURNDATACOPY =>
    if !E.vvmSchedule.haveReturnData then throwBadInstruction
    let endOfAccess := (← sp 1).toNat + (← sp 2).toNat
    let s ← get
    if s.returnData.length < endOfAccess then throwBufferOverrun endOfAccess
    copyToMemory E s.returnData
  | .CODECOPY => copyToMemory E E.code
  | .EXTCODECOPY =>
    setRunGas (← toInt63 E.vvmSchedule.extcodecopyGas.toNat)
    let copyMemSize ← toInt63 (← sp 3).toNat
    modify fun s => { s with copyMemSize }
    updateMem E (← memNeed (← sp 1) (← sp 3))
    updateIOGas
    let code : Bytes ← ext (.codeAt (asAddress (← sp 0)))
    copyDataToMemory code 1
  | .GASPRICE => nullary E.gasPrice
  | .BLOCKHASH =>
    setRunGas (← toInt63 E.vvmSchedule.blockhashGas.toNat)
    updateIOGas
    setSpp (← ext (.blockHash (← sp 0)))
  | .COINBASE => nullary (fromAddress E.envInfo.author)
  | .TIMESTAMP => nullary E.envInfo.timestamp
  | .NUMBER => nullary E.envInfo.number
  | .DIFFICULTY => nullary E.envInfo.difficulty
  | .GASLIMIT => nullary E.envInfo.gasLimit
  | .POP => updateIOGas
  | .DUP n =>
    updateIOGas
    setSpp (← sp n)
  | .SWAP n =>
    updateIOGas
    let a ← sp 0
    let b ← sp (n + 1)
    setSp 0 b
    setSp (n + 1) a
  | .SLOAD =>
    setRunGas (← toInt63 E.vvmSchedule.sloadGas.toNat)
    updateIOGas
    setSpp (← ext (.store (← sp 0)))
  | .SSTORE =>
    if E.staticCall then throwDisallowedStateChange
    updateSSGas E
    updateIOGas
    ext (.setStore (← sp 0) (← sp 1))
  | .PC => nullary (BitVec.ofNat 256 pc)
  | .MSIZE =>
    updateIOGas
    let s ← get
    setSpp (BitVec.ofNat 256 s.mem.length)
  | .GAS =>
    updateIOGas
    let s ← get
    setSpp (BitVec.ofNat 256 s.ioGas.toNat)
  | .JUMPDEST =>
    setRunGas 1
    updateIOGas
  -- `INVALID`, the undefined instructions and those of EIP 615 and 616, which are off
  | _ => throwBadInstruction

def caseHalt : Instruction → Option (MachineM Bytes)
  | .RETURN => some (returned E)
  | .REVERT => some do
    if !E.vvmSchedule.haveRevert then throwBadInstruction
    throwRevertInstruction (← returned E)
  | .SUICIDE => some do
    caseSuicide E
    return []
  | .STOP => some do
    updateIOGas
    return []
  | _ => none

end

/-- What the interpreter reads of the code: the instruction and the bytes at a position,
the constant pool, and whether a jump may go to a destination. -/
structure Text where
  fetch : ℕ → Instruction
  byte : ℕ → Byte
  pool : ℕ → U256
  verifyJumpDest : U256 → Option ℕ

/-- `(v << 8) | m_code[i]`, repeated over `n` bytes. -/
def readBytes (byte : ℕ → Byte) : ℕ → ℕ → U256 → U256
  | 0, _, v => v
  | n + 1, i, v => readBytes byte n (i + 1) ((v <<< 8) ||| BitVec.ofNat 256 (byte i).toNat)

inductive Next where
  | continue (pc : ℕ)
  | halt (output : Bytes)

namespace Text
variable (T : Text)

/-- The value that `PUSH` instructions put on the stack; `PUSH1` has a case of its own. -/
def pushed (pc : ℕ) (n : Fin 32) : U256 :=
  if n = 0 then BitVec.ofNat 256 (T.byte (pc + 1)).toNat else readBytes T.byte (n + 1) (pc + 1) 0

/-- `verifyJumpDest(dest)`, throwing. -/
def jumpTo (dest : U256) : MachineM Next :=
  match T.verifyJumpDest dest with
  | some pc => return .continue pc
  | none => throwBadJumpDestination

/-- `PUSHC`: two bytes of pool offset, then the number of bytes to skip. -/
def casePushc (pc : ℕ) : MachineM Next := do
  updateIOGas
  let off := (T.byte (pc + 1)).toNat <<< 8 ||| (T.byte (pc + 2)).toNat
  setSpp (T.pool off)
  return .continue (pc + 3 + (T.byte (pc + 3)).toNat)

def casePush (pc : ℕ) (n : Fin 32) : MachineM Next := do
  updateIOGas
  setSpp (T.pushed pc n)
  return .continue (pc + n + 2)

def caseJump : MachineM Next := do
  updateIOGas
  T.jumpTo (← sp 0)

def caseJumpi (pc : ℕ) : MachineM Next := do
  updateIOGas
  if (← sp 1) ≠ 0 then T.jumpTo (← sp 0) else return .continue (pc + 1)

end Text

/-- `JUMPC`, to a destination that was verified before. -/
def caseJumpc : MachineM Next := do
  updateIOGas
  return .continue (u64 (← sp 0)).toNat

def caseJumpci (pc : ℕ) : MachineM Next := do
  updateIOGas
  if (← sp 1) ≠ 0 then return .continue (u64 (← sp 0)).toNat else return .continue (pc + 1)

section
variable (H : Hasher) (E : ExtVMFace) (T : Text)

def caseOrdinary (pc : ℕ) (op : Instruction) : MachineM Next :=
  match caseHalt E op with
  | some halt => return .halt (← halt)
  | none => do
    caseNext H E pc op
    return .continue (pc + 1)

def caseOf (pc : ℕ) (op : Instruction) : MachineM Next :=
  match op with
  | .PUSHC => T.casePushc pc
  | .PUSH n => T.casePush pc n
  | .JUMP => T.caseJump
  | .JUMPI => T.caseJumpi pc
  | .JUMPC => caseJumpc
  | .JUMPCI => caseJumpci pc
  | op => caseOrdinary H E pc op

def step (pc : ℕ) : MachineM Next := do
  fetchInstruction E (T.fetch pc)
  caseOf H E T pc (T.fetch pc)

/-- `interpretCases`, for at most so many instructions; `none` if they are not enough. -/
def interpretCases : ℕ → ℕ → MachineM (Option Bytes)
  | 0, _ => return none
  | n + 1, pc => do
    match ← step H E T pc with
    | .continue pc => interpretCases n pc
    | .halt output => return some output

/-- `exec` on a text: the output or the exception, and the gas left. -/
def execText (n : ℕ) (gas : U256) :
    Prog ExtCall ExtCall.Answer (Except VMException (Option Bytes) × U256) := do
  let (result, s) ← (interpretCases H E T n 0).runFrom (.init (u64 gas))
  return (result, BitVec.ofNat 256 s.ioGas.toNat)

inductive Reaches (gas : U256) : ℕ → Machine → Prop where
  | init : Reaches gas 0 (.init (u64 gas))
  | step {pc pc' : ℕ} {s s' : Machine} (h : Reaches gas pc s)
      (hs : ((step H E T pc).runFrom s).Returns (.ok (.continue pc'), s')) : Reaches gas pc' s'

end
end Vapory.Vvm
