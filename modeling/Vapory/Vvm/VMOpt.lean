import Vapory.Base.BinarySearch
import Vapory.Vvm.VM

/-! `VMOpt.cpp`: the code that the interpreter runs is a rewritten copy. Long pushes
become `PUSHC` with a constant pool, and jumps to a pushed constant that is a jump
destination become `JUMPC` and `JUMPCI`, which do not look it up again. -/
namespace Vapory.Vvm

/-- The members of `VM` that hold the code. -/
structure Program where
  code : Bytes
  jumpDests : List ℕ
  pool : List U256
deriving DecidableEq

/-- `Instruction(m_code[pc])`. -/
def opAt (code : Bytes) (pc : ℕ) : Instruction := .ofByte (code.getD pc 0)

/-- `verifyJumpDest(_dest, false)`. -/
def verifyJumpDest (jumpDests : List ℕ) (dest : U256) : Option ℕ :=
  let pc := (u64 dest).toNat
  if dest.toNat ≤ 0x7FFFFFFFFFFFFFFF ∧ binarySearch jumpDests pc then some pc else none

def copyCode (code : Bytes) (extraBytes : ℕ) : Bytes := code ++ List.replicate extraBytes 0

namespace Program

/-- The shape of both loops of `optimize`: a turn at every instruction, `pc` then moving
past it and its push data. There are at most `n` turns. -/
def scan (turn : Program → ℕ → Program) (nBytes : ℕ) : ℕ → ℕ → Program → Program
  | 0, _, p => p
  | n + 1, pc, p =>
    if pc < nBytes then scan turn nBytes n (pc + (opAt p.code pc).size) (turn p pc) else p

/-- The first loop: the table of jump destinations, with the synthetic instructions of the
user's code made invalid. -/
def buildJumpDest (p : Program) (pc : ℕ) : Program :=
  { p with
    code := if (opAt p.code pc).isSynthetic then p.code.set pc 0xfe else p.code
    jumpDests := if opAt p.code pc = .JUMPDEST then p.jumpDests ++ [pc] else p.jumpDests }

/-- A push of more than five bytes becomes `PUSHC`, with the value in the pool. The offset
has 16 bits. -/
def stash (p : Program) (pc nPush : ℕ) (val : U256) : Program :=
  let poolOff := p.pool.length % 2 ^ 16
  { p with
    pool := p.pool ++ [val]
    code := (((p.code.set pc 0xac).set (pc + 3) (UInt8.ofNat (nPush - 2))).set (pc + 2)
      (UInt8.ofNat (poolOff % 256))).set (pc + 1) (UInt8.ofNat (poolOff / 256)) }

/-- A jump at `i` that follows a push of `val` becomes a jump without a check. -/
def replaceJump (p : Program) (i : ℕ) (val : U256) : Program :=
  match opAt p.code i with
  | .JUMP =>
    if (verifyJumpDest p.jumpDests val).isSome then { p with code := p.code.set i 0xad } else p
  | .JUMPI =>
    if (verifyJumpDest p.jumpDests val).isSome then { p with code := p.code.set i 0xae } else p
  | _ => p

/-- The turn of the second loop at `PUSH k`. -/
def rewritePush (p : Program) (pc : ℕ) (k : Fin 32) : Program :=
  let nPush := (k : ℕ) + 1
  let byte i := p.code.getD i 0
  let val := readBytes byte k (pc + 2) (BitVec.ofNat 256 (byte (pc + 1)).toNat)
  let p := if 5 < nPush then p.stash pc nPush val else p
  p.replaceJump (pc + nPush + 1) val

/-- The second loop: only pushes are looked at. -/
def rewrite (p : Program) (pc : ℕ) : Program :=
  match opAt p.code pc with
  | .PUSH k => p.rewritePush pc k
  | _ => p

def optimize (code : Bytes) : Program :=
  let n := code.length
  scan rewrite n n 0 (scan buildJumpDest n n 0 ⟨copyCode code 33, [], []⟩)

def text (p : Program) : Text where
  fetch := opAt p.code
  byte i := p.code.getD i 0
  pool off := p.pool.getD off 0
  verifyJumpDest := verifyJumpDest p.jumpDests

end Program

/-- `VM::exec`, for at most `n` instructions. -/
def exec (H : Hasher) (E : ExtVMFace) (n : ℕ) (gas : U256) :
    Prog ExtCall ExtCall.Answer (Except VMException (Option Bytes) × U256) :=
  execText H E (Program.optimize E.code).text n gas

end Vapory.Vvm
