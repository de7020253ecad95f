import Vapory.Devcore.VectorRef

/-! `Instruction.h` and `Instruction.cpp`: the instructions of the virtual machine, the
byte of each, and the metrics that the interpreter keeps for them. -/
namespace Vapory.Vvm

/-- `Instruction`. `PUSH n` is `PUSH1 + n`, and so on for the other families;
`undefined` stands for the bytes that the enumeration has no name for. -/
inductive Instruction where
  | STOP | ADD | MUL | SUB | DIV | SDIV | MOD | SMOD | ADDMOD | MULMOD | EXP | SIGNEXTEND
  | LT | GT | SLT | SGT | EQ | ISZERO | AND | OR | XOR | NOT | BYTE
  | SHA3
  | ADDRESS | BALANCE | ORIGIN | CALLER | CALLVALUE | CALLDATALOAD | CALLDATASIZE | CALLDATACOPY
  | CODESIZE | CODECOPY | GASPRICE | EXTCODESIZE | EXTCODECOPY | RETURNDATASIZE | RETURNDATACOPY
  | BLOCKHASH | COINBASE | TIMESTAMP | NUMBER | DIFFICULTY | GASLIMIT
  | POP | MLOAD | MSTORE | MSTORE8 | SLOAD | SSTORE | JUMP | JUMPI | PC | MSIZE | GAS | JUMPDEST
  | PUSH (n : Fin 32) | DUP (n : Fin 16) | SWAP (n : Fin 16) | LOG (n : Fin 5)
  | PUSHC | JUMPC | JUMPCI
  | JUMPTO | JUMPIF | JUMPSUB | JUMPV | JUMPSUBV | BEGINSUB | BEGINDATA | RETURNSUB | PUTLOCAL | GETLOCAL
  | XADD | XMUL | XSUB | XDIV | XSDIV | XMOD | XSMOD
  | XLT | XGT | XSLT | XSGT | XEQ | XISZERO | XAND | XOOR | XXOR | XNOT | XSHL | XSHR | XSAR | XROL | XROR
  | XPUSH | XMLOAD | XMSTORE | XSLOAD | XSSTORE | XVTOWIDE | XWIDETOV | XGET | XPUT | XSWIZZLE | XSHUFFLE
  | CREATE | CALL | CALLCODE | RETURN | DELEGATECALL | STATICCALL | CREATE2 | REVERT | INVALID | SUICIDE
  | undefined
deriving DecidableEq, Repr

namespace Instruction

/-- The instruction of each byte in turn, as the interpreter's jump table has them. -/
def table : List Instruction :=
  /- 00 -/ [STOP, ADD, MUL, SUB, DIV, SDIV, MOD, SMOD, ADDMOD, MULMOD, EXP, SIGNEXTEND] ++
    .replicate 4 undefined ++
  /- 10 -/ [LT, GT, SLT, SGT, EQ, ISZERO, AND, OR, XOR, NOT, BYTE] ++ .replicate 5 undefined ++
  /- 20 -/ [SHA3] ++ .replicate 15 undefined ++
  /- 30 -/ [ADDRESS, BALANCE, ORIGIN, CALLER, CALLVALUE, CALLDATALOAD, CALLDATASIZE, CALLDATACOPY,
    CODESIZE, CODECOPY, GASPRICE, EXTCODESIZE, EXTCODECOPY, RETURNDATASIZE, RETURNDATACOPY,
    undefined] ++
  /- 40 -/ [BLOCKHASH, COINBASE, TIMESTAMP, NUMBER, DIFFICULTY, GASLIMIT] ++ .replicate 10 undefined ++
  /- 50 -/ [POP, MLOAD, MSTORE, MSTORE8, SLOAD, SSTORE, JUMP, JUMPI, PC, MSIZE, GAS, JUMPDEST] ++
    .replicate 4 undefined ++
  /- 60 -/ (List.finRange 32).map PUSH ++
  /- 80 -/ (List.finRange 16).map DUP ++
  /- 90 -/ (List.finRange 16).map SWAP ++
  /- a0 -/ (List.finRange 5).map LOG ++ .replicate 7 undefined ++ [PUSHC, JUMPC, JUMPCI, undefined] ++
  /- b0 -/ [JUMPTO, JUMPIF, JUMPSUB, JUMPV, JUMPSUBV, BEGINSUB, BEGINDATA, RETURNSUB, PUTLOCAL,
    GETLOCAL] ++ .replicate 6 undefined ++
  /- c0 -/ [undefined, XADD, XMUL, XSUB, XDIV, XSDIV, XMOD, XSMOD] ++ .replicate 8 undefined ++
  /- d0 -/ [XLT, XGT, XSLT, XSGT, XEQ, XISZERO, XAND, XOOR, XXOR, XNOT, undefined, XSHL, XSHR, XSAR,
    XROL, XROR] ++
  /- e0 -/ [XPUSH, XMLOAD, XMSTORE, undefined, XSLOAD, XSSTORE, XVTOWIDE, XWIDETOV, XGET, XPUT,
    XSWIZZLE, XSHUFFLE] ++ .replicate 4 undefined ++
  /- f0 -/ [CREATE, CALL, CALLCODE, RETURN, DELEGATECALL] ++ .replicate 5 undefined ++
    [STATICCALL, CREATE2, undefined, REVERT, INVALID, SUICIDE]

/-- `Instruction(b)`. -/
def ofByte (b : Byte) : Instruction := table.getD b.toNat undefined

def isSynthetic : Instruction → Bool
  | PUSHC | JUMPC | JUMPCI => true
  | _ => false

def size : Instruction → ℕ
  | PUSH n => n + 2
  | _ => 1

end Instruction

inductive Tier where
  | Zero | Base | VeryLow | Low | Mid | High | Ext | Special | Invalid
deriving DecidableEq, Repr

structure InstructionMetric where
  gasPriceTier : Tier
  args : ℕ
  ret : ℕ
deriving DecidableEq, Repr

namespace Instruction

/-- `c_metrics`, filled from `c_instructionInfo`. The table lists `XOR` twice, where
`std::map` keeps the first, and `XOOR` not at all. -/
def metric : Instruction → InstructionMetric
  | STOP => ⟨.Zero, 0, 0⟩
  | ADD | SUB => ⟨.VeryLow, 2, 1⟩
  | MUL | DIV | SDIV | MOD | SMOD => ⟨.Low, 2, 1⟩
  | EXP => ⟨.Special, 2, 1⟩
  | NOT => ⟨.VeryLow, 1, 1⟩
  | LT | GT | SLT | SGT | EQ => ⟨.VeryLow, 2, 1⟩
  | ISZERO => ⟨.VeryLow, 1, 1⟩
  | AND | OR | XOR | BYTE => ⟨.VeryLow, 2, 1⟩
  | ADDMOD | MULMOD => ⟨.Mid, 3, 1⟩
  | SIGNEXTEND => ⟨.Low, 2, 1⟩
  | SHA3 => ⟨.Special, 2, 1⟩
  | ADDRESS => ⟨.Base, 0, 1⟩
  | BALANCE => ⟨.Special, 1, 1⟩
  | ORIGIN | CALLER | CALLVALUE => ⟨.Base, 0, 1⟩
  | CALLDATALOAD => ⟨.VeryLow, 1, 1⟩
  | CALLDATASIZE => ⟨.Base, 0, 1⟩
  | CALLDATACOPY => ⟨.VeryLow, 3, 0⟩
  | CODESIZE => ⟨.Base, 0, 1⟩
  | CODECOPY => ⟨.VeryLow, 3, 0⟩
  | GASPRICE => ⟨.Base, 0, 1⟩
  | EXTCODESIZE => ⟨.Special, 1, 1⟩
  | EXTCODECOPY => ⟨.Special, 4, 0⟩
  | RETURNDATASIZE => ⟨.Base, 0, 1⟩
  | RETURNDATACOPY => ⟨.VeryLow, 3, 0⟩
  | BLOCKHASH => ⟨.Special, 1, 1⟩
  | COINBASE | TIMESTAMP | NUMBER | DIFFICULTY | GASLIMIT => ⟨.Base, 0, 1⟩
  | POP => ⟨.Base, 1, 0⟩
  | MLOAD => ⟨.VeryLow, 1, 1⟩
  | MSTORE | MSTORE8 => ⟨.VeryLow, 2, 0⟩
  | SLOAD => ⟨.Special, 1, 1⟩
  | SSTORE => ⟨.Special, 2, 0⟩
  | JUMP => ⟨.Mid, 1, 0⟩
  | JUMPI => ⟨.High, 2, 0⟩
  | PC | MSIZE | GAS => ⟨.Base, 0, 1⟩
  | JUMPDEST => ⟨.Special, 0, 0⟩
  | PUSH _ => ⟨.VeryLow, 0, 1⟩
  | DUP n => ⟨.VeryLow, n + 1, n + 2⟩
  | SWAP n => ⟨.VeryLow, n + 2, n + 2⟩
  | LOG n => ⟨.Special, n + 2, 0⟩
  | JUMPTO => ⟨.VeryLow, 1, 0⟩
  | JUMPIF => ⟨.Low, 2, 0⟩
  | JUMPV => ⟨.Mid, 1, 0⟩
  | JUMPSUB => ⟨.Low, 1, 0⟩
  | JUMPSUBV => ⟨.Mid, 1, 0⟩
  | BEGINSUB | BEGINDATA => ⟨.Special, 0, 0⟩
  | RETURNSUB => ⟨.Mid, 1, 0⟩
  | PUTLOCAL => ⟨.VeryLow, 1, 0⟩
  | GETLOCAL => ⟨.VeryLow, 0, 1⟩
  | XADD => ⟨.Special, 0, 0⟩
  | XMUL | XSUB | XDIV | XSDIV | XMOD | XSMOD => ⟨.Special, 2, 1⟩
  | XLT | XGT | XSLT | XSGT | XEQ | XISZERO => ⟨.Special, 2, 1⟩
  | XAND => ⟨.Special, 1, 1⟩
  | XOOR => ⟨.Invalid, 0, 0⟩
  | XXOR | XNOT | XSHL | XSHR | XSAR | XROL | XROR => ⟨.Special, 2, 1⟩
  | XPUSH | XMLOAD => ⟨.VeryLow, 1, 1⟩
  | XMSTORE => ⟨.VeryLow, 2, 0⟩
  | XSLOAD => ⟨.Special, 1, 1⟩
  | XSSTORE => ⟨.Special, 2, 0⟩
  | XVTOWIDE | XWIDETOV => ⟨.VeryLow, 1, 1⟩
  | XPUT => ⟨.Special, 3, 1⟩
  | XGET | XSWIZZLE => ⟨.Special, 2, 1⟩
  | XSHUFFLE => ⟨.Special, 3, 1⟩
  | CREATE => ⟨.Special, 3, 1⟩
  | CREATE2 => ⟨.Special, 4, 1⟩
  | CALL | CALLCODE => ⟨.Special, 7, 1⟩
  | RETURN => ⟨.Zero, 2, 0⟩
  | STATICCALL | DELEGATECALL => ⟨.Special, 6, 1⟩
  | REVERT => ⟨.Special, 2, 0⟩
  | INVALID => ⟨.Zero, 0, 0⟩
  | SUICIDE => ⟨.Special, 1, 0⟩
  | PUSHC => ⟨.VeryLow, 0, 1⟩
  | JUMPC => ⟨.Mid, 1, 0⟩
  | JUMPCI => ⟨.High, 2, 0⟩
  | undefined => ⟨.Invalid, 0, 0⟩

end Instruction
end Vapory.Vvm
