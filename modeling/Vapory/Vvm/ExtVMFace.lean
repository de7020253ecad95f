import Mathlib.Data.Fin.VecNotation
import Vapory.Base.Prog
import Vapory.Devcore.FixedHash
import Vapory.Vvm.Instruction

/-! `ExtVMFace.h` and `VVMSchedule.h`: what the virtual machine sees of the world. The
data members that it reads are a record; the virtual functions that it calls are questions. -/
namespace Vapory.Vvm

/-- `VVMSchedule`, the fields that the interpreter and its callers read. -/
structure VVMSchedule where
  exceptionalFailedCodeDeposit : Bool
  haveDelegateCall : Bool
  eip150Mode : Bool
  eip158Mode : Bool
  haveRevert : Bool
  haveReturnData : Bool
  haveStaticCall : Bool
  haveCreate2 : Bool
  tierStepGas : Fin 8 → UInt32
  expGas : UInt32
  expByteGas : UInt32
  sha3Gas : UInt32
  sha3WordGas : UInt32
  sloadGas : UInt32
  sstoreSetGas : UInt32
  sstoreResetGas : UInt32
  sstoreRefundGas : UInt32
  logGas : UInt32
  logDataGas : UInt32
  logTopicGas : UInt32
  createGas : UInt32
  callGas : UInt32
  callStipend : UInt32
  callValueTransferGas : UInt32
  callNewAccountGas : UInt32
  suicideRefundGas : UInt32
  memoryGas : UInt32
  quadCoeffDiv : UInt32
  createDataGas : UInt32
  txGas : UInt32
  txCreateGas : UInt32
  txDataZeroGas : UInt32
  txDataNonZeroGas : UInt32
  copyGas : UInt32
  extcodesizeGas : UInt32
  extcodecopyGas : UInt32
  balanceGas : UInt32
  suicideGas : UInt32
  blockhashGas : UInt32
  maxCodeSize : UInt32
  blockRewardOverwrite : Option U256

namespace VVMSchedule

def staticCallDepthLimit (s : VVMSchedule) : Bool := !s.eip150Mode
def suicideChargesNewAccountGas (s : VVMSchedule) : Bool := s.eip150Mode
def emptinessIsNonexistence (s : VVMSchedule) : Bool := s.eip158Mode
def zeroValueTransferChargesNewAccountGas (s : VVMSchedule) : Bool := !s.eip158Mode

def default : VVMSchedule where
  exceptionalFailedCodeDeposit := true
  haveDelegateCall := true
  eip150Mode := false
  eip158Mode := false
  haveRevert := false
  haveReturnData := false
  haveStaticCall := false
  haveCreate2 := false
  tierStepGas := ![0, 2, 3, 5, 8, 10, 20, 0]
  expGas := 10
  expByteGas := 10
  sha3Gas := 30
  sha3WordGas := 6
  sloadGas := 50
  sstoreSetGas := 20000
  sstoreResetGas := 5000
  sstoreRefundGas := 15000
  logGas := 375
  logDataGas := 8
  logTopicGas := 375
  createGas := 32000
  callGas := 40
  callStipend := 2300
  callValueTransferGas := 9000
  callNewAccountGas := 25000
  suicideRefundGas := 24000
  memoryGas := 3
  quadCoeffDiv := 512
  createDataGas := 200
  txGas := 21000
  txCreateGas := 53000
  txDataZeroGas := 4
  txDataNonZeroGas := 68
  copyGas := 3
  extcodesizeGas := 20
  extcodecopyGas := 20
  balanceGas := 20
  suicideGas := 0
  blockhashGas := 20
  maxCodeSize := 0xffffffff
  blockRewardOverwrite := none

def frontier : VVMSchedule :=
  { default with
    exceptionalFailedCodeDeposit := false, haveDelegateCall := false, txCreateGas := 21000 }

def homestead : VVMSchedule :=
  { default with exceptionalFailedCodeDeposit := true, haveDelegateCall := true, txCreateGas := 53000 }

def eip150 : VVMSchedule :=
  { homestead with
    eip150Mode := true, extcodesizeGas := 700, extcodecopyGas := 700, balanceGas := 400, sloadGas := 200,
    callGas := 700, suicideGas := 5000 }

def eip158 : VVMSchedule :=
  { eip150 with expByteGas := 50, eip158Mode := true, maxCodeSize := 0x6000 }

def byzantium : VVMSchedule :=
  { eip158 with
    haveRevert := true, haveReturnData := true, haveStaticCall := true
    blockRewardOverwrite := some 3000000000000000000 }

def ewasm : VVMSchedule :=
  { byzantium with maxCodeSize := 0xffffffff, txDataZeroGas := byzantium.txDataNonZeroGas }

def constantinople : VVMSchedule := { byzantium with blockhashGas := 800, haveCreate2 := true }

end VVMSchedule

/-- `EnvInfo`: the header fields that instructions read, the gas used before in the block,
and the hashes of the preceding blocks, the parent first. -/
structure EnvInfo where
  number : U256
  author : Address
  timestamp : U256
  difficulty : U256
  gasLimit : U256
  gasUsed : U256
  precedingHashes : List H256

/-- The data members of `ExtVMFace` and its schedule. -/
structure ExtVMFace where
  envInfo : EnvInfo
  vvmSchedule : VVMSchedule
  myAddress : Address
  caller : Address
  origin : Address
  value : U256
  gasPrice : U256
  data : Bytes
  code : Bytes
  depth : ℕ
  staticCall : Bool

structure CallParameters where
  senderAddress : Address
  codeAddress : Address
  receiveAddress : Address
  valueTransfer : U256
  apparentValue : U256
  gas : U256
  data : Bytes
  staticCall : Bool
deriving DecidableEq

/-- The calls into `ExtVMFace`. The interpreter adds to `sub.refunds` by itself; that is
a call here too. -/
inductive ExtCall where
  | store (key : U256)
  | setStore (key value : U256)
  | balance (a : Address)
  | codeAt (a : Address)
  | codeSizeAt (a : Address)
  | exists_ (a : Address)
  | suicide (a : Address)
  | create (endowment gas : U256) (init : Bytes) (op : Instruction) (salt : U256)
  | call (params : CallParameters)
  | log (topics : List H256) (data : Bytes)
  | blockHash (number : U256)
  | addRefund (gas : U256)
deriving DecidableEq

/-- What a call returns; `create` and `call` also return the gas left in the argument
that they take by reference. -/
abbrev ExtCall.Answer : ExtCall → Type
  | store _ => U256
  | setStore _ _ => Unit
  | balance _ => U256
  | codeAt _ => Bytes
  | codeSizeAt _ => ℕ
  | exists_ _ => Bool
  | suicide _ => Unit
  | create .. => Address × Bytes × U256
  | call _ => Bool × Bytes × U256
  | log _ _ => Unit
  | blockHash _ => H256
  | addRefund _ => Unit

end Vapory.Vvm
