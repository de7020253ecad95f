import Vapory.Vvm.Machine

/-! `VMCalls.cpp`: copying to memory and the instructions that call out. -/
namespace Vapory.Vvm

/-- `copyDataToMemory(_data, m_SP + k)`. The index is compared in `s512` and cast to 64
bits only where it is within the data. -/
def copyDataToMemory (data : Bytes) (k : ℕ) : MachineM Unit := do
  let offset := (u64 (← sp k)).toNat
  let bigIndex := (← sp (k + 1)).toNat
  let index := (u64 (← sp (k + 1))).toNat
  let size := (u64 (← sp (k + 2))).toNat
  let sizeToBeCopied :=
    if bigIndex + size > data.length then if data.length < bigIndex then 0 else data.length - index else size
  modify fun s =>
    { s with
      mem := write s.mem offset
        (slice data index sizeToBeCopied ++ List.replicate (size - sizeToBeCopied) 0) }

section
variable (E : ExtVMFace)

/-- `caseCreate`, for `CREATE` and `CREATE2`. -/
def caseCreate (op : Instruction) : MachineM Unit := do
  setRunGas (← toInt63 E.vvmSchedule.createGas.toNat)
  let endowment ← sp 0
  let (salt, initOff, initSize) ←
    if op = .CREATE then pure ((0 : U256), ← sp 1, ← sp 2) else pure (← sp 1, ← sp 2, ← sp 3)
  updateMem E (← memNeed initOff initSize)
  updateIOGas
  modify fun s => { s with returnData := [] }
  let balance : U256 ← ext (.balance E.myAddress)
  if balance ≥ endowment ∧ E.depth < 1024 then
    let s ← get
    let ioGas : U256 := BitVec.ofNat 256 s.ioGas.toNat
    let createGas := if E.vvmSchedule.staticCallDepthLimit then ioGas else ioGas - ioGas / 64
    let initCode := slice s.mem (u64 initOff).toNat (u64 initSize).toNat
    let (addr, output, gas) ← ext (.create endowment createGas initCode op salt)
    setSpp (fromAddress addr)
    modify fun s => { s with returnData := output, ioGas := u64 (ioGas - (createGas - gas)) }
  else
    setSpp 0

/-- What `caseCallSetup` leaves: the gas of the call in any case, and the parameters and
the place of the output if the call is to be made. -/
structure CallSetup where
  gas : U256
  call : Option (CallParameters × ℕ × ℕ)

/-- The part of `caseCallSetup` that adds to the gas for a new account and for a value. -/
def addCallGas (op : Instruction) (destinationAddr : Address) (value : U256) : MachineM Unit := do
  if op = .CALL then
    let found : Bool ← ext (.exists_ destinationAddr)
    if !found ∧ (value > 0 ∨ E.vvmSchedule.zeroValueTransferChargesNewAccountGas) then
      addRunGas (← toInt63 E.vvmSchedule.callNewAccountGas.toNat)
  if (op = .CALL ∨ op = .CALLCODE) ∧ value > 0 then
    addRunGas (← toInt63 E.vvmSchedule.callValueTransferGas.toNat)

def caseCallSetup (op : Instruction) : MachineM CallSetup := do
  setRunGas (← toInt63 E.vvmSchedule.callGas.toNat)
  let haveValueArg := op = .CALL ∨ op = .CALLCODE
  let destinationAddr := asAddress (← sp 1)
  let value ← sp 2
  addCallGas E op destinationAddr value
  let sizesOffset := if haveValueArg then 3 else 2
  let inputOffset ← sp sizesOffset
  let inputSize ← sp (sizesOffset + 1)
  let outputOffset ← sp (sizesOffset + 2)
  let outputSize ← sp (sizesOffset + 3)
  let inputMemNeed ← memNeed inputOffset inputSize
  let outputMemNeed ← memNeed outputOffset outputSize
  updateMem E (max inputMemNeed outputMemNeed)
  updateIOGas
  let s ← get
  let requested ← sp 0
  -- all but one 64th of the gas unless the schedule has the static depth limit
  let maxAllowedCallGas : U256 := BitVec.ofNat 256 (s.ioGas - s.ioGas / 64).toNat
  let gas := if E.vvmSchedule.staticCallDepthLimit ∨
    requested ≤ maxAllowedCallGas then requested else maxAllowedCallGas
  setRunGas (← toInt63 gas.toNat)
  updateIOGas
  let gas :=
    if haveValueArg ∧ value > 0 then gas + BitVec.ofNat 256 E.vvmSchedule.callStipend.toNat else gas
  let valueTransfer := if haveValueArg then value else 0
  let apparentValue := if haveValueArg then value else if op = .DELEGATECALL then E.value else 0
  let balance : U256 ← ext (.balance E.myAddress)
  if balance ≥ valueTransfer ∧ E.depth < 1024 then
    let params : CallParameters :=
      { senderAddress := if op = .DELEGATECALL then E.caller else E.myAddress
        codeAddress := destinationAddr
        receiveAddress := if op = .CALL ∨ op = .STATICCALL then destinationAddr else E.myAddress
        valueTransfer, apparentValue, gas
        data := slice s.mem (u64 inputOffset).toNat (u64 inputSize).toNat
        staticCall := op = .STATICCALL ∨ E.staticCall }
    return ⟨gas, some (params, (u64 outputOffset).toNat, (u64 outputSize).toNat)⟩
  else
    return ⟨gas, none⟩

/-- `caseCall`, for the four instructions that make a message call. -/
def caseCall (op : Instruction) : MachineM Unit := do
  modify fun s => { s with returnData := [] }
  let setup ← caseCallSetup E op
  match setup.call with
  | some (params, outOff, outSize) =>
    let (success, output, gas) ← ext (.call params)
    modify fun s =>
      { s with
        mem := write s.mem outOff (output.take outSize)
        returnData := output }
    setSpp (if success then 1 else 0)
    modify fun s => { s with ioGas := s.ioGas + u64 gas }
  | none =>
    setSpp 0
    modify fun s => { s with ioGas := s.ioGas + u64 setup.gas }

end
end Vapory.Vvm
