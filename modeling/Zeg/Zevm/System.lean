import Zeg.RlpCodec
import Zeg.Zevm.Instructions

-- The call and create opcodes, and those that end a frame.
namespace Zeg.Zevm

open Base StateDB Gas Exec

def kMaxCallDepth : Nat := 1024

def INITCODE_WORD_COST : Int := 2
def KECCAK_WORD_COST : Int := 6
def MAX_INITCODE_SIZE : Nat := 0xC000
def MAX_INITCODE_SIZE_AMSTERDAM : Nat := 0x20000

def addressOfDigest (h : Bytes32) : Address := ⟨h.toList.drop 12, by simp⟩

def computeCreateAddress (keccak : Bytes → Bytes32) (sender : Address) (nonce : UInt64) : Address :=
  addressOfDigest (keccak (RlpCodec.encodeList [RlpCodec.encode sender.toList, RlpCodec.encodeU64 nonce]))

def computeCreate2Address (keccak : Bytes → Bytes32) (sender : Address) (salt : Word) (init : Bytes) : Address :=
  addressOfDigest (keccak ([0xff] ++ sender.toList ++ salt.toBytes ++ (keccak init).toList))

-- The address of a delegation designator 0xef0100 || address.
def delegateOf (code : Bytes) : Option Address :=
  if h : code.length = 23 ∧ code.take 3 = [0xef, 0x01, 0x00] then
    some ⟨code.drop 3, by rw [List.length_drop, h.1]⟩
  else none

-- What call_impl pops, `gas` capped to an int64.
structure CallArgs where
  reqGas : Nat
  dst : Address
  value : Word
  inOff : Nat
  inSize : Nat
  outOff : Nat
  outSize : Nat

def requestedGas (g : Word) : Nat := if g.toNat < 2 ^ 63 then g.toNat else 2 ^ 63 - 1

def popIf (b : Bool) : Exec Word := if b then pop else pure 0

def popCallArgs (hasValue : Bool) : Exec CallArgs := do
  let g ← pop
  let dst ← pop
  let value ← popIf hasValue
  let inOff ← pop
  let inSize ← pop
  let outOff ← pop
  let outSize ← pop
  return ⟨requestedGas g, addrFromSlot dst, value, memArg inOff, memArg inSize, memArg outOff, memArg outSize⟩

-- From Prague on a delegated target runs its delegate's code.
def resolveDelegate (f : Frame) (dst : Address) : Exec Address :=
  if f.rev.atLeast .Prague then do
    let code ← askHost (.CopyCode dst 0 23)
    match delegateOf code with
    | none => pure dst
    | some delegate =>
      let access ← askHost (.AccessAccount delegate)
      useGas (if access = .Cold then coldAccountAccess f.rev else WARM_ACCESS)
      return delegate
  else pure dst

-- The charge for an account that a call brings into being; the flag is new_account_charged.
def chargeNewAccount (f : Frame) (sendsValue : Bool) (dst : Address) : Exec Bool :=
  if sendsValue then do
    let found ← askHost (.AccountExists dst)
    if found then pure false
    else if f.rev.atLeast .Amsterdam then do
      chargeStateGas NEW_ACCOUNT_STATE_GAS
      return true
    else do
      useGas ACCOUNT_CREATION
      return false
  else pure false

-- The light failures of a call, and with a value those of its balance.
def callFails (f : Frame) (value : Word) : Exec Bool :=
  if value ≠ 0 then do
    let balance ← askHost (.GetBalance f.msg.recipient)
    return balance.ult value || decide (kMaxCallDepth ≤ f.msg.depth)
  else pure (decide (kMaxCallDepth ≤ f.msg.depth))

def callMessage (f : Frame) (kind : CallKind) (staticForced : Bool) (args : CallArgs) (codeAddr : Address)
    (gas stateGas : Int) (input : Bytes) : Message :=
  { kind := kind
    isStatic := staticForced || f.msg.isStatic
    isDelegated := codeAddr ≠ args.dst
    depth := f.msg.depth + 1
    gas := gas
    stateGas := stateGas
    recipient := if kind = .Call then args.dst else f.msg.recipient
    sender := if kind = .Delegatecall then f.msg.sender else f.msg.recipient
    inputData := input
    value := if kind = .Delegatecall then f.msg.value else args.value
    codeAddress := codeAddr }

-- What the caller takes back from a child that was given `gas`.
def reclaim (f : Frame) (gas : Int) (charged : Bool) (r : Result) : Exec Unit := do
  giveGas (r.gasLeft - gas)
  addRefund r.refund
  if f.rev.atLeast .Amsterdam then do
    absorbChildStateGas r
    refillStateGasIf (charged && r.status ≠ .Success) NEW_ACCOUNT_STATE_GAS
  else pure ()

-- A light failure pushes 0 and goes on.
def finishLight (charged : Bool) : Exec Unit := do
  refillStateGasIf charged NEW_ACCOUNT_STATE_GAS
  push 0
  advance 1

def stipend (value : Word) : Int := if value ≠ 0 then CALL_STIPEND else 0

-- The child frame of a call and what the caller does with its result.
def runChild (f : Frame) (args : CallArgs) (charged : Bool) (message : Bytes → Message) : Exec Unit := do
  let input ← memLoad args.inOff args.inSize
  let r ← ask (.Call (message input))
  push (if r.status = .Success then 1 else 0)
  memStore args.outOff (r.output.take args.outSize)
  modify fun s => { s with returnData := r.output }
  reclaim f (message input).gas charged r
  advance 1

-- call_impl once its costs are paid.
def callChild (f : Frame) (kind : CallKind) (staticForced : Bool) (args : CallArgs) (codeAddr : Address)
    (charged : Bool) : Exec Unit := do
  let s ← get
  giveGas (stipend args.value)
  let fails ← callFails f args.value
  if fails then finishLight charged
  else runChild f args charged (callMessage f kind staticForced args codeAddr
    (min (args.reqGas : Int) s.purse.allButOne64th + stipend args.value) s.purse.left)

def callImpl (f : Frame) (kind : CallKind) (hasValue staticForced : Bool) : Exec Unit := do
  modify fun s => { s with selfBalance := none }
  useGas WARM_ACCESS
  needs (if hasValue then 7 else 6)
  let args ← popCallArgs hasValue
  modify fun s => { s with returnData := [] }
  require (!(kind = .Call && args.value ≠ 0 && f.msg.isStatic)) .StaticModeViolation
  memExpand args.inOff args.inSize
  memExpand args.outOff args.outSize
  useGasIf (args.value ≠ 0) (callValueCost f.rev)
  chargeAccountAccess f args.dst
  let codeAddr ← resolveDelegate f args.dst
  let charged ← chargeNewAccount f (kind = .Call && args.value ≠ 0) args.dst
  callChild f kind staticForced args codeAddr charged

def opCall (f : Frame) : Exec Unit := callImpl f .Call true false
def opCallcode (f : Frame) : Exec Unit := callImpl f .Callcode true false
def opDelegatecall (f : Frame) : Exec Unit := callImpl f .Delegatecall false false
def opStaticcall (f : Frame) : Exec Unit := callImpl f .Call false true

-- The light failures of a create: depth, balance, and the sender's nonce, which is asked for
-- last. `none` is a failure.
def senderNonce (f : Frame) (value : Word) : Exec (Option UInt64) := do
  let fails ← createFails
  if fails then pure none
  else do
    let nonce ← askHost (.GetNonce f.msg.recipient)
    return if nonce = 0xffffffffffffffff then none else some nonce
where
  createFails : Exec Bool :=
    if kMaxCallDepth ≤ f.msg.depth then pure true
    else if value ≠ 0 then do
      let balance ← askHost (.GetBalance f.msg.recipient)
      return balance.ult value
    else pure false

def createMessage (f : Frame) (kind : CallKind) (value : Word) (recipient : Address) (gas stateGas : Int)
    (init : Bytes) : Message :=
  { kind := kind
    isStatic := false
    isDelegated := false
    depth := f.msg.depth + 1
    gas := gas
    stateGas := stateGas
    recipient := recipient
    sender := f.msg.recipient
    inputData := init
    value := value
    codeAddress := List.Vector.replicate 20 0 }

-- From Amsterdam on a new account costs state gas.
def chargeCreated (f : Frame) (a : Address) : Exec Bool :=
  if f.rev.atLeast .Amsterdam then do
    let found ← askHost (.AccountExists a)
    if found then pure false
    else do
      chargeStateGas NEW_ACCOUNT_STATE_GAS
      return true
  else pure false

-- create_impl past its light failures.
def createChild (f : Frame) (kind : CallKind) (value : Word) (init : Bytes) (a : Address) : Exec Unit := do
  let _ ← askHost (.AccessAccount a)
  let charged ← chargeCreated f a
  let s ← get
  let gas := s.purse.allButOne64th
  let r ← ask (.Call (createMessage f kind value a gas s.purse.left init))
  reclaim f gas charged r
  modify fun s => { s with returnData := r.output }
  push (if r.status = .Success then slotFromAddress a else 0)
  advance 1

-- The gas for the init code's words.
def initWordCost (rev : Revision) (kind : CallKind) : Int :=
  (if kind = .Create2 then KECCAK_WORD_COST else 0) +
    (if rev.atLeast .Shanghai then INITCODE_WORD_COST else 0)

def maxInitcodeSize (rev : Revision) : Nat :=
  if rev.atLeast .Amsterdam then MAX_INITCODE_SIZE_AMSTERDAM else MAX_INITCODE_SIZE

def createImpl (keccak : Bytes → Bytes32) (f : Frame) (kind : CallKind) : Exec Unit := do
  modify fun s => { s with selfBalance := none }
  useGas (if f.rev.atLeast .Amsterdam then CREATE_ACCESS else 32000)
  needs (if kind = .Create2 then 4 else 3)
  require (!f.msg.isStatic) .StaticModeViolation
  let value ← pop
  let off ← pop
  let size ← pop
  let salt ← popIf (kind = .Create2)
  modify fun s => { s with returnData := [] }
  memExpand (memArg off) (memArg size)
  require (!(f.rev.atLeast .Shanghai && maxInitcodeSize f.rev < memArg size)) .OutOfGas
  useGasIf (initWordCost f.rev kind ≠ 0) (numWords (memArg size) * initWordCost f.rev kind)
  let nonce ← senderNonce f value
  match nonce with
  | none => finishLight false
  | some nonce =>
    let init ← memLoad (memArg off) (memArg size)
    createChild f kind value init
      (if kind = .Create2 then computeCreate2Address keccak f.msg.recipient salt init
        else computeCreateAddress keccak f.msg.recipient nonce)

def opCreate (keccak : Bytes → Bytes32) (f : Frame) : Exec Unit := createImpl keccak f .Create
def opCreate2 (keccak : Bytes → Bytes32) (f : Frame) : Exec Unit := createImpl keccak f .Create2

def setOutput (off size : Nat) : Exec Unit :=
  if 0 < size then do
    memExpand off size
    modify fun s => { s with outputOffset := off, outputSize := size }
  else modify fun s => { s with outputSize := 0 }

def returnImpl (status : StatusCode) : Exec Unit := do
  needs 2
  let off ← pop
  let size ← pop
  setOutput (memArg off) (memArg size)
  halt status

def opReturn : Exec Unit := returnImpl .Success
def opRevert : Exec Unit := returnImpl .Revert

def opReturndatasize : Exec Unit := pushOp GAS_BASE do
  let s ← get
  return BitVec.ofNat 256 s.returnData.length

-- EIP-211: the window must lie in the return data.
def returnDataWindow (off size : Nat) : Exec Bytes := do
  let s ← get
  require (off ≤ s.returnData.length && size ≤ s.returnData.length - off) .InvalidMemoryAccess
  return (s.returnData.drop off).take size

def opReturndatacopy : Exec Unit := do
  useGas GAS_VERYLOW
  needs 3
  let memOff ← pop
  let retOff ← pop
  let size ← pop
  memExpand (memArg memOff) (memArg size)
  let data ← returnDataWindow (memArg retOff) (memArg size)
  useGas (3 * numWords (memArg size))
  memStore (memArg memOff) data

def opInvalid : Exec Unit := halt .InvalidInstruction

-- The surcharge for a beneficiary that the balance brings into being.
def chargeBeneficiary (f : Frame) (beneficiary : Address) : Exec Unit := do
  let balance ← askHost (.GetBalance f.msg.recipient)
  if balance ≠ 0 then do
    let found ← askHost (.AccountExists beneficiary)
    if found then pure ()
    else if f.rev.atLeast .Amsterdam then do
      useGas ACCOUNT_WRITE
      chargeStateGas NEW_ACCOUNT_STATE_GAS
    else useGas ACCOUNT_CREATION
  else pure ()

def opSelfdestruct (f : Frame) : Exec Unit := do
  useGas SELFDESTRUCT_GAS
  needs 1
  require (!f.msg.isStatic) .StaticModeViolation
  let b ← pop
  let access ← askHost (.AccessAccount (addrFromSlot b))
  useGasIf (access = .Cold) (coldAccountAccess f.rev)
  chargeBeneficiary f (addrFromSlot b)
  let first ← askHost (.Selfdestruct f.msg.recipient (addrFromSlot b))
  addRefund (if first && !f.rev.atLeast .London then SELFDESTRUCT_REFUND else 0)
  halt .Success

end Zeg.Zevm
