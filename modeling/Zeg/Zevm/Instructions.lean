import Zeg.Zevm
import Zeg.Zevm.Alu
import Zeg.Zevm.Code

-- The handlers of the opcodes that stay within their frame. A handler leaves the program counter
-- alone where the dispatch loop advances it by one.
namespace Zeg.Zevm

open Base StateDB Gas Exec

def GAS_JUMPDEST : Int := 1
def GAS_BASE : Int := 2
def GAS_VERYLOW : Int := 3
def GAS_LOW : Int := 5
def GAS_MID : Int := 8
def GAS_HIGH : Int := 10
def GAS_EXP : Int := 10
def GAS_EXPBYTE : Int := 50
def GAS_BLOCKHASH : Int := 20
def GAS_KECCAK256 : Int := 30
def GAS_KECCAK256_WORD : Int := 6
def GAS_LOG : Int := 375
def GAS_LOGDATA : Int := 8

def wordOfU64 (v : UInt64) : Word := BitVec.ofNat 256 v.toNat

-- addr_from_slot and slot_from_address
def addrFromSlot (v : Word) : Address :=
  ⟨v.toBytes.drop 12, by simp [Word.toBytes]⟩

def slotFromAddress (a : Address) : Word := Word.ofBytes a.toList

-- In 64 bits, as the source computes it.
def numWords (n : Nat) : Nat := (n + 31) % 2 ^ 64 / 32

def copyCost (n : Nat) : Int := numWords n * 3

-- arith and bitwise

def unop (cost : Int) (op : Word → Word) : Exec Unit := do
  useGas cost
  needs 1
  let a ← pop
  push (op a)

def binop (cost : Int) (op : Word → Word → Word) : Exec Unit := do
  useGas cost
  needs 2
  let a ← pop
  let b ← pop
  push (op a b)

def ternop (cost : Int) (op : Word → Word → Word → Word) : Exec Unit := do
  useGas cost
  needs 3
  let a ← pop
  let b ← pop
  let c ← pop
  push (op a b c)

def opAdd : Exec Unit := binop GAS_VERYLOW Alu.add
def opMul : Exec Unit := binop GAS_LOW Alu.mul
def opSub : Exec Unit := binop GAS_VERYLOW Alu.sub
def opDiv : Exec Unit := binop GAS_LOW Alu.div
def opSdiv : Exec Unit := binop GAS_LOW Alu.sdiv
def opMod : Exec Unit := binop GAS_LOW Alu.mod
def opSmod : Exec Unit := binop GAS_LOW Alu.smod
def opAddmod : Exec Unit := ternop GAS_MID Alu.addmod
def opMulmod : Exec Unit := ternop GAS_MID Alu.mulmod
def opSignextend : Exec Unit := binop GAS_LOW Alu.signextend
def opLt : Exec Unit := binop GAS_VERYLOW Alu.lt
def opGt : Exec Unit := binop GAS_VERYLOW Alu.gt
def opSlt : Exec Unit := binop GAS_VERYLOW Alu.slt
def opSgt : Exec Unit := binop GAS_VERYLOW Alu.sgt
def opEq : Exec Unit := binop GAS_VERYLOW Alu.eq
def opIszero : Exec Unit := unop GAS_VERYLOW Alu.iszero
def opAnd : Exec Unit := binop GAS_VERYLOW Alu.and
def opOr : Exec Unit := binop GAS_VERYLOW Alu.or
def opXor : Exec Unit := binop GAS_VERYLOW Alu.xor
def opNot : Exec Unit := unop GAS_VERYLOW Alu.not
def opByte : Exec Unit := binop GAS_VERYLOW Alu.byte
def opShl : Exec Unit := binop GAS_VERYLOW Alu.shl
def opShr : Exec Unit := binop GAS_VERYLOW Alu.shr
def opSar : Exec Unit := binop GAS_VERYLOW Alu.sar
def opClz : Exec Unit := unop GAS_LOW Alu.clz

-- The cost depends on the exponent, so the stack is checked first.
def opExp : Exec Unit := do
  needs 2
  let base ← pop
  let e ← pop
  useGas (GAS_EXP + GAS_EXPBYTE * Alu.byteLen e)
  push (Alu.exp base e)

-- keccak

def opKeccak256 (keccak : Bytes → Bytes32) : Exec Unit := do
  useGas GAS_KECCAK256
  needs 2
  let off ← pop
  let size ← pop
  memExpand (memArg off) (memArg size)
  useGas (numWords (memArg size) * GAS_KECCAK256_WORD)
  let data ← memLoad (memArg off) (memArg size)
  push (Word.ofBytes (keccak data).toList)

-- env

-- The handlers that push one value.
def pushOp (cost : Int) (value : Exec Word) : Exec Unit := do
  useGas cost
  let v ← value
  room
  push v

def txField (field : TxContext → Word) : Exec Word := do
  let tx ← askHost .GetTxContext
  return field tx

def opAddress (f : Frame) : Exec Unit := pushOp GAS_BASE (pure (slotFromAddress f.msg.recipient))
def opCaller (f : Frame) : Exec Unit := pushOp GAS_BASE (pure (slotFromAddress f.msg.sender))
def opCallvalue (f : Frame) : Exec Unit := pushOp GAS_BASE (pure f.msg.value)
def opOrigin : Exec Unit := pushOp GAS_BASE (txField fun tx => slotFromAddress tx.origin)
def opGasprice : Exec Unit := pushOp GAS_BASE (txField (·.gasPrice))
def opCoinbase : Exec Unit := pushOp GAS_BASE (txField fun tx => slotFromAddress tx.coinbase)
def opTimestamp : Exec Unit := pushOp GAS_BASE (txField fun tx => wordOfU64 tx.timestamp.toUInt64)
def opNumber : Exec Unit := pushOp GAS_BASE (txField fun tx => wordOfU64 tx.number.toUInt64)
def opPrevrandao : Exec Unit := pushOp GAS_BASE (txField (·.prevRandao))
def opGaslimit : Exec Unit := pushOp GAS_BASE (txField fun tx => wordOfU64 tx.gasLimit.toUInt64)
def opChainid : Exec Unit := pushOp GAS_BASE (txField (·.chainId))
def opBasefee : Exec Unit := pushOp GAS_BASE (txField (·.baseFee))
def opBlobbasefee : Exec Unit := pushOp GAS_BASE (txField (·.blobBaseFee))
def opSlotnum : Exec Unit := pushOp GAS_BASE (txField fun tx => wordOfU64 tx.slotNumber)
def opCalldatasize (f : Frame) : Exec Unit := pushOp GAS_BASE (pure (BitVec.ofNat 256 f.msg.inputData.length))
def opCodesize (f : Frame) : Exec Unit := pushOp GAS_BASE (pure (BitVec.ofNat 256 f.code.length))

-- The balance is asked for once and kept until a call or create may have changed it.
def cachedBalance (f : Frame) : Exec Word := do
  let s ← get
  match s.selfBalance with
  | some v => pure v
  | none =>
    let v ← askHost (.GetBalance f.msg.recipient)
    modify fun s => { s with selfBalance := some v }
    return v

def opSelfbalance (f : Frame) : Exec Unit := pushOp GAS_LOW (cachedBalance f)

def opCalldataload (f : Frame) : Exec Unit :=
  unop GAS_VERYLOW fun i => Word.ofBytes (paddedSlice f.msg.inputData (memArg i) 32)

-- data_copy: memory is written only where the window is not empty
def dataCopy (data : Bytes) : Exec Unit := do
  useGas GAS_VERYLOW
  needs 3
  let dst ← pop
  let src ← pop
  let size ← pop
  memExpand (memArg dst) (memArg size)
  useGas (copyCost (memArg size))
  memStore (memArg dst) (paddedSlice data (memArg src) (memArg size))

def opCalldatacopy (f : Frame) : Exec Unit := dataCopy f.msg.inputData
def opCodecopy (f : Frame) : Exec Unit := dataCopy f.code

-- additional_cold_account_access for a cold address; every revision here is from Berlin on
def chargeAccountAccess (f : Frame) (a : Address) : Exec Unit := do
  let access ← askHost (.AccessAccount a)
  useGasIf (access = .Cold) (coldAccountAccess f.rev - WARM_ACCESS)

-- The handlers that replace an address by a property of its account.
def accountOp (f : Frame) (cost : Int) (value : Address → Exec Word) : Exec Unit := do
  useGas cost
  needs 1
  let a ← pop
  chargeAccountAccess f (addrFromSlot a)
  let v ← value (addrFromSlot a)
  push v

def opBalance (f : Frame) : Exec Unit := accountOp f WARM_ACCESS fun a => askHost (.GetBalance a)

def extcodeBase (f : Frame) : Int := if f.rev.atLeast .Amsterdam then 2 * WARM_ACCESS else WARM_ACCESS

def opExtcodesize (f : Frame) : Exec Unit := accountOp f (extcodeBase f) fun a => do
  let size ← askHost (.GetCodeSize a)
  return wordOfU64 size

def opExtcodehash (f : Frame) : Exec Unit := accountOp f WARM_ACCESS fun a => do
  let hash ← askHost (.GetCodeHash a)
  return Word.ofBytes hash.toList

-- host->copy_code into memory, with zeros after the end of the code
def copyCodeToMem (a : Address) (dst src size : Nat) : Exec Unit :=
  if size = 0 then pure ()
  else do
    let code ← askHost (.CopyCode a src size)
    memStore dst (code ++ List.replicate (size - code.length) 0)

def opExtcodecopy (f : Frame) : Exec Unit := do
  useGas (extcodeBase f)
  needs 4
  let a ← pop
  let dst ← pop
  let src ← pop
  let size ← pop
  memExpand (memArg dst) (memArg size)
  useGas (copyCost (memArg size))
  chargeAccountAccess f (addrFromSlot a)
  copyCodeToMem (addrFromSlot a) (memArg dst) (memArg src) (memArg size)

-- The comparison with the lower end of the window is a signed one.
def blockHash (v : Word) : Exec Word := do
  let tx ← askHost .GetTxContext
  let upper := tx.number
  let lower : Int64 := if upper > 256 then upper - 256 else 0
  if v.toNat < 2 ^ 64 ∧ v.toNat < upper.toUInt64.toNat ∧ lower ≤ (UInt64.ofNat v.toNat).toInt64 then do
    let hash ← askHost (.GetBlockHash (UInt64.ofNat v.toNat).toInt64)
    return Word.ofBytes hash.toList
  else pure 0

def opBlockhash : Exec Unit := do
  useGas GAS_BLOCKHASH
  needs 1
  let v ← pop
  let hash ← blockHash v
  push hash

def blobHash (v : Word) : Exec Word := do
  let tx ← askHost .GetTxContext
  return if v.toNat < 2 ^ 64 then
    (tx.blobHashes[v.toNat]?.map fun hash => Word.ofBytes hash.toList).getD 0 else 0

def opBlobhash : Exec Unit := do
  useGas GAS_VERYLOW
  needs 1
  let v ← pop
  let hash ← blobHash v
  push hash

-- memory

def opMload : Exec Unit := do
  useGas GAS_VERYLOW
  needs 1
  let off ← pop
  require (off.toNat < 2 ^ 64) .OutOfGas
  let data ← memRead off.toNat 32
  push (Word.ofBytes data)

def opMstore : Exec Unit := do
  useGas GAS_VERYLOW
  needs 2
  let off ← pop
  let v ← pop
  require (off.toNat < 2 ^ 64) .OutOfGas
  memWrite off.toNat v.toBytes

def opMstore8 : Exec Unit := do
  useGas GAS_VERYLOW
  needs 2
  let off ← pop
  let v ← pop
  require (off.toNat < 2 ^ 64) .OutOfGas
  memWriteByte off.toNat (UInt8.ofNat v.toNat)

def memSize : Exec Word := do
  let size ← ask (.Mem .Size)
  return BitVec.ofNat 256 size

def opMsize : Exec Unit := pushOp GAS_BASE memSize

def opMcopy : Exec Unit := do
  useGas GAS_VERYLOW
  needs 3
  let dst ← pop
  let src ← pop
  let size ← pop
  memExpand (max (memArg dst) (memArg src)) (memArg size)
  useGas (copyCost (memArg size))
  let data ← memLoad (memArg src) (memArg size)
  memStore (memArg dst) data

-- storage

def opSload (f : Frame) : Exec Unit := do
  useGas WARM_ACCESS
  needs 1
  let key ← pop
  let access ← askHost (.AccessStorage (f.msg.recipient, key))
  useGasIf (access = .Cold) (COLD_SLOAD_COST - WARM_ACCESS)
  let v ← askHost (.GetStorage (f.msg.recipient, key))
  push v

-- From Amsterdam on allocating a slot costs state gas, and clearing it again gives it back.
def slotStateGas (rev : Revision) (status : StorageStatus) : Exec Unit :=
  if rev.atLeast .Amsterdam then
    match status with
    | .Added => chargeStateGas STORAGE_SET_STATE_GAS
    | .AddedDeleted => refillStateGas STORAGE_SET_STATE_GAS
    | _ => pure ()
  else pure ()

-- SSTORE_SENTRY_GAS is checked, not charged.
def sentry : Exec Unit := do
  let s ← get
  require (SSTORE_SENTRY_GAS < s.purse.gas) .OutOfGas

def opSstore (f : Frame) : Exec Unit := do
  needs 2
  require (!f.msg.isStatic) .StaticModeViolation
  sentry
  let key ← pop
  let v ← pop
  let access ← askHost (.AccessStorage (f.msg.recipient, key))
  let status ← askHost (.SetStorage (f.msg.recipient, key) v)
  useGas ((sstoreCost f.rev status).1 + if access = .Cold then (storageSpec f.rev).cold else 0)
  slotStateGas f.rev status
  addRefund (sstoreCost f.rev status).2

def opTload (f : Frame) : Exec Unit := do
  useGas WARM_ACCESS
  needs 1
  let key ← pop
  let v ← askHost (.GetTransientStorage (f.msg.recipient, key))
  push v

-- Here static mode is checked before the stack.
def opTstore (f : Frame) : Exec Unit := do
  useGas WARM_ACCESS
  require (!f.msg.isStatic) .StaticModeViolation
  needs 2
  let key ← pop
  let v ← pop
  askHost (.SetTransientStorage (f.msg.recipient, key) v)

-- control

def opStop : Exec Unit := halt .Success

-- jump_target
def jumpTarget (d : Word) : Nat := if d.toNat < 2 ^ 64 then d.toNat else 2 ^ 64 - 1

-- A jump also executes the JUMPDEST it lands on.
def jumpTo (f : Frame) (dest : Nat) : Exec Unit := do
  require (isJumpdest f.code dest) .BadJumpDestination
  useGas GAS_JUMPDEST
  modify fun s => { s with pc := dest + 1 }

def opJump (f : Frame) : Exec Unit := do
  useGas GAS_MID
  needs 1
  let d ← pop
  jumpTo f (jumpTarget d)

def opJumpi (f : Frame) : Exec Unit := do
  useGas GAS_HIGH
  needs 2
  let d ← pop
  let cond ← pop
  if cond ≠ 0 then jumpTo f (jumpTarget d) else advance 1

def opJumpdest : Exec Unit := useGas GAS_JUMPDEST

def opPop : Exec Unit := do
  useGas GAS_BASE
  needs 1
  let _ ← pop

def opPc : Exec Unit := pushOp GAS_BASE do
  let s ← get
  return BitVec.ofNat 256 s.pc

def opGas : Exec Unit := pushOp GAS_BASE do
  let s ← get
  return wordOfU64 (Int64.ofInt s.purse.gas).toUInt64

-- log

def popTopics : Nat → Exec (List Word)
  | 0 => pure []
  | n + 1 => do
    let topic ← pop
    let topics ← popTopics n
    return topic :: topics

def logImpl (f : Frame) (n : Nat) : Exec Unit := do
  useGas (GAS_LOG * (1 + n))
  needs (2 + n)
  require (!f.msg.isStatic) .StaticModeViolation
  let off ← pop
  let size ← pop
  memExpand (memArg off) (memArg size)
  useGas (memArg size * GAS_LOGDATA)
  let topics ← popTopics n
  let data ← memLoad (memArg off) (memArg size)
  askHost (.EmitLog ⟨f.msg.recipient, topics, data⟩)
  advance 1

-- push and stack

def opPush0 : Exec Unit := pushOp GAS_BASE (pure 0)

def opPush (f : Frame) (n : Nat) : Exec Unit := do
  useGas GAS_VERYLOW
  room
  let s ← get
  push (if n ≤ 8 then smallImmediate f.code (s.pc + 1) n else bigImmediate f.code (s.pc + 1) n)
  advance (n + 1)

def dup (n : Nat) : Exec Unit := do
  needs n
  room
  let s ← get
  push (s.stack.getD (n - 1) 0)

def swap (n m : Nat) : Exec Unit := do
  needs (m + 1)
  modify fun s =>
    { s with stack := (s.stack.set n (s.stack.getD m 0)).set m (s.stack.getD n 0) }

def opDup (n : Nat) : Exec Unit := do
  useGas GAS_VERYLOW
  dup n

def opSwap (n : Nat) : Exec Unit := do
  useGas GAS_VERYLOW
  swap 0 n

-- The stack operations with an immediate: `none` is a forbidden one.
def immediateOp (f : Frame) {α : Type} (decode : UInt8 → Option α) (op : α → Exec Unit) : Exec Unit := do
  useGas GAS_VERYLOW
  let s ← get
  match decode (immByte f.code s.pc) with
  | none => halt .UndefinedInstruction
  | some x =>
    op x
    advance 2

def opDupn (f : Frame) : Exec Unit := immediateOp f decodeDupnSwapn dup
def opSwapn (f : Frame) : Exec Unit := immediateOp f decodeDupnSwapn (swap 0)
def opExchange (f : Frame) : Exec Unit := immediateOp f decodeExchange fun x => swap x.1 x.2

end Zeg.Zevm
