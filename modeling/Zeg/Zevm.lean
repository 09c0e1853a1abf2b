import Zeg.Base.Program
import Zeg.Gas
import Zeg.Memory

-- zevm's frames: their messages and results, what they ask of the host and of the memory
-- manager, and the state they keep.
namespace Zeg.Zevm

open Base StateDB Gas Memory

inductive StatusCode where
  | Success
  | Failure
  | Revert
  | OutOfGas
  | InvalidInstruction
  | UndefinedInstruction
  | StackOverflow
  | StackUnderflow
  | BadJumpDestination
  | InvalidMemoryAccess
  | StaticModeViolation
  | PrecompileFailure
  | ContractValidationFailure
deriving DecidableEq, Repr

-- What the gas of a result depends on.
def StatusCode.coarse : StatusCode → Status
  | .Success => .Success
  | .Revert => .Revert
  | _ => .Failure

inductive CallKind where
  | Call
  | Delegatecall
  | Callcode
  | Create
  | Create2
deriving DecidableEq, Repr

-- `isStatic` and `isDelegated` are the EVMC_STATIC and EVMC_DELEGATED flags.
structure Message where
  kind : CallKind
  isStatic : Bool
  isDelegated : Bool
  depth : Nat
  gas : Int
  stateGas : Int
  recipient : Address
  sender : Address
  inputData : Bytes
  value : Word
  codeAddress : Address
deriving DecidableEq

-- `charged` is a history variable: the net state gas charged by the frame and those of its
-- descendants that were not rolled back. Nothing reads it.
structure Result where
  status : StatusCode
  gasLeft : Int
  refund : Int
  left : Int
  spilled : Int
  output : Bytes
  charged : Int
deriving DecidableEq

def Result.gas (r : Result) : Gas.Result := ⟨r.status.coarse, r.gasLeft, r.refund, r.left, r.spilled⟩

structure TxContext where
  gasPrice : Word
  origin : Address
  coinbase : Address
  number : Int64
  timestamp : Int64
  gasLimit : Int64
  prevRandao : Word
  chainId : Word
  baseFee : Word
  blobBaseFee : Word
  blobHashes : List Bytes32
  slotNumber : UInt64

-- The callbacks of the host interface other than call.
inductive Query where
  | AccountExists (a : Address)
  | GetStorage (key : SlotKey)
  | SetStorage (key : SlotKey) (v : Word)
  | GetBalance (a : Address)
  | GetNonce (a : Address)
  | GetCodeSize (a : Address)
  | GetCodeHash (a : Address)
  | CopyCode (a : Address) (offset size : Nat)
  | Selfdestruct (a beneficiary : Address)
  | GetTxContext
  | GetBlockHash (number : Int64)
  | EmitLog (entry : LogEntry)
  | AccessAccount (a : Address)
  | AccessStorage (key : SlotKey)
  | GetTransientStorage (key : SlotKey)
  | SetTransientStorage (key : SlotKey) (v : Word)

abbrev Query.Answer : Query → Type
  | .AccountExists _ => Bool
  | .GetStorage _ => Word
  | .SetStorage _ _ => StorageStatus
  | .GetBalance _ => Word
  | .GetNonce _ => UInt64
  | .GetCodeSize _ => UInt64
  | .GetCodeHash _ => Bytes32
  | .CopyCode _ _ _ => Bytes
  | .Selfdestruct _ _ => Bool
  | .GetTxContext => TxContext
  | .GetBlockHash _ => Bytes32
  | .EmitLog _ => Unit
  | .AccessAccount _ => AccessStatus
  | .AccessStorage _ => AccessStatus
  | .GetTransientStorage _ => Word
  | .SetTransientStorage _ _ => Unit

-- The calls into EVMMem. `Load` and `Store` go through the pointer EVMMem::data.
inductive MemRequest where
  | CreateMemory
  | DestroyMemory
  | Expand (addr len : Nat) (gas : Int)
  | ReadBytes (addr len : Nat) (gas : Int)
  | WriteBytes (addr : Nat) (src : Bytes) (gas : Int)
  | WriteByte (addr : Nat) (value : UInt8) (gas : Int)
  | Size
  | Load (addr len : Nat)
  | Store (addr : Nat) (src : Bytes)

abbrev MemRequest.Answer : MemRequest → Type
  | .CreateMemory => Nat
  | .DestroyMemory => Unit
  | .Expand _ _ _ => MemGas
  | .ReadBytes _ _ _ => MemGas × Bytes
  | .WriteBytes _ _ _ => MemGas
  | .WriteByte _ _ _ => MemGas
  | .Size => Nat
  | .Load _ _ => Bytes
  | .Store _ _ => Unit

def MemRequest.serve : (q : MemRequest) → EVMMem → q.Answer × EVMMem
  | .CreateMemory, m => createMemory m
  | .DestroyMemory, m => ((), destroyMemory m)
  | .Expand addr len gas, m => expand m addr len gas
  | .ReadBytes addr len gas, m => let (r, data, m') := readBytes m addr len gas; ((r, data), m')
  | .WriteBytes addr src gas, m => writeBytes m addr src gas
  | .WriteByte addr value gas, m => writeByte m addr value gas
  | .Size, m => ((m.handles m.cur).size, m)
  | .Load addr len, m => (m.load addr len, m)
  | .Store addr src, m => ((), m.store addr src)

inductive Request where
  | Host (q : Query)
  | Mem (q : MemRequest)
  | Call (msg : Message)

abbrev Request.Answer : Request → Type
  | .Host q => q.Answer
  | .Mem q => q.Answer
  | .Call _ => Result

def askMem (q : MemRequest) : Program Request.Answer q.Answer := .Ask (.Mem q) .Done

-- The frames of a call tree share one memory manager.
structure Env (σ : Type) where
  host : σ
  mem : EVMMem

-- `error` is a halt of the whole guest.
structure HostInterface (σ : Type) where
  answer : (q : Query) → σ → Except String (q.Answer × σ)
  call : Message → Env σ → Except String (Result × Env σ)

def HostInterface.serve {σ : Type} (H : HostInterface σ) :
    (q : Request) → Env σ → Except String (q.Answer × Env σ)
  | .Host q, e => (H.answer q e.host).map fun r => (r.1, { e with host := r.2 })
  | .Mem q, e => .ok ((q.serve e.mem).1, { e with mem := (q.serve e.mem).2 })
  | .Call msg, e => H.call msg e

-- What stays fixed while a frame runs.
structure Frame where
  rev : Revision
  msg : Message
  code : Bytes

-- The head of `stack` is its top. `selfBalance` is self_balance_be while it is valid.
structure EvmState where
  pc : Nat
  stack : List Word
  purse : Purse
  refund : Int
  charged : Int
  selfBalance : Option Word
  returnData : Bytes
  outputOffset : Nat
  outputSize : Nat
deriving DecidableEq

-- EvmState::reset, but for the memory
def Frame.reset (f : Frame) : EvmState :=
  { pc := 0, stack := [], purse := ⟨f.msg.gas, f.msg.stateGas, 0⟩, refund := 0, charged := 0
    selfBalance := none, returnData := [], outputOffset := 0, outputSize := 0 }

-- state_gas_refill, absorb_child_state_gas and a change of the regular gas
def EvmState.refill (s : EvmState) (cost : Int) : EvmState :=
  { s with purse := s.purse.refill cost, charged := s.charged - cost }

def EvmState.absorb (s : EvmState) (r : Result) : EvmState :=
  { s with purse := s.purse.absorb r.gas, charged := s.charged + r.charged }

def EvmState.give (s : EvmState) (amount : Int) : EvmState :=
  { s with purse := { s.purse with gas := s.purse.gas + amount } }

inductive Outcome (α : Type) where
  | Ok (a : α) (s : EvmState)
  | Halt (status : StatusCode) (s : EvmState)

-- A handler, or a part of one: it returns, or it halts the frame.
def Exec (α : Type) : Type := EvmState → Program Request.Answer (Outcome α)

namespace Exec

variable {α β : Type}

def halt (status : StatusCode) : Exec α := fun s => .Done (.Halt status s)

def bind (m : Exec α) (f : α → Exec β) : Exec β := fun s =>
  (m s).bind fun
    | .Ok a s' => f a s'
    | .Halt status s' => .Done (.Halt status s')

instance : Monad Exec where
  pure a := fun s => .Done (.Ok a s)
  bind := bind

def get : Exec EvmState := fun s => .Done (.Ok s s)

def modify (f : EvmState → EvmState) : Exec Unit := fun s => .Done (.Ok () (f s))

def ask (q : Request) : Exec q.Answer := fun s => .Ask q fun a => .Done (.Ok a s)

def askHost (q : Query) : Exec q.Answer := ask (.Host q)

def require (b : Bool) (status : StatusCode) : Exec Unit := if b then pure () else halt status

def useGas (cost : Int) : Exec Unit := fun s =>
  match s.purse.spend cost with
  | none => .Done (.Halt .OutOfGas s)
  | some p => .Done (.Ok () { s with purse := p })

def useGasIf (b : Bool) (cost : Int) : Exec Unit := if b then useGas cost else pure ()

def chargeStateGas (cost : Int) : Exec Unit := fun s =>
  match s.purse.charge cost with
  | none => .Done (.Halt .OutOfGas s)
  | some p => .Done (.Ok () { s with purse := p, charged := s.charged + cost })

def refillStateGas (cost : Int) : Exec Unit := modify (·.refill cost)

def refillStateGasIf (b : Bool) (cost : Int) : Exec Unit := if b then refillStateGas cost else pure ()

def absorbChildStateGas (r : Result) : Exec Unit := modify (·.absorb r)

def giveGas (amount : Int) : Exec Unit := modify (·.give amount)

def addRefund (amount : Int) : Exec Unit := modify fun s => { s with refund := s.refund + amount }

def advance (n : Nat) : Exec Unit := modify fun s => { s with pc := s.pc + n }

def kStackLimit : Nat := 1024

-- depth_lt
def needs (n : Nat) : Exec Unit := fun s =>
  if s.stack.length < n then .Done (.Halt .StackUnderflow s) else .Done (.Ok () s)

-- stack_full
def room : Exec Unit := fun s =>
  if kStackLimit ≤ s.stack.length then .Done (.Halt .StackOverflow s) else .Done (.Ok () s)

def pop : Exec Word := fun s =>
  match s.stack with
  | [] => .Done (.Halt .StackUnderflow s)
  | v :: rest => .Done (.Ok v { s with stack := rest })

def push (v : Word) : Exec Unit := modify fun s => { s with stack := v :: s.stack }

-- mem_arg: too large an offset or size becomes one that no gas can pay for.
def memArg (v : Word) : Nat := if v.toNat < 2 ^ 64 then v.toNat else 2 ^ 64 - 1

def settle (r : MemGas) : Exec Unit := fun s =>
  let s := { s with purse := { s.purse with gas := r.gas } }
  if r.err = .Ok then .Done (.Ok () s) else .Done (.Halt .OutOfGas s)

def memExpand (addr len : Nat) : Exec Unit := do
  let s ← get
  let r ← ask (.Mem (.Expand addr len s.purse.gas))
  settle r

def memRead (addr len : Nat) : Exec Bytes := do
  let s ← get
  let (r, data) ← ask (.Mem (.ReadBytes addr len s.purse.gas))
  settle r
  return data

def memWrite (addr : Nat) (src : Bytes) : Exec Unit := do
  let s ← get
  let r ← ask (.Mem (.WriteBytes addr src s.purse.gas))
  settle r

def memWriteByte (addr : Nat) (value : UInt8) : Exec Unit := do
  let s ← get
  let r ← ask (.Mem (.WriteByte addr value s.purse.gas))
  settle r

-- The window at EVMMem::data(addr); no pointer is formed for an empty one.
def memLoad (addr len : Nat) : Exec Bytes := if len = 0 then pure [] else ask (.Mem (.Load addr len))

def memStore (addr : Nat) (src : Bytes) : Exec Unit :=
  if src = [] then pure () else ask (.Mem (.Store addr src))

end Exec

end Zeg.Zevm
