import Zeg.Zevm.System

-- The dispatch loop and the frame around it.
namespace Zeg.Zevm

open Base StateDB Gas

inductive Opcode where
  | Stop | Add | Mul | Sub | Div | Sdiv | Mod | Smod | Addmod | Mulmod | Exp | Signextend | Lt | Gt
  | Slt | Sgt | Eq | Iszero | And | Or | Xor | Not | Byte | Shl | Shr | Sar | Clz | Keccak256 | Address
  | Balance | Origin | Caller | Callvalue | Calldataload | Calldatasize | Calldatacopy | Codesize
  | Codecopy | Gasprice | Extcodesize | Extcodecopy | Returndatasize | Returndatacopy | Extcodehash
  | Blockhash | Coinbase | Timestamp | Number | Prevrandao | Gaslimit | Chainid | Selfbalance | Basefee
  | Blobhash | Blobbasefee | Slotnum | Pop | Mload | Mstore | Mstore8 | Sload | Sstore | Jump | Jumpi
  | Pc | Msize | Gas | Jumpdest | Tload | Tstore | Mcopy | Push0 | Dupn | Swapn | Exchange | Create
  | Call | Callcode | Return | Delegatecall | Create2 | Staticcall | Revert | Invalid | Selfdestruct
  | Push (n : Nat) | Dup (n : Nat) | Swap (n : Nat) | Log (n : Nat)
deriving DecidableEq, Repr

-- The opcodes of the switch, with the revision a gated one needs; the families are dealt with below.
def Opcode.ofByte : Nat → Option (Opcode × Revision)
  | 0x00 => some (.Stop, .Berlin)
  | 0x01 => some (.Add, .Berlin)
  | 0x02 => some (.Mul, .Berlin)
  | 0x03 => some (.Sub, .Berlin)
  | 0x04 => some (.Div, .Berlin)
  | 0x05 => some (.Sdiv, .Berlin)
  | 0x06 => some (.Mod, .Berlin)
  | 0x07 => some (.Smod, .Berlin)
  | 0x08 => some (.Addmod, .Berlin)
  | 0x09 => some (.Mulmod, .Berlin)
  | 0x0a => some (.Exp, .Berlin)
  | 0x0b => some (.Signextend, .Berlin)
  | 0x10 => some (.Lt, .Berlin)
  | 0x11 => some (.Gt, .Berlin)
  | 0x12 => some (.Slt, .Berlin)
  | 0x13 => some (.Sgt, .Berlin)
  | 0x14 => some (.Eq, .Berlin)
  | 0x15 => some (.Iszero, .Berlin)
  | 0x16 => some (.And, .Berlin)
  | 0x17 => some (.Or, .Berlin)
  | 0x18 => some (.Xor, .Berlin)
  | 0x19 => some (.Not, .Berlin)
  | 0x1a => some (.Byte, .Berlin)
  | 0x1b => some (.Shl, .Berlin)
  | 0x1c => some (.Shr, .Berlin)
  | 0x1d => some (.Sar, .Berlin)
  | 0x1e => some (.Clz, .Osaka)
  | 0x20 => some (.Keccak256, .Berlin)
  | 0x30 => some (.Address, .Berlin)
  | 0x31 => some (.Balance, .Berlin)
  | 0x32 => some (.Origin, .Berlin)
  | 0x33 => some (.Caller, .Berlin)
  | 0x34 => some (.Callvalue, .Berlin)
  | 0x35 => some (.Calldataload, .Berlin)
  | 0x36 => some (.Calldatasize, .Berlin)
  | 0x37 => some (.Calldatacopy, .Berlin)
  | 0x38 => some (.Codesize, .Berlin)
  | 0x39 => some (.Codecopy, .Berlin)
  | 0x3a => some (.Gasprice, .Berlin)
  | 0x3b => some (.Extcodesize, .Berlin)
  | 0x3c => some (.Extcodecopy, .Berlin)
  | 0x3d => some (.Returndatasize, .Berlin)
  | 0x3e => some (.Returndatacopy, .Berlin)
  | 0x3f => some (.Extcodehash, .Berlin)
  | 0x40 => some (.Blockhash, .Berlin)
  | 0x41 => some (.Coinbase, .Berlin)
  | 0x42 => some (.Timestamp, .Berlin)
  | 0x43 => some (.Number, .Berlin)
  | 0x44 => some (.Prevrandao, .Berlin)
  | 0x45 => some (.Gaslimit, .Berlin)
  | 0x46 => some (.Chainid, .Berlin)
  | 0x47 => some (.Selfbalance, .Berlin)
  | 0x48 => some (.Basefee, .London)
  | 0x49 => some (.Blobhash, .Cancun)
  | 0x4a => some (.Blobbasefee, .Cancun)
  | 0x4b => some (.Slotnum, .Amsterdam)
  | 0x50 => some (.Pop, .Berlin)
  | 0x51 => some (.Mload, .Berlin)
  | 0x52 => some (.Mstore, .Berlin)
  | 0x53 => some (.Mstore8, .Berlin)
  | 0x54 => some (.Sload, .Berlin)
  | 0x55 => some (.Sstore, .Berlin)
  | 0x56 => some (.Jump, .Berlin)
  | 0x57 => some (.Jumpi, .Berlin)
  | 0x58 => some (.Pc, .Berlin)
  | 0x59 => some (.Msize, .Berlin)
  | 0x5a => some (.Gas, .Berlin)
  | 0x5b => some (.Jumpdest, .Berlin)
  | 0x5c => some (.Tload, .Cancun)
  | 0x5d => some (.Tstore, .Cancun)
  | 0x5e => some (.Mcopy, .Cancun)
  | 0x5f => some (.Push0, .Shanghai)
  | 0xe6 => some (.Dupn, .Amsterdam)
  | 0xe7 => some (.Swapn, .Amsterdam)
  | 0xe8 => some (.Exchange, .Amsterdam)
  | 0xf0 => some (.Create, .Berlin)
  | 0xf1 => some (.Call, .Berlin)
  | 0xf2 => some (.Callcode, .Berlin)
  | 0xf3 => some (.Return, .Berlin)
  | 0xf4 => some (.Delegatecall, .Berlin)
  | 0xf5 => some (.Create2, .Berlin)
  | 0xfa => some (.Staticcall, .Berlin)
  | 0xfd => some (.Revert, .Berlin)
  | 0xfe => some (.Invalid, .Berlin)
  | 0xff => some (.Selfdestruct, .Berlin)
  | _ => none

-- PUSH1..PUSH32, DUP1..DUP16, SWAP1..SWAP16 and LOG0..LOG4.
def Opcode.ofFamily (b : Nat) : Option Opcode :=
  if 0x60 ≤ b ∧ b ≤ 0x7f then some (.Push (b - 0x5f))
  else if 0x80 ≤ b ∧ b ≤ 0x8f then some (.Dup (b - 0x7f))
  else if 0x90 ≤ b ∧ b ≤ 0x9f then some (.Swap (b - 0x8f))
  else if 0xa0 ≤ b ∧ b ≤ 0xa4 then some (.Log (b - 0xa0))
  else none

-- `none` is an undefined instruction.
def decode (rev : Revision) (b : UInt8) : Option Opcode :=
  match Opcode.ofFamily b.toNat with
  | some op => some op
  | none =>
    match Opcode.ofByte b.toNat with
    | some (op, since) => if rev.atLeast since then some op else none
    | none => none

-- OPS: the loop advances the program counter.
def ops (handler : Exec Unit) : Exec Unit := do
  handler
  Exec.advance 1

def handler (keccak : Bytes → Bytes32) (f : Frame) : Opcode → Exec Unit
  | .Stop => opStop
  | .Add => ops opAdd
  | .Mul => ops opMul
  | .Sub => ops opSub
  | .Div => ops opDiv
  | .Sdiv => ops opSdiv
  | .Mod => ops opMod
  | .Smod => ops opSmod
  | .Addmod => ops opAddmod
  | .Mulmod => ops opMulmod
  | .Exp => ops opExp
  | .Signextend => ops opSignextend
  | .Lt => ops opLt
  | .Gt => ops opGt
  | .Slt => ops opSlt
  | .Sgt => ops opSgt
  | .Eq => ops opEq
  | .Iszero => ops opIszero
  | .And => ops opAnd
  | .Or => ops opOr
  | .Xor => ops opXor
  | .Not => ops opNot
  | .Byte => ops opByte
  | .Shl => ops opShl
  | .Shr => ops opShr
  | .Sar => ops opSar
  | .Clz => ops opClz
  | .Keccak256 => ops (opKeccak256 keccak)
  | .Address => ops (opAddress f)
  | .Balance => ops (opBalance f)
  | .Origin => ops opOrigin
  | .Caller => ops (opCaller f)
  | .Callvalue => ops (opCallvalue f)
  | .Calldataload => ops (opCalldataload f)
  | .Calldatasize => ops (opCalldatasize f)
  | .Calldatacopy => ops (opCalldatacopy f)
  | .Codesize => ops (opCodesize f)
  | .Codecopy => ops (opCodecopy f)
  | .Gasprice => ops opGasprice
  | .Extcodesize => ops (opExtcodesize f)
  | .Extcodecopy => ops (opExtcodecopy f)
  | .Returndatasize => ops opReturndatasize
  | .Returndatacopy => ops opReturndatacopy
  | .Extcodehash => ops (opExtcodehash f)
  | .Blockhash => ops opBlockhash
  | .Coinbase => ops opCoinbase
  | .Timestamp => ops opTimestamp
  | .Number => ops opNumber
  | .Prevrandao => ops opPrevrandao
  | .Gaslimit => ops opGaslimit
  | .Chainid => ops opChainid
  | .Selfbalance => ops (opSelfbalance f)
  | .Basefee => ops opBasefee
  | .Blobhash => ops opBlobhash
  | .Blobbasefee => ops opBlobbasefee
  | .Slotnum => ops opSlotnum
  | .Pop => ops opPop
  | .Mload => ops opMload
  | .Mstore => ops opMstore
  | .Mstore8 => ops opMstore8
  | .Sload => ops (opSload f)
  | .Sstore => ops (opSstore f)
  | .Jump => opJump f
  | .Jumpi => opJumpi f
  | .Pc => ops opPc
  | .Msize => ops opMsize
  | .Gas => ops opGas
  | .Jumpdest => ops opJumpdest
  | .Tload => ops (opTload f)
  | .Tstore => ops (opTstore f)
  | .Mcopy => ops opMcopy
  | .Push0 => ops opPush0
  | .Dupn => opDupn f
  | .Swapn => opSwapn f
  | .Exchange => opExchange f
  | .Create => opCreate keccak f
  | .Call => opCall f
  | .Callcode => opCallcode f
  | .Return => opReturn
  | .Delegatecall => opDelegatecall f
  | .Create2 => opCreate2 keccak f
  | .Staticcall => opStaticcall f
  | .Revert => opRevert
  | .Invalid => opInvalid
  | .Selfdestruct => opSelfdestruct f
  | .Push n => opPush f n
  | .Dup n => ops (opDup n)
  | .Swap n => ops (opSwap n)
  | .Log n => logImpl f n

-- Past the end of the code stands STOP.
def instruction (keccak : Bytes → Bytes32) (f : Frame) (s : EvmState) : Program Request.Answer (Outcome Unit) :=
  match decode f.rev (f.code.getD s.pc 0) with
  | some op => handler keccak f op s
  | none => .Done (.Halt .UndefinedInstruction s)

-- The loop, for at most `fuel` instructions; `none` is that it has not halted by then.
def dispatch (keccak : Bytes → Bytes32) (f : Frame) :
    Nat → EvmState → Program Request.Answer (Option (StatusCode × EvmState))
  | 0, _ => .Done none
  | fuel + 1, s =>
    (instruction keccak f s).bind fun
      | .Ok _ s' => dispatch keccak f fuel s'
      | .Halt status s' => .Done (some (status, s'))

-- The evmc_result of a frame that halted.
def frameEnd (f : Frame) (status : StatusCode) (s : EvmState) (output : Bytes) : Result :=
  let r := frameResult f.rev f.msg.stateGas s.purse s.refund status.coarse
  { status := status
    gasLeft := r.gasLeft
    refund := r.refund
    left := r.left
    spilled := r.spilled
    output := output
    charged := if status = .Success then s.charged else 0 }

-- The output is read before the frame's memory is popped.
def finish (f : Frame) : Option (StatusCode × EvmState) → Program Request.Answer (Option Result)
  | none => .Done none
  | some (status, s) =>
    (if s.outputSize = 0 then .Done [] else askMem (.Load s.outputOffset s.outputSize)).bind fun output =>
      (askMem .DestroyMemory).bind fun _ => .Done (some (frameEnd f status s output))

def run (keccak : Bytes → Bytes32) (f : Frame) (fuel : Nat) : Program Request.Answer (Option Result) :=
  (askMem .CreateMemory).bind fun _ => (dispatch keccak f fuel f.reset).bind (finish f)

end Zeg.Zevm
