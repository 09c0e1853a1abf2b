import Zeg.StateDB.Acts
import Zeg.Zevm.Dispatch

-- What holds of the parts of a handler and is kept by sequencing holds of the handler.
namespace Zeg.Zevm

open Base StateDB Gas Memory Exec

variable {f : Frame} {α β : Type} {keccak : Bytes → Bytes32}

-- A part that goes on has left the counter and the cached balance alone.
def Outcome.Calm (s : EvmState) : Outcome α → Prop
  | .Ok _ s' => s'.pc = s.pc ∧ s'.selfBalance = s.selfBalance
  | .Halt _ _ => True

-- The row that a callback reads in passing: its touch is not logged.
def Query.reads : Query → Option Key
  | .GetBalance a | .GetNonce a | .GetCodeSize a | .GetCodeHash a | .CopyCode a _ _ => some (.Account a)
  | .GetStorage key | .SetStorage key _ => some (.Slot key)
  | _ => none

def Query.Plain (q : Query) : Prop := q.reads = none ∧ ∀ a beneficiary, q ≠ .Selfdestruct a beneficiary

-- A property that holds of the parts which ask the host for nothing, and that sequencing keeps.
structure Closed (P : (α : Type) → Exec α → Prop) : Prop where
  bind : ∀ {α β} {m : Exec α} {n : α → Exec β}, P α m → (∀ a, P β (n a)) → P β (m >>= n)
  done : ∀ {α} {m : Exec α}, (∀ s, ∃ o, m s = .Done o ∧ o.Calm s) → P α m
  mem : ∀ q, P _ (ask (.Mem q))

-- With the changes of the counter.
structure Mobile (P : (α : Type) → Exec α → Prop) : Prop extends Closed P where
  moves : ∀ change : EvmState → EvmState, (∀ s, (change s).selfBalance = s.selfBalance) → P _ (modify change)

-- With the callbacks that read no row, and with those that do.
structure Asking (P : (α : Type) → Exec α → Prop) : Prop extends Closed P where
  plain : ∀ q : Query, q.Plain → P _ (askHost q)

structure Reading (P : (α : Type) → Exec α → Prop) : Prop extends Asking P where
  reads : ∀ (q : Query) key, q.reads = some key → P _ (askHost q)

structure Free (P : (α : Type) → Exec α → Prop) : Prop extends Asking P, Mobile P

variable {P : (α : Type) → Exec α → Prop}

namespace Closed

variable (C : Closed P)

include C

theorem pure (a : α) : P α (Pure.pure a) := C.done fun s => ⟨.Ok a s, rfl, rfl, rfl⟩

theorem halt (status : StatusCode) : P α (Exec.halt status) := C.done fun s => ⟨.Halt status s, rfl, trivial⟩

theorem get : P _ Exec.get := C.done fun s => ⟨.Ok s s, rfl, rfl, rfl⟩

theorem modify {change : EvmState → EvmState} (hpc : ∀ s, (change s).pc = s.pc)
    (hself : ∀ s, (change s).selfBalance = s.selfBalance) : P _ (Exec.modify change) :=
  C.done fun s => ⟨.Ok () (change s), rfl, hpc s, hself s⟩

omit C in
theorem ite {c : Prop} [Decidable c] {m m' : Exec α} (hm : P α m) (hm' : P α m') : P α (if c then m else m') := by
  split
  · exact hm
  · exact hm'

theorem require (b : Bool) (status : StatusCode) : P _ (Exec.require b status) := ite (C.pure ()) (C.halt status)

-- gas

theorem useGas (cost : Int) : P _ (Exec.useGas cost) := by
  refine C.done fun s => ?_
  unfold Exec.useGas
  split
  · exact ⟨_, rfl, trivial⟩
  · exact ⟨_, rfl, rfl, rfl⟩

theorem useGasIf (b : Bool) (cost : Int) : P _ (Exec.useGasIf b cost) := ite (C.useGas cost) (C.pure ())

theorem chargeStateGas (cost : Int) : P _ (Exec.chargeStateGas cost) := by
  refine C.done fun s => ?_
  unfold Exec.chargeStateGas
  split
  · exact ⟨_, rfl, trivial⟩
  · exact ⟨_, rfl, rfl, rfl⟩

theorem refillStateGas (cost : Int) : P _ (Exec.refillStateGas cost) := C.modify (fun _ => rfl) fun _ => rfl

theorem refillStateGasIf (b : Bool) (cost : Int) : P _ (Exec.refillStateGasIf b cost) :=
  ite (C.refillStateGas cost) (C.pure ())

theorem giveGas (amount : Int) : P _ (Exec.giveGas amount) := C.modify (fun _ => rfl) fun _ => rfl

theorem addRefund (amount : Int) : P _ (Exec.addRefund amount) := C.modify (fun _ => rfl) fun _ => rfl

theorem setReturnData (data : Bytes) : P _ (Exec.modify fun s => { s with returnData := data }) :=
  C.modify (fun _ => rfl) fun _ => rfl

-- stack

theorem push (v : Word) : P _ (Exec.push v) := C.modify (fun _ => rfl) fun _ => rfl

theorem needs (n : Nat) : P _ (Exec.needs n) := by
  refine C.done fun s => ?_
  unfold Exec.needs
  split
  · exact ⟨_, rfl, trivial⟩
  · exact ⟨_, rfl, rfl, rfl⟩

theorem room : P _ Exec.room := by
  refine C.done fun s => ?_
  unfold Exec.room
  split
  · exact ⟨_, rfl, trivial⟩
  · exact ⟨_, rfl, rfl, rfl⟩

theorem pop : P _ Exec.pop := by
  refine C.done fun s => ?_
  unfold Exec.pop
  split
  · exact ⟨_, rfl, trivial⟩
  · exact ⟨_, rfl, rfl, rfl⟩

theorem popIf (b : Bool) : P _ (Zevm.popIf b) := ite C.pop (C.pure 0)

-- memory

theorem settle (r : MemGas) : P _ (Exec.settle r) := by
  refine C.done fun s => ?_
  unfold Exec.settle
  dsimp only
  split
  · exact ⟨_, rfl, rfl, rfl⟩
  · exact ⟨_, rfl, trivial⟩

theorem memExpand (addr len : Nat) : P _ (Exec.memExpand addr len) :=
  C.bind C.get fun _ => C.bind (C.mem _) C.settle

theorem memRead (addr len : Nat) : P _ (Exec.memRead addr len) :=
  C.bind C.get fun _ => C.bind (C.mem _) fun r => C.bind (C.settle r.1) fun _ => C.pure r.2

theorem memWrite (addr : Nat) (src : Bytes) : P _ (Exec.memWrite addr src) :=
  C.bind C.get fun _ => C.bind (C.mem _) C.settle

theorem memWriteByte (addr : Nat) (v : UInt8) : P _ (Exec.memWriteByte addr v) :=
  C.bind C.get fun _ => C.bind (C.mem _) C.settle

theorem memLoad (addr len : Nat) : P _ (Exec.memLoad addr len) := ite (C.pure []) (C.mem (.Load addr len))

theorem memStore (addr : Nat) (src : Bytes) : P _ (Exec.memStore addr src) := ite (C.pure ()) (C.mem (.Store addr src))

-- The handlers that stay within their frame.

theorem unop {cost : Int} {op : Word → Word} : P _ (Zevm.unop cost op) :=
  C.bind (C.useGas cost) fun _ => C.bind (C.needs 1) fun _ => C.bind C.pop fun a => C.push (op a)

theorem binop {cost : Int} {op : Word → Word → Word} : P _ (Zevm.binop cost op) :=
  C.bind (C.useGas cost) fun _ => C.bind (C.needs 2) fun _ => C.bind C.pop fun a => C.bind C.pop fun b =>
    C.push (op a b)

theorem ternop {cost : Int} {op : Word → Word → Word → Word} : P _ (Zevm.ternop cost op) :=
  C.bind (C.useGas cost) fun _ => C.bind (C.needs 3) fun _ => C.bind C.pop fun a => C.bind C.pop fun b =>
    C.bind C.pop fun c => C.push (op a b c)

theorem exp : P _ opExp :=
  C.bind (C.needs 2) fun _ => C.bind C.pop fun _ => C.bind C.pop fun _ => C.bind (C.useGas _) fun _ => C.push _

theorem keccak256 : P _ (opKeccak256 keccak) :=
  C.bind (C.useGas _) fun _ => C.bind (C.needs 2) fun _ => C.bind C.pop fun _ => C.bind C.pop fun _ =>
    C.bind (C.memExpand _ _) fun _ => C.bind (C.useGas _) fun _ => C.bind (C.memLoad _ _) fun _ => C.push _

theorem pushOp {cost : Int} {value : Exec Word} (hv : P _ value) : P _ (Zevm.pushOp cost value) :=
  C.bind (C.useGas cost) fun _ => C.bind hv fun v => C.bind C.room fun _ => C.push v

theorem dataCopy (data : Bytes) : P _ (Zevm.dataCopy data) :=
  C.bind (C.useGas _) fun _ => C.bind (C.needs 3) fun _ => C.bind C.pop fun _ => C.bind C.pop fun _ =>
    C.bind C.pop fun _ => C.bind (C.memExpand _ _) fun _ => C.bind (C.useGas _) fun _ => C.memStore _ _

theorem returndatacopy : P _ opReturndatacopy := by
  refine C.bind (C.useGas _) fun _ => C.bind (C.needs 3) fun _ => C.bind C.pop fun _ => C.bind C.pop fun _ =>
    C.bind C.pop fun _ => C.bind (C.memExpand _ _) fun _ => C.bind ?_ fun _ => C.bind (C.useGas _) fun _ =>
    C.memStore _ _
  exact C.bind C.get fun _ => C.bind (C.require _ _) fun _ => C.pure _

theorem opPop : P _ Zevm.opPop :=
  C.bind (C.useGas _) fun _ => C.bind (C.needs 1) fun _ => C.bind C.pop fun _ => C.pure ()

theorem mload : P _ opMload :=
  C.bind (C.useGas _) fun _ => C.bind (C.needs 1) fun _ => C.bind C.pop fun _ => C.bind (C.require _ _) fun _ =>
    C.bind (C.memRead _ _) fun _ => C.push _

theorem mstore : P _ opMstore :=
  C.bind (C.useGas _) fun _ => C.bind (C.needs 2) fun _ => C.bind C.pop fun _ => C.bind C.pop fun _ =>
    C.bind (C.require _ _) fun _ => C.memWrite _ _

theorem mstore8 : P _ opMstore8 :=
  C.bind (C.useGas _) fun _ => C.bind (C.needs 2) fun _ => C.bind C.pop fun _ => C.bind C.pop fun _ =>
    C.bind (C.require _ _) fun _ => C.memWriteByte _ _

theorem mcopy : P _ opMcopy :=
  C.bind (C.useGas _) fun _ => C.bind (C.needs 3) fun _ => C.bind C.pop fun _ => C.bind C.pop fun _ =>
    C.bind C.pop fun _ => C.bind (C.memExpand _ _) fun _ => C.bind (C.useGas _) fun _ =>
    C.bind (C.memLoad _ _) fun _ => C.memStore _ _

theorem dup (n : Nat) : P _ (Zevm.dup n) :=
  C.bind (C.needs n) fun _ => C.bind C.room fun _ => C.bind C.get fun _ => C.push _

theorem swap (n m : Nat) : P _ (Zevm.swap n m) := C.bind (C.needs _) fun _ => C.modify (fun _ => rfl) fun _ => rfl

theorem popTopics (n : Nat) : P _ (Zevm.popTopics n) := by
  induction n with
  | zero => exact C.pure []
  | succ n ih => exact C.bind C.pop fun _ => C.bind ih fun _ => C.pure _

theorem setOutput (off size : Nat) : P _ (Zevm.setOutput off size) :=
  ite (C.bind (C.memExpand _ _) fun _ => C.modify (fun _ => rfl) fun _ => rfl) (C.modify (fun _ => rfl) fun _ => rfl)

theorem returnImpl (status : StatusCode) : P _ (Zevm.returnImpl status) :=
  C.bind (C.needs 2) fun _ => C.bind C.pop fun _ => C.bind C.pop fun _ => C.bind (C.setOutput _ _) fun _ =>
    C.halt status

theorem slotStateGas (rev : Revision) (status : StorageStatus) : P _ (Zevm.slotStateGas rev status) := by
  refine ite ?_ (C.pure ())
  split
  · exact C.chargeStateGas _
  · exact C.refillStateGas _
  · exact C.pure ()

theorem sentry : P _ Zevm.sentry := C.bind C.get fun _ => C.require _ _

theorem popCallArgs (hasValue : Bool) : P _ (Zevm.popCallArgs hasValue) :=
  C.bind C.pop fun _ => C.bind C.pop fun _ => C.bind (C.popIf _) fun _ => C.bind C.pop fun _ => C.bind C.pop fun _ =>
    C.bind C.pop fun _ => C.bind C.pop fun _ => C.pure _

theorem reclaim (gas : Int) (charged : Bool) (r : Result) : P _ (Zevm.reclaim f gas charged r) := by
  refine C.bind (C.giveGas _) fun _ => C.bind (C.addRefund _) fun _ => ite (C.bind ?_ fun _ => ?_) (C.pure ())
  · exact C.modify (fun _ => rfl) fun _ => rfl
  · exact C.refillStateGasIf _ _

end Closed

-- The opcodes that keep within the frame and what every frame may ask.
def Opcode.Local : Opcode → Bool
  | .Balance | .Extcodesize | .Extcodehash | .Extcodecopy | .Sload | .Sstore | .Selfbalance | .Selfdestruct
  | .Create | .Create2 | .Call | .Callcode | .Delegatecall | .Staticcall => false
  | _ => true

-- Those after which the loop goes on with the next byte.
def Opcode.Single : Opcode → Bool
  | .Stop | .Invalid | .Jump | .Jumpi | .Dupn | .Swapn | .Exchange | .Return | .Revert | .Push _ | .Log _ => false
  | op => op.Local

-- The handlers that ask about the transaction, the chain and what every account may be asked.
namespace Asking

variable (A : Asking P)

include A

theorem txContext : P _ (askHost .GetTxContext) := A.plain _ ⟨rfl, nofun⟩

theorem accountExists (a : Address) : P _ (askHost (.AccountExists a)) := A.plain _ ⟨rfl, nofun⟩

theorem accessAccount (a : Address) : P _ (askHost (.AccessAccount a)) := A.plain _ ⟨rfl, nofun⟩

theorem txField (field : TxContext → Word) : P _ (Zevm.txField field) :=
  A.bind A.txContext fun tx => A.pure (field tx)

theorem blockhash : P _ opBlockhash := by
  refine A.bind (A.useGas _) fun _ => A.bind (A.needs 1) fun _ => A.bind A.pop fun _ =>
    A.bind ?_ fun hash => A.push hash
  refine A.bind A.txContext fun _ => Closed.ite ?_ (A.pure 0)
  exact A.bind (A.plain _ ⟨rfl, nofun⟩) fun _ => A.pure _

theorem blobhash : P _ opBlobhash :=
  A.bind (A.useGas _) fun _ => A.bind (A.needs 1) fun _ => A.bind A.pop fun _ =>
    A.bind (A.bind A.txContext fun _ => A.pure _) fun hash => A.push hash

theorem tload : P _ (opTload f) :=
  A.bind (A.useGas _) fun _ => A.bind (A.needs 1) fun _ => A.bind A.pop fun _ =>
    A.bind (A.plain _ ⟨rfl, nofun⟩) fun v => A.push v

theorem tstore : P _ (opTstore f) :=
  A.bind (A.useGas _) fun _ => A.bind (A.require _ _) fun _ => A.bind (A.needs 2) fun _ => A.bind A.pop fun key =>
    A.bind A.pop fun v => A.plain (.SetTransientStorage (f.msg.recipient, key) v) ⟨rfl, nofun⟩

theorem chargeAccountAccess (a : Address) : P _ (Zevm.chargeAccountAccess f a) :=
  A.bind (A.accessAccount a) fun _ => A.useGasIf _ _

theorem chargeNewAccount (sendsValue : Bool) (dst : Address) : P _ (Zevm.chargeNewAccount f sendsValue dst) := by
  refine Closed.ite (A.bind (A.accountExists dst) fun _ => ?_) (A.pure false)
  refine Closed.ite (A.pure false) (Closed.ite ?_ ?_)
  · exact A.bind (A.chargeStateGas _) fun _ => A.pure true
  · exact A.bind (A.useGas _) fun _ => A.pure false

theorem chargeCreated (a : Address) : P _ (Zevm.chargeCreated f a) := by
  refine Closed.ite (A.bind (A.accountExists a) fun _ => Closed.ite (A.pure false) ?_) (A.pure false)
  exact A.bind (A.chargeStateGas _) fun _ => A.pure true

theorem chargeBeneficiary (hown : P _ (askHost (.GetBalance f.msg.recipient))) (beneficiary : Address) :
    P _ (Zevm.chargeBeneficiary f beneficiary) := by
  refine A.bind hown fun _ => Closed.ite (A.bind (A.accountExists _) fun _ => ?_) (A.pure ())
  exact Closed.ite (A.pure ())
    (Closed.ite (A.bind (A.useGas _) fun _ => A.chargeStateGas _) (A.useGas _))

theorem single {op : Opcode} (hop : op.Single = true) : ∃ m, handler keccak f op = ops m ∧ P _ m := by
  cases op with
  | Balance | Extcodesize | Extcodehash | Extcodecopy | Sload | Sstore | Selfbalance | Selfdestruct | Create | Create2
  | Call | Callcode | Delegatecall | Staticcall | Stop | Invalid | Jump | Jumpi | Dupn | Swapn | Exchange | Return
  | Revert | Push | Log => exact Bool.noConfusion hop
  | Addmod | Mulmod => exact ⟨_, rfl, A.ternop⟩
  | Iszero | Not | Clz | Calldataload => exact ⟨_, rfl, A.unop⟩
  | Exp => exact ⟨_, rfl, A.exp⟩
  | Keccak256 => exact ⟨_, rfl, A.keccak256⟩
  | Address | Caller | Callvalue | Calldatasize | Codesize | Push0 => exact ⟨_, rfl, A.pushOp (A.pure _)⟩
  | Origin | Gasprice | Coinbase | Timestamp | Number | Prevrandao | Gaslimit | Chainid | Basefee
  | Blobbasefee | Slotnum => exact ⟨_, rfl, A.pushOp (A.txField _)⟩
  | Msize => exact ⟨_, rfl, A.pushOp (A.bind (A.mem _) fun _ => A.pure _)⟩
  | Calldatacopy | Codecopy => exact ⟨_, rfl, A.dataCopy _⟩
  | Returndatasize | Pc | Gas => exact ⟨_, rfl, A.pushOp (A.bind A.get fun _ => A.pure _)⟩
  | Returndatacopy => exact ⟨_, rfl, A.returndatacopy⟩
  | Blockhash => exact ⟨_, rfl, A.blockhash⟩
  | Blobhash => exact ⟨_, rfl, A.blobhash⟩
  | Pop => exact ⟨_, rfl, A.opPop⟩
  | Mload => exact ⟨_, rfl, A.mload⟩
  | Mstore => exact ⟨_, rfl, A.mstore⟩
  | Mstore8 => exact ⟨_, rfl, A.mstore8⟩
  | Mcopy => exact ⟨_, rfl, A.mcopy⟩
  | Tload => exact ⟨_, rfl, A.tload⟩
  | Tstore => exact ⟨_, rfl, A.tstore⟩
  | Jumpdest => exact ⟨_, rfl, A.useGas _⟩
  | Dup n => exact ⟨_, rfl, A.bind (A.useGas _) fun _ => A.dup n⟩
  | Swap n => exact ⟨_, rfl, A.bind (A.useGas _) fun _ => A.swap 0 n⟩
  | Add | Mul | Sub | Div | Sdiv | Mod | Smod | Signextend | Lt | Gt | Slt | Sgt | Eq | And | Or | Xor
  | Byte | Shl | Shr | Sar => exact ⟨_, rfl, A.binop⟩

end Asking

-- The handlers that read an account or a slot.
namespace Reading

variable (R : Reading P)

include R

theorem accountOp {cost : Int} {value : Address → Exec Word} (hv : ∀ a, P _ (value a)) :
    P _ (Zevm.accountOp f cost value) :=
  R.bind (R.useGas _) fun _ => R.bind (R.needs 1) fun _ => R.bind R.pop fun _ =>
    R.bind (R.chargeAccountAccess _) fun _ => R.bind (hv _) fun v => R.push v

theorem extcodecopy : P _ (opExtcodecopy f) := by
  refine R.bind (R.useGas _) fun _ => R.bind (R.needs 4) fun _ => R.bind R.pop fun _ => R.bind R.pop fun _ =>
    R.bind R.pop fun _ => R.bind R.pop fun _ => R.bind (R.memExpand _ _) fun _ => R.bind (R.useGas _) fun _ =>
    R.bind (R.chargeAccountAccess _) fun _ => ?_
  exact Closed.ite (R.pure ()) (R.bind (R.reads _ _ rfl) fun _ => R.memStore _ _)

theorem sload : P _ (opSload f) :=
  R.bind (R.useGas _) fun _ => R.bind (R.needs 1) fun _ => R.bind R.pop fun _ =>
    R.bind (R.plain _ ⟨rfl, nofun⟩) fun _ => R.bind (R.useGasIf _ _) fun _ => R.bind (R.reads _ _ rfl) fun v => R.push v

theorem sstore : P _ (opSstore f) :=
  R.bind (R.needs 2) fun _ => R.bind (R.require _ _) fun _ => R.bind R.sentry fun _ => R.bind R.pop fun _ =>
    R.bind R.pop fun _ => R.bind (R.plain _ ⟨rfl, nofun⟩) fun _ => R.bind (R.reads _ _ rfl) fun _ =>
    R.bind (R.useGas _) fun _ => R.bind (R.slotStateGas _ _) fun _ => R.addRefund _

theorem resolveDelegate (dst : Address) : P _ (Zevm.resolveDelegate f dst) := by
  refine Closed.ite (R.bind (R.reads _ _ rfl) fun code => ?_) (R.pure dst)
  cases delegateOf code with
  | none => exact R.pure dst
  | some delegate => exact R.bind (R.accessAccount _) fun _ => R.bind (R.useGas _) fun _ => R.pure delegate

theorem callFails (value : Word) : P _ (Zevm.callFails f value) :=
  Closed.ite (R.bind (R.reads _ _ rfl) fun _ => R.pure _) (R.pure _)

theorem senderNonce (value : Word) : P _ (Zevm.senderNonce f value) := by
  refine R.bind ?_ fun fails => Closed.ite (R.pure none) (R.bind (R.reads _ _ rfl) fun _ => R.pure _)
  exact Closed.ite (R.pure true) (Closed.ite (R.bind (R.reads _ _ rfl) fun _ => R.pure _) (R.pure false))

end Reading

namespace Mobile

variable (M : Mobile P)

include M

theorem advance (n : Nat) : P _ (Exec.advance n) := M.moves _ fun _ => rfl

theorem ops {m : Exec Unit} (hm : P _ m) : P _ (Zevm.ops m) := M.bind hm fun _ => M.advance 1

theorem jumpTo (dest : Nat) : P _ (Zevm.jumpTo f dest) :=
  M.bind (M.require _ _) fun _ => M.bind (M.useGas _) fun _ => M.moves _ fun _ => rfl

theorem jump : P _ (opJump f) :=
  M.bind (M.useGas _) fun _ => M.bind (M.needs 1) fun _ => M.bind M.pop fun _ => M.jumpTo _

theorem jumpi : P _ (opJumpi f) :=
  M.bind (M.useGas _) fun _ => M.bind (M.needs 2) fun _ => M.bind M.pop fun _ => M.bind M.pop fun _ =>
    Closed.ite (M.jumpTo _) (M.advance 1)

theorem opPush (n : Nat) : P _ (Zevm.opPush f n) :=
  M.bind (M.useGas _) fun _ => M.bind M.room fun _ => M.bind M.get fun _ => M.bind (M.push _) fun _ => M.advance _

theorem immediateOp {decode : UInt8 → Option α} {op : α → Exec Unit} (hop : ∀ x, P _ (op x)) :
    P _ (Zevm.immediateOp f decode op) := by
  refine M.bind (M.useGas _) fun _ => M.bind M.get fun s => ?_
  cases decode (immByte f.code s.pc) with
  | none => exact M.halt _
  | some x => exact M.bind (hop x) fun _ => M.advance 2

theorem finishLight (charged : Bool) : P _ (Zevm.finishLight charged) :=
  M.bind (M.refillStateGasIf _ _) fun _ => M.bind (M.push 0) fun _ => M.advance 1

end Mobile

namespace Free

variable (F : Free P)

include F

theorem logImpl (n : Nat) : P _ (Zevm.logImpl f n) :=
  F.bind (F.useGas _) fun _ => F.bind (F.needs _) fun _ => F.bind (F.require _ _) fun _ => F.bind F.pop fun _ =>
    F.bind F.pop fun _ => F.bind (F.memExpand _ _) fun _ => F.bind (F.useGas _) fun _ =>
    F.bind (F.popTopics n) fun topics => F.bind (F.memLoad _ _) fun data =>
    F.bind (F.plain (.EmitLog ⟨f.msg.recipient, topics, data⟩) ⟨rfl, nofun⟩) fun _ => F.advance 1

theorem handler {op : Opcode} (hop : op.Local = true) : P _ (Zevm.handler keccak f op) := by
  by_cases hone : op.Single = true
  · obtain ⟨m, hm, hp⟩ := F.single hone
    rw [hm]
    exact F.ops hp
  cases op with
  | Balance | Extcodesize | Extcodehash | Extcodecopy | Sload | Sstore | Selfbalance | Selfdestruct | Create | Create2
  | Call | Callcode | Delegatecall | Staticcall => exact Bool.noConfusion hop
  | Stop | Invalid => exact F.halt _
  | Jump => exact F.jump
  | Jumpi => exact F.jumpi
  | Dupn => exact F.immediateOp F.dup
  | Swapn | Exchange => exact F.immediateOp fun _ => F.swap _ _
  | Return | Revert => exact F.returnImpl _
  | Push n => exact F.opPush n
  | Log n => exact F.logImpl n
  | _ => exact absurd rfl hone

end Free

end Zeg.Zevm
