import Zeg.Base.Rlp
import Zeg.Base.Steps
import Zeg.Zevm
import Zeg.Zevm.U256

-- evmone's baseline interpreter as far as the fused dispatch meets it, and the fused dispatch.
namespace Zeg.Evmone

open Base Base.Limbs Base.Rlp Zevm

inductive Revision where
  | Frontier | Homestead | TangerineWhistle | SpuriousDragon | Byzantium | Constantinople | Petersburg
  | Istanbul | Berlin | London | Paris | Shanghai | Cancun | Prague | Osaka | Amsterdam
deriving DecidableEq, Repr

-- The opcodes of the fused sequences.
inductive Op where
  | Eq | Iszero | Jump | Jumpi | Jumpdest | Push2 | Push4
deriving DecidableEq, Repr

def Op.byte : Op → UInt8
  | .Eq => 0x14
  | .Iszero => 0x15
  | .Jump => 0x56
  | .Jumpi => 0x57
  | .Jumpdest => 0x5b
  | .Push2 => 0x61
  | .Push4 => 0x63

def Op.ofByte (b : UInt8) : Option Op :=
  [.Eq, .Iszero, .Jump, .Jumpi, .Jumpdest, .Push2, .Push4].find? fun op => op.byte = b

-- StackSpace::limit
def limit : Nat := 1024

-- The head is the top.
@[ext]
structure Stack where
  words : List U256
  within : words.length ≤ limit

namespace Stack

def height (s : Stack) : Nat := s.words.length

-- stack_end[-1 - i]
def top (s : Stack) (i : Nat) : U256 := s.words.getD i (U256.small 0)

def drop (s : Stack) (n : Nat) : Stack :=
  ⟨s.words.drop n, Nat.le_trans (by simp) s.within⟩

-- The overflow check stands before every push.
def push (s : Stack) (w : U256) : Stack :=
  if h : s.height < limit then ⟨w :: s.words, h⟩ else s

end Stack

structure Machine (σ : Type) where
  pc : Nat
  stack : Stack
  gas : Int
  state : σ

structure Result (σ : Type) where
  status : StatusCode
  gasLeft : Int
  output : Bytes
  state : σ

def executable (code : Bytes) : Bytes := code ++ List.replicate 33 0

def byteAt (code : Bytes) (pc : Nat) : UInt8 := (executable code).getD pc 0

-- analyze_jumpdests, with the data bytes that are still to be skipped.
def analyzeJumpdests : Nat → Bytes → List Bool
  | _, [] => []
  | skip + 1, _ :: code => false :: analyzeJumpdests skip code
  | 0, op :: code =>
    if 0x60 ≤ op ∧ op ≤ 0x7f then false :: analyzeJumpdests (op.toNat - 0x5f) code
    else (op = 0x5b) :: analyzeJumpdests 0 code

def checkJumpdest (code : Bytes) (pos : Limb) : Bool := (analyzeJumpdests 0 code).getD pos.toNat false

-- What evmone brings besides: its gas tables, with the prices that the fused dispatch asserts, and the
-- handlers of the other opcodes, which pay for themselves or end the run.
structure Interpreter (σ : Type) where
  gasCosts : Revision → Op → Int
  other : Revision → Bytes → UInt8 → Machine σ → Except (Result σ) (Machine σ)
  jump : ∀ rev, gasCosts rev .Jump = 8
  jumpi : ∀ rev, gasCosts rev .Jumpi = 10
  jumpdest : ∀ rev, gasCosts rev .Jumpdest = 1
  push2 : ∀ rev, gasCosts rev .Push2 = 3
  iszero : ∀ rev, gasCosts rev .Iszero = 3
  eq : ∀ rev, gasCosts rev .Eq = 3
  push4 : ∀ rev, gasCosts rev .Push4 = 3
  pays : ∀ rev code b m m', other rev code b m = .ok m' → 0 ≤ m'.gas ∧ m'.gas < m.gas

section Generic

variable {σ : Type}

def Op.required : Op → Nat
  | .Eq | .Jumpi => 2
  | .Iszero | .Jump => 1
  | _ => 0

def Op.pushes : Op → Bool
  | .Push2 | .Push4 => true
  | _ => false

def checkRequirements (cost : Int) (op : Op) (m : Machine σ) : Except StatusCode (Machine σ) :=
  if op.pushes ∧ m.stack.height = limit then .error .StackOverflow
  else if m.stack.height < op.required then .error .StackUnderflow
  else if m.gas - cost < 0 then .error .OutOfGas
  else .ok { m with gas := m.gas - cost }

def immediate (code : Bytes) (pc n : Nat) : U256 :=
  U256.small (BitVec.ofNat 64 (readBe ((List.range n).map fun k => byteAt code (pc + 1 + k))))

def truth (b : Bool) : U256 := U256.small (if b then 1 else 0)

def jumpImpl (code : Bytes) (dst : U256) (m : Machine σ) : Except StatusCode (Machine σ) :=
  if (dst.limb 3 ||| dst.limb 2 ||| dst.limb 1) ≠ 0 ∨ checkJumpdest code (dst.limb 0) = false then
    .error .BadJumpDestination
  else .ok { m with pc := (dst.limb 0).toNat }

def Op.impl (code : Bytes) (m : Machine σ) : Op → Except StatusCode (Machine σ)
  | .Eq => .ok { m with
      pc := m.pc + 1
      stack := (m.stack.drop 2).push (truth (m.stack.top 0 = m.stack.top 1)) }
  | .Iszero => .ok { m with
      pc := m.pc + 1
      stack := (m.stack.drop 1).push (truth (m.stack.top 0 = U256.small 0)) }
  | .Jump => jumpImpl code (m.stack.top 0) { m with stack := m.stack.drop 1 }
  | .Jumpi =>
    if m.stack.top 1 ≠ U256.small 0 then jumpImpl code (m.stack.top 0) { m with stack := m.stack.drop 2 }
    else .ok { m with pc := m.pc + 1, stack := m.stack.drop 2 }
  | .Jumpdest => .ok { m with pc := m.pc + 1 }
  | .Push2 => .ok { m with pc := m.pc + 3, stack := m.stack.push (immediate code m.pc 2) }
  | .Push4 => .ok { m with pc := m.pc + 5, stack := m.stack.push (immediate code m.pc 4) }

-- A run that fails has no gas left and no output.
def invoke (e : Interpreter σ) (rev : Revision) (code : Bytes) (op : Op) (m : Machine σ) :
    Except (Result σ) (Machine σ) :=
  ((checkRequirements (e.gasCosts rev op) op m).bind fun m => op.impl code m).mapError fun status =>
    ⟨status, 0, [], m.state⟩

-- One turn of the switch dispatch.
def step (e : Interpreter σ) (rev : Revision) (code : Bytes) (m : Machine σ) : Except (Result σ) (Machine σ) :=
  match Op.ofByte (byteAt code m.pc) with
  | some op => invoke e rev code op m
  | none => e.other rev code (byteAt code m.pc) m

end Generic

-- fused_dispatch.inl
section Fused

variable {σ : Type} (code : Bytes)

def Op.fusable : Op → Bool
  | .Jump | .Push2 | .Push4 | .Iszero | .Eq => true
  | _ => false

def zegCharge (cost : Int) (m : Machine σ) : Bool × Machine σ :=
  if m.gas < cost then (false, m) else (true, { m with gas := m.gas - cost })

def zegJump (dst : Limb) (cost : Int) (m : Machine σ) : Bool × Machine σ :=
  if !checkJumpdest code dst then (false, m)
  else
    let (charged, m) := zegCharge cost m
    if !charged then (false, m) else (true, { m with pc := dst.toNat + 1 })

def peek (pc : Nat) : Limb := BitVec.ofNat 64 (byteAt code pc).toNat

-- The 16-bit immediate of the PUSH2 at `push2`.
def target (push2 : Nat) : Limb := (peek code (push2 + 1) <<< 8) ||| peek code (push2 + 2)

def zegBranch (push2 : Nat) (taken : Bool) (cost : Int) (m : Machine σ) : Bool × Machine σ :=
  if taken then zegJump code (target code push2) (cost + 1) m
  else
    let (charged, m) := zegCharge cost m
    if !charged then (false, m) else (true, { m with pc := push2 + 4 })

def zegTest (m : Machine σ) : Op → Bool
  | .Push2 => (a.limb 0 ||| a.limb 1 ||| a.limb 2 ||| a.limb 3) ≠ 0
  | .Iszero => (a.limb 0 ||| a.limb 1 ||| a.limb 2 ||| a.limb 3) = 0
  | .Push4 => a.limb 0 = ((peek code (m.pc + 1) <<< 24) ||| (peek code (m.pc + 2) <<< 16) |||
      (peek code (m.pc + 3) <<< 8) ||| peek code (m.pc + 4)) && (a.limb 1 ||| a.limb 2 ||| a.limb 3) = 0
  | _ => ((a.limb 0 ^^^ b.limb 0) ||| (a.limb 1 ^^^ b.limb 1) ||| (a.limb 2 ^^^ b.limb 2) |||
      (a.limb 3 ^^^ b.limb 3)) = 0
where
  a := m.stack.top 0
  b := m.stack.top 1

-- Where the PUSH2 is, the words the test consumes, and what the sequence costs without a landing.
def Op.offset : Op → Nat
  | .Push2 => 0
  | .Push4 => 6
  | _ => 1

def Op.pops : Op → Nat
  | .Push2 | .Iszero | .Push4 => 1
  | _ => 2

def Op.cost : Op → Int
  | .Push2 => 3 + 10
  | .Push4 => 3 + 3 + 3 + 10
  | _ => 3 + 3 + 10

def zegTryFuse (op : Op) (m : Machine σ) : Bool × Machine σ :=
  if op = .Jump then
    let dst := m.stack.top 0
    if m.stack.height < 1 then (false, m)
    else if (dst.limb 3 ||| dst.limb 2 ||| dst.limb 1) ≠ 0 then (false, m)
    else
      let (landed, m) := zegJump code (dst.limb 0) (8 + 1) m
      if !landed then (false, m) else (true, { m with stack := m.stack.drop 1 })
  else if op = .Push2 ∧ byteAt code (m.pc + 3) = Op.Jump.byte then
    if m.stack.height < limit then zegJump code (target code m.pc) (3 + 8 + 1) m else (false, m)
  else if byteAt code (m.pc + op.offset) ≠ Op.Push2.byte ∨ byteAt code (m.pc + op.offset + 3) ≠ Op.Jumpi.byte ∨
      op = .Push4 ∧ byteAt code (m.pc + 5) ≠ Op.Eq.byte then (false, m)
  else if m.stack.height < op.pops ∨ op.pops = 1 ∧ limit ≤ m.stack.height then (false, m)
  else
    let (branched, m) := zegBranch code (m.pc + op.offset) (zegTest code m op) op.cost m
    if !branched then (false, m) else (true, { m with stack := m.stack.drop op.pops })

-- One turn of dispatch_cgoto: a sequence that fuses is dispatched at once.
def fusedStep (e : Interpreter σ) (rev : Revision) (code : Bytes) (m : Machine σ) : Except (Result σ) (Machine σ) :=
  match Op.ofByte (byteAt code m.pc) with
  | none => e.other rev code (byteAt code m.pc) m
  | some op =>
    if op.fusable then
      let (fused, m) := zegTryFuse code op m
      if fused then .ok m else invoke e rev code op m
    else invoke e rev code op m

end Fused

end Zeg.Evmone
