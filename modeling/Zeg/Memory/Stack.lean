import Zeg.Memory

-- The manager's purpose: a stack of independent, zero-initialised byte arrays.
namespace Zeg.Memory

open Base

theorem le_roundUpWord (n : Nat) : n ≤ roundUpWord n := by
  unfold roundUpWord kWord
  omega

structure Frame where
  size : Nat
  bytes : Nat → UInt8
  zero_above : ∀ a, size ≤ a → bytes a = 0

def Frame.empty : Frame := ⟨0, fun _ => 0, fun _ _ => rfl⟩

-- The size that makes `[addr, addr + len)` addressable. An empty range needs nothing.
def Frame.reach (f : Frame) (addr len : Nat) : Nat :=
  if len = 0 ∨ addr + len ≤ f.size then f.size else roundUpWord (addr + len)

theorem Frame.size_le_reach (f : Frame) (addr len : Nat) : f.size ≤ f.reach addr len := by
  unfold Frame.reach
  have := le_roundUpWord (addr + len)
  split <;> omega

theorem Frame.end_le_reach (f : Frame) (addr : Nat) {len : Nat} (hl : len ≠ 0) :
    addr + len ≤ f.reach addr len := by
  unfold Frame.reach
  have := le_roundUpWord (addr + len)
  split <;> omega

def Frame.resize (f : Frame) (newSize : Nat) (h : f.size ≤ newSize) : Frame :=
  { f with size := newSize, zero_above := fun a ha => f.zero_above a (Nat.le_trans h ha) }

def Frame.touch (f : Frame) (addr len : Nat) : Frame :=
  f.resize (f.reach addr len) (f.size_le_reach addr len)

theorem Frame.zero_above_copyIn (f : Frame) (addr : Nat) (src : List UInt8) (a : Nat)
    (ha : f.reach addr src.length ≤ a) : copyIn f.bytes addr src a = 0 := by
  have hz := f.zero_above a (Nat.le_trans (f.size_le_reach addr src.length) ha)
  by_cases hl : src.length = 0
  · rw [List.length_eq_zero_iff.mp hl]
    simpa [copyIn] using hz
  · have := f.end_le_reach addr hl
    rw [copyIn_of_le f.bytes src (by omega), hz]

def Frame.write (f : Frame) (addr : Nat) (src : List UInt8) : Frame where
  size := f.reach addr src.length
  bytes := copyIn f.bytes addr src
  zero_above := f.zero_above_copyIn addr src

def Frame.cost (f : Frame) (addr len : Nat) : Int :=
  memCost (f.reach addr len / kWord) - memCost (f.size / kWord)

-- What one frame operation asks for, and the frame and data it yields when granted.
structure Request where
  addr : Nat
  len : Nat
  gas : Int
  frame : Frame
  data : List UInt8

def Frame.request (f : Frame) : MemOp → Option Request
  | .Create | .Destroy => none
  | .Expand addr len gas => some ⟨addr, len, gas, f.touch addr len, []⟩
  | .ReadBytes addr len gas =>
    some ⟨addr, len, gas, f.touch addr len, copyOut f.bytes addr len⟩
  | .WriteBytes addr src gas => some ⟨addr, src.length, gas, f.write addr src, []⟩
  | .WriteByte addr value gas => some ⟨addr, 1, gas, f.write addr [value], []⟩

-- The live frames, innermost first, and the child the innermost one got back last.
structure Stack where
  frames : List Frame
  popped : Option Frame

-- Total size of the frames of `frames` that share a zone with a frame pushed onto it.
def zoneLoad : List Frame → Nat
  | [] => 0
  | [_] => 0
  | _ :: f :: fs => f.size + zoneLoad fs

-- Growth has to be paid for; a request inside the frame is free.
def Payable (f : Frame) (r : Request) : Prop :=
  f.reach r.addr r.len = f.size ∨ f.cost r.addr r.len ≤ r.gas

-- A request may be refused only when the gas does not pay for the growth, or when
-- the live frames of the zone would together exceed the per-transaction maximum.
def Refusable (f : Frame) (fs : List Frame) (r : Request) : Prop :=
  r.gas < f.cost r.addr r.len ∨ kMaxMemPerTx < zoneLoad fs + f.reach r.addr r.len

inductive Stack.Step : Stack → MemOp → MemOut → Stack → Prop where
  | create (fs : List Frame) (p : Option Frame) :
      Step ⟨fs, p⟩ .Create (.Handle fs.length) ⟨.empty :: fs, none⟩
  | destroy (f : Frame) (fs : List Frame) (p : Option Frame) :
      Step ⟨f :: fs, p⟩ .Destroy .Popped ⟨fs, some f⟩
  | grant (f : Frame) (fs : List Frame) (p : Option Frame) (op : MemOp) (r : Request)
      (hop : f.request op = some r) (hpaid : Payable f r) :
      Step ⟨f :: fs, p⟩ op (.Access ⟨.Ok, r.gas - f.cost r.addr r.len⟩ r.data) ⟨r.frame :: fs, p⟩
  | refuse (f : Frame) (fs : List Frame) (p : Option Frame) (op : MemOp) (r : Request)
      (hop : f.request op = some r) (hfull : Refusable f fs r) :
      Step ⟨f :: fs, p⟩ op (.Access ⟨.OutOfGas, r.gas⟩ []) ⟨f :: fs, p⟩

inductive Stack.Run : Stack → List MemOp → List MemOut → Stack → Prop where
  | nil (s : Stack) : Run s [] [] s
  | cons {s s' s'' : Stack} {op : MemOp} {ops : List MemOp} {out : MemOut} {outs : List MemOut}
      (hstep : Step s op out s') (hrun : Run s' ops outs s'') :
      Run s (op :: ops) (out :: outs) s''

end Zeg.Memory
