import Zeg.Base.Region

namespace Zeg.Memory

open Base

def kMaxMemPerTx : Nat := 2 ^ 25
def kMemBlockSize : Nat := 2 ^ 26
def kMaxMemHandles : Nat := 1025
def kWord : Nat := 32

def roundUpWord (n : Nat) : Nat := (n + (kWord - 1)) / kWord * kWord

def memCost (words : Nat) : Int := 3 * words + (words * words / 512 : Nat)

inductive MemError where
  | Ok
  | OutOfGas
deriving DecidableEq, Repr

structure MemGas where
  err : MemError
  gas : Int
deriving DecidableEq, Repr

-- `start` is the offset of the frame inside its zone.
structure MemHandle where
  start : Nat
  size : Nat
deriving DecidableEq, Repr, Inhabited

-- `depth` is s_cur + 1, the number of live frames. Handles above it are those of
-- popped frames: destroyMemory leaves them in place.
structure EVMMem where
  zone : Nat → Nat → UInt8
  handles : Nat → MemHandle
  depth : Nat
  firstClean : Nat → Nat

-- The static storage at program start.
def EVMMem.init : EVMMem :=
  { zone := fun _ _ => 0, handles := fun _ => ⟨0, 0⟩, depth := 0, firstClean := fun _ => 0 }

def EVMMem.cur (m : EVMMem) : Nat := m.depth - 1

def createMemory (m : EVMMem) : Nat × EVMMem :=
  let cur := m.depth
  let z := cur % 2
  let start :=
    if m.firstClean z < kMemBlockSize - kMaxMemPerTx then m.firstClean z
    else if 2 ≤ cur then (m.handles (cur - 2)).start + (m.handles (cur - 2)).size
    else 0
  (cur, { m with depth := cur + 1, handles := Function.update m.handles cur ⟨start, 0⟩ })

def destroyMemory (m : EVMMem) : EVMMem := { m with depth := m.depth - 1 }

def EVMMem.grow (m : EVMMem) (newSize : Nat) : EVMMem :=
  let h := m.handles m.cur
  let z := m.cur % 2
  let expStart := h.start + h.size
  let expEnd := h.start + newSize
  let dirtyEnd := min expEnd (m.firstClean z)
  { m with
    zone := if dirtyEnd > expStart then
        Function.update m.zone z (fill (m.zone z) expStart dirtyEnd 0) else m.zone
    firstClean := if expEnd > m.firstClean z then
        Function.update m.firstClean z expEnd else m.firstClean
    handles := Function.update m.handles m.cur ⟨h.start, newSize⟩ }

def ensure (m : EVMMem) (need : Nat) (gas : Int) : MemGas × EVMMem :=
  let h := m.handles m.cur
  if need ≤ h.size then (⟨.Ok, gas⟩, m)
  else
    let newSize := roundUpWord need
    if newSize > kMaxMemPerTx then (⟨.OutOfGas, gas⟩, m)
    else if h.start + newSize > kMemBlockSize then (⟨.OutOfGas, gas⟩, m)
    else
      let delta := memCost (newSize / kWord) - memCost (h.size / kWord)
      if delta > gas then (⟨.OutOfGas, gas⟩, m)
      else (⟨.Ok, gas - delta⟩, m.grow newSize)

-- expand() is also the common head of readBytes and writeBytes.
def expand (m : EVMMem) (addr len : Nat) (gas : Int) : MemGas × EVMMem :=
  if len = 0 then (⟨.Ok, gas⟩, m)
  else if addr > kMaxMemPerTx ∨ len > kMaxMemPerTx then (⟨.OutOfGas, gas⟩, m)
  else ensure m (addr + len) gas

-- memcpy into the current frame
def EVMMem.store (m : EVMMem) (addr : Nat) (src : List UInt8) : EVMMem :=
  let z := m.cur % 2
  { m with
    zone := Function.update m.zone z (copyIn (m.zone z) ((m.handles m.cur).start + addr) src) }

-- memcpy out of the current frame
def EVMMem.load (m : EVMMem) (addr len : Nat) : List UInt8 :=
  copyOut (m.zone (m.cur % 2)) ((m.handles m.cur).start + addr) len

def readBytes (m : EVMMem) (addr len : Nat) (gas : Int) : MemGas × List UInt8 × EVMMem :=
  let (r, m') := expand m addr len gas
  (r, if r.err = .Ok then m'.load addr len else [], m')

def writeBytes (m : EVMMem) (addr : Nat) (src : List UInt8) (gas : Int) : MemGas × EVMMem :=
  let (r, m') := expand m addr src.length gas
  (r, if r.err = .Ok then m'.store addr src else m')

def writeByte (m : EVMMem) (addr : Nat) (value : UInt8) (gas : Int) : MemGas × EVMMem :=
  if addr > kMaxMemPerTx then (⟨.OutOfGas, gas⟩, m)
  else
    let (r, m') := ensure m (addr + 1) gas
    (r, if r.err = .Ok then m'.store addr [value] else m')

-- One call into the manager. The frame operations act on the current frame.
inductive MemOp where
  | Create
  | Destroy
  | Expand (addr len : Nat) (gas : Int)
  | ReadBytes (addr len : Nat) (gas : Int)
  | WriteBytes (addr : Nat) (src : List UInt8) (gas : Int)
  | WriteByte (addr : Nat) (value : UInt8) (gas : Int)
deriving Repr

inductive MemOut where
  | Handle (index : Nat)
  | Popped
  | Access (result : MemGas) (data : List UInt8)
deriving DecidableEq, Repr

def EVMMem.step (m : EVMMem) : MemOp → MemOut × EVMMem
  | .Create => let (i, m') := createMemory m; (.Handle i, m')
  | .Destroy => (.Popped, destroyMemory m)
  | .Expand addr len gas => let (r, m') := expand m addr len gas; (.Access r [], m')
  | .ReadBytes addr len gas => let (r, data, m') := readBytes m addr len gas; (.Access r data, m')
  | .WriteBytes addr src gas => let (r, m') := writeBytes m addr src gas; (.Access r [], m')
  | .WriteByte addr value gas => let (r, m') := writeByte m addr value gas; (.Access r [], m')

def EVMMem.run (m : EVMMem) : List MemOp → List MemOut × EVMMem
  | [] => ([], m)
  | op :: ops =>
    let (out, m') := m.step op
    let (outs, m'') := m'.run ops
    (out :: outs, m'')

-- LIFO discipline with `depth` frames live: a frame is popped or accessed only
-- when one is live, and the callers' call-depth limit keeps the handles in their
-- array.
def nested : Nat → List MemOp → Bool
  | _, [] => true
  | depth, .Create :: ops => depth < kMaxMemHandles && nested (depth + 1) ops
  | depth, .Destroy :: ops => 0 < depth && nested (depth - 1) ops
  | depth, _ :: ops => 0 < depth && nested depth ops

end Zeg.Memory
