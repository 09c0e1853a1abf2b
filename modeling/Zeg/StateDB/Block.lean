import Zeg.StateDB.Calls

-- The transactions and system calls of a block.
namespace Zeg.StateDB

open Base AccessList

namespace Host

variable (w : Witness) (h : Host)

def setIndex (index : Nat) : Host :=
  { h with bal := h.bal.map fun b => { b with index := index } }

-- ++tx_counter_ and reset_tx_arena: the journal and the transient map are per transaction.
def nextTx : Host :=
  { h with
    txCounter := h.txCounter + 1
    journal := []
    transient := fun _ => none
    createdThisTx := [] }

def beginTransaction (index : Nat) : Host :=
  { h.nextTx.setIndex index with pendingDestruct := [], receipts := [] :: h.receipts }

-- A system call keeps the pending destructs, which only a transaction applies.
def beginSystemCall : Host := { h.nextTx with inSystemCall := true }

-- The state the block starts from.
def start (balance : Nat → Word) (nonce : Nat → UInt64) (codeHash : Nat → Bytes32)
    (value : Nat → Word) : Host :=
  { accounts := fun i => ⟨balance i, nonce i, codeHash i, 0⟩
    storages := fun i => ⟨value i, 0, 0⟩
    warmAccounts := fun _ => 0
    warmSlots := fun _ => 0
    transient := fun _ => none
    pendingDestruct := []
    createdThisTx := []
    storageWiped := []
    journal := []
    receipts := []
    inSystemCall := false
    txCounter := 0
    bal := if w.isAmsterdamOrLater then some BlockAccessList.init else none
    balPending := .None }

end Host

-- `SetIndex` and `Credit` are the steps of the post-execution phase outside its system calls.
inductive BlockStep where
  | Transaction (index : Nat) (ops : List Op)
  | SystemCall (ops : List Op)
  | SetIndex (index : Nat)
  | Credit (a : Address) (v : Word)

def BlockStep.begin (h : Host) : BlockStep → Host
  | .Transaction index _ => h.beginTransaction index
  | .SystemCall _ => h.beginSystemCall
  | .SetIndex _ | .Credit _ _ => h

def BlockStep.ops : BlockStep → List Op
  | .Transaction _ ops | .SystemCall ops => ops
  | .SetIndex _ | .Credit _ _ => []

def BlockStep.finish (w : Witness) (h : Host) : BlockStep → Except String Host
  | .Transaction _ _ => .ok (h.applyPendingDestructs w)
  | .SystemCall _ => .ok { h with inSystemCall := false }
  | .SetIndex index => .ok (h.setIndex index)
  | .Credit a v => h.setField w a (.Balance v)

def Host.blockStep (w : Witness) (h : Host) (s : BlockStep) : Except String Host := do
  let (r, _) ← Run.steps w ⟨s.begin h, []⟩ s.ops
  s.finish w r.host

def Host.block (w : Witness) (h : Host) (steps : List BlockStep) : Except String Host :=
  steps.foldlM (Host.blockStep w) h

-- Two accounts and one slot, for the instances of the theorems.
def tinyAddress (n : UInt8) : Address := ⟨List.replicate 19 0 ++ [n], by simp⟩

def tinySlot : SlotKey := (tinyAddress 0xaa, 7)

def tinyWitness (revision : Revision) : Witness :=
  { revision := revision
    accounts := [tinyAddress 0xaa, tinyAddress 0xbb]
    slots := [tinySlot]
    storageEmpty := fun _ => true
    isPrecompile := fun _ => false }

def tinyStart : Host :=
  Host.start (tinyWitness .Shanghai) (fun _ => 100) (fun _ => 0) (fun _ => kEmptyCodeHash) fun _ => 0

end Zeg.StateDB
