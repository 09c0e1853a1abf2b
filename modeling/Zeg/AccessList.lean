import Zeg.Base.Bytes
import Mathlib.Logic.Function.Basic

-- The change records of the block access list.
namespace Zeg.AccessList

open Base

-- Marks the absence of an open period.
def kNone : Nat := 2 ^ 32 - 1

-- One recorded value: the period being written to, the value at its start, and the
-- changes of the periods closed so far, oldest first.
structure Track (α : Type) where
  period : Nat
  pre : α
  changes : List (Nat × α)
deriving DecidableEq, Repr

variable {α : Type} [DecidableEq α]

def Track.init (pre : α) : Track α := { period := kNone, pre := pre, changes := [] }

def Track.close (t : Track α) (current : α) : Track α :=
  { t with
    changes := if t.period ≠ kNone ∧ current ≠ t.pre then t.changes ++ [(t.period, current)]
      else t.changes
    period := kNone }

-- `current` is the value before the write.
def Track.openAt (t : Track α) (index : Nat) (current : α) : Track α :=
  if t.period = index then t
  else { t.close current with pre := current, period := index }

structure AccountRecord where
  accessed : Bool
  period : Nat
  preBalance : Word
  preNonce : UInt64
  preCodeHash : Bytes32
  balance : List (Nat × Word)
  nonce : List (Nat × UInt64)
  code : List (Nat × Bytes32)

def AccountRecord.init : AccountRecord :=
  { accessed := false, period := kNone, preBalance := 0, preNonce := 0
    preCodeHash := List.Vector.replicate 32 0, balance := [], nonce := [], code := [] }

def AccountRecord.close (r : AccountRecord) (balance : Word) (nonce : UInt64)
    (codeHash : Bytes32) : AccountRecord :=
  if r.period = kNone then r
  else
    { r with
      balance := if balance ≠ r.preBalance then r.balance ++ [(r.period, balance)] else r.balance
      nonce := if nonce ≠ r.preNonce then r.nonce ++ [(r.period, nonce)] else r.nonce
      code := if codeHash ≠ r.preCodeHash then r.code ++ [(r.period, codeHash)] else r.code
      period := kNone }

def AccountRecord.openAt (r : AccountRecord) (index : Nat) (balance : Word) (nonce : UInt64)
    (codeHash : Bytes32) : AccountRecord :=
  { r.close balance nonce codeHash with
    preBalance := balance, preNonce := nonce, preCodeHash := codeHash, period := index }

structure SlotRecord where
  accessed : Bool
  track : Track Word

-- A slot has no record until its row is loaded.
structure BlockAccessList where
  index : Nat
  accounts : Nat → AccountRecord
  slots : Nat → Option SlotRecord

def BlockAccessList.init : BlockAccessList :=
  { index := 0, accounts := fun _ => AccountRecord.init, slots := fun _ => none }

def BlockAccessList.accessAccount (b : BlockAccessList) (row : Nat) : BlockAccessList :=
  { b with accounts := Function.update b.accounts row { b.accounts row with accessed := true } }

-- Accounts::bal_before_write
def BlockAccessList.beforeWrite (b : BlockAccessList) (row : Nat) (balance : Word)
    (nonce : UInt64) (codeHash : Bytes32) : BlockAccessList :=
  let r := { b.accounts row with accessed := true }
  { b with
    accounts := Function.update b.accounts row <|
      if r.period = b.index then r else r.openAt b.index balance nonce codeHash }

-- witness_slot, then access_slot
def BlockAccessList.loadSlot (b : BlockAccessList) (row : Nat) : BlockAccessList :=
  { b with
    slots := Function.update b.slots row <|
      some { (b.slots row).getD ⟨false, Track.init 0⟩ with accessed := true } }

-- A row without a record is left alone.
def BlockAccessList.openSlot (b : BlockAccessList) (row : Nat) (current : Word) :
    BlockAccessList :=
  { b with
    slots := Function.update b.slots row <|
      (b.slots row).map fun s => { s with track := s.track.openAt b.index current } }

end Zeg.AccessList
