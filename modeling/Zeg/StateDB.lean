import Zeg.AccessList
import Zeg.Base.UndoLog
import Zeg.Digest

-- The host's tables and its undo journal.
namespace Zeg.StateDB

open Base AccessList

abbrev SlotKey := Address × Word

inductive Revision where
  | Berlin
  | London
  | Paris
  | Shanghai
  | Cancun
  | Prague
  | Osaka
  | Amsterdam
deriving DecidableEq, Repr

def Revision.atLeast (r s : Revision) : Bool := s.ctorIdx ≤ r.ctorIdx

-- What the witness fixes for the whole block: the keys of the table rows, whether a row's
-- block-start storage trie is empty, and the precompiles of the revision.
structure Witness where
  revision : Revision
  accounts : List Address
  slots : List SlotKey
  storageEmpty : Nat → Bool
  isPrecompile : Address → Bool

namespace Witness

variable (w : Witness)

def isShanghaiOrLater : Bool := w.revision.atLeast .Shanghai
def isCancunOrLater : Bool := w.revision.atLeast .Cancun
def isAmsterdamOrLater : Bool := w.revision.atLeast .Amsterdam

-- emplace keeps the first row of a key
def findAccount (a : Address) : Option Nat := w.accounts.idxOf? a
def findSlot (key : SlotKey) : Option Nat := w.slots.idxOf? key

def accountRow (a : Address) : Except String Nat :=
  match w.findAccount a with
  | some idx => .ok idx
  | none => .error "state key not in witness: account"

def storageRow (key : SlotKey) : Except String Nat :=
  match w.findSlot key with
  | some idx => .ok idx
  | none => .error "state key not in witness: storage slot"

def slotsOf (row : Nat) : List Nat :=
  match w.accounts[row]? with
  | none => []
  | some a => (List.range w.slots.length).filter fun i => (w.slots[i]?.map Prod.fst) = some a

end Witness

-- `lastTx` is the last transaction that touched the row; 0 if none did.
structure Account where
  balance : Word
  nonce : UInt64
  codeHash : Bytes32
  lastTx : Nat

structure Slot where
  value : Word
  txOriginal : Word
  lastTx : Nat

structure LogEntry where
  address : Address
  topics : List Word
  data : Bytes
deriving DecidableEq

inductive Entry where
  | CheckpointMarker
  | Nonce (idx : Nat) (oldValue : UInt64) (oldLastTx : Nat)
  | Balance (idx : Nat) (oldValue : Word) (oldLastTx : Nat)
  | CodeHash (idx : Nat) (oldValue : Bytes32) (oldLastTx : Nat)
  | Storage (idx : Nat) (oldValue : Word) (oldLastTx : Nat)
  | AccountWarm (idx oldLastTx : Nat)
  | StorageWarm (idx oldLastTx : Nat)
  | Transient (key : SlotKey) (wasPresent : Bool) (oldValue : Word)
  | WarmKeyAccount (address : Address) (oldLastTx : Nat)
  | WarmKeySlot (key : SlotKey) (oldLastTx : Nat)
  | PendingDestruct (idx : Nat) (wasAlreadyPresent : Bool)
deriving DecidableEq

-- The account whose access has yet to be paid for.
inductive Pending where
  | None
  | MissingRow
  | Row (idx : Nat)
deriving DecidableEq

-- `journal` lists its entries newest first; `receipts` holds the logs of each receipt,
-- newest receipt first, each list oldest log first.
structure Host where
  accounts : Nat → Account
  storages : Nat → Slot
  warmAccounts : Address → Nat
  warmSlots : SlotKey → Nat
  transient : SlotKey → Option Word
  pendingDestruct : List Nat
  createdThisTx : List Nat
  storageWiped : List Nat
  journal : List Entry
  receipts : List (List LogEntry)
  inSystemCall : Bool
  txCounter : Nat
  bal : Option BlockAccessList
  balPending : Pending

inductive Field where
  | Balance (v : Word)
  | Nonce (v : UInt64)
  | CodeHash (v : Bytes32)
deriving DecidableEq

def Field.write (a : Account) : Field → Account
  | .Balance v => { a with balance := v }
  | .Nonce v => { a with nonce := v }
  | .CodeHash v => { a with codeHash := v }

structure Checkpoint where
  journalCp : Nat
  logCount : Nat
deriving DecidableEq

namespace Host

variable (h : Host)

def balBeforeWrite (idx : Nat) : Host :=
  let a := h.accounts idx
  { h with bal := h.bal.map fun b => b.beforeWrite idx a.balance a.nonce a.codeHash }

def setFieldAt (idx : Nat) (f : Field) (txIdx : Nat) : Host :=
  let a := { f.write (h.accounts idx) with lastTx := txIdx }
  { h.balBeforeWrite idx with accounts := Function.update h.accounts idx a }

def setBalanceAt (idx : Nat) (v : Word) (txIdx : Nat) : Host := h.setFieldAt idx (.Balance v) txIdx
def setNonceAt (idx : Nat) (v : UInt64) (txIdx : Nat) : Host := h.setFieldAt idx (.Nonce v) txIdx
def setCodeHashAt (idx : Nat) (v : Bytes32) (txIdx : Nat) : Host :=
  h.setFieldAt idx (.CodeHash v) txIdx

-- Unconditional, so it can also step `lastTx` back.
def setWarmAt (idx txIdx : Nat) : Host :=
  { h with accounts := Function.update h.accounts idx { h.accounts idx with lastTx := txIdx } }

def markTouchedAt (idx txIdx : Nat) : Host :=
  if (h.accounts idx).lastTx < txIdx then h.setWarmAt idx txIdx else h

def balAccessAt (idx : Nat) : Host := { h with bal := h.bal.map fun b => b.accessAccount idx }

def setValueAt (idx : Nat) (v : Word) (txIdx : Nat) : Host :=
  { h with
    storages := Function.update h.storages idx
      { h.storages idx with value := v, lastTx := txIdx } }

def setSlotWarmAt (idx txIdx : Nat) : Host :=
  { h with storages := Function.update h.storages idx { h.storages idx with lastTx := txIdx } }

-- The first touch of a transaction also takes the slot's original.
def markSlotTouchedAt (idx txIdx : Nat) : Host :=
  let s := h.storages idx
  if s.lastTx < txIdx then
    { h with
      storages := Function.update h.storages idx
        { s with lastTx := txIdx, txOriginal := s.value } }
  else h

-- Setting 0 erases the key.
def setWarmAccount (a : Address) (txIdx : Nat) : Host :=
  { h with warmAccounts := Function.update h.warmAccounts a txIdx }

def setWarmSlot (key : SlotKey) (txIdx : Nat) : Host :=
  { h with warmSlots := Function.update h.warmSlots key txIdx }

def setTransient (key : SlotKey) (v : Option Word) : Host :=
  { h with transient := Function.update h.transient key v }

def log (e : Entry) : Host := { h with journal := e :: h.journal }

-- log_nonce, log_balance and log_code_hash with the row's current contents
def logNonce (idx : Nat) : Host :=
  h.log (.Nonce idx (h.accounts idx).nonce (h.accounts idx).lastTx)

def logBalance (idx : Nat) : Host :=
  h.log (.Balance idx (h.accounts idx).balance (h.accounts idx).lastTx)

def logCodeHash (idx : Nat) : Host :=
  h.log (.CodeHash idx (h.accounts idx).codeHash (h.accounts idx).lastTx)

def logStorage (idx : Nat) : Host :=
  h.log (.Storage idx (h.storages idx).value (h.storages idx).lastTx)

-- The visitor of Journal::rollback.
def undo : Entry → Host
  | .CheckpointMarker => h
  | .Nonce idx v last => h.setNonceAt idx v last
  | .Balance idx v last => h.setBalanceAt idx v last
  | .CodeHash idx v last => h.setCodeHashAt idx v last
  | .Storage idx v last => h.setValueAt idx v last
  | .AccountWarm idx last => h.setWarmAt idx last
  | .StorageWarm idx last => h.setSlotWarmAt idx last
  | .Transient key wasPresent v => h.setTransient key (if wasPresent then some v else none)
  | .WarmKeyAccount a last => h.setWarmAccount a last
  | .WarmKeySlot key last => h.setWarmSlot key last
  | .PendingDestruct idx wasAlreadyPresent =>
    if wasAlreadyPresent then h
    else { h with pendingDestruct := h.pendingDestruct.filter (· ≠ idx) }

-- entries_[cp], counted from the oldest entry
def entryAt (cp : Nat) : Option Entry := h.journal.reverse[cp]?

def journalRollback (cp : Nat) : Except String Host :=
  if h.entryAt cp = some .CheckpointMarker then
    .ok { (since h.journal cp).foldl undo h with
          journal := h.journal.drop (h.journal.length - cp) }
  else .error "Journal::rollback: invalid checkpoint"

def currentLogs : List LogEntry := h.receipts.headD []

-- Does nothing without a receipt.
def setLogs (logs : List LogEntry) : Host :=
  match h.receipts with
  | [] => h
  | _ :: older => { h with receipts := logs :: older }

def checkpoint : Host × Checkpoint :=
  (h.log .CheckpointMarker, ⟨h.journal.length, h.currentLogs.length⟩)

def rollback (cp : Checkpoint) : Except String Host := do
  let h ← h.journalRollback cp.journalCp
  return h.setLogs (h.currentLogs.take cp.logCount)

end Host

end Zeg.StateDB
