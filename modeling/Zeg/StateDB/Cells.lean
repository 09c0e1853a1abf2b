import Zeg.StateDB.Calls

-- The host's state as a store of cells, and the journal as an undo log over it.
namespace Zeg.StateDB

open Base AccessList

-- Where the last transaction to touch a key is kept.
inductive Last where
  | Account (idx : Nat)
  | Slot (idx : Nat)
  | AccountKey (a : Address)
  | SlotKey (key : SlotKey)
deriving DecidableEq

inductive Cell where
  | Balance (idx : Nat)
  | Nonce (idx : Nat)
  | CodeHash (idx : Nat)
  | Value (idx : Nat)
  | Transient (key : SlotKey)
  | Pending (idx : Nat)
  | Last (l : Last)
deriving DecidableEq

abbrev Cell.Val : Cell → Type
  | .Balance _ => Word
  | .Nonce _ => UInt64
  | .CodeHash _ => Bytes32
  | .Value _ => Word
  | .Transient _ => Option Word
  | .Pending _ => Bool
  | .Last _ => Nat

abbrev Store := (c : Cell) → c.Val

def Host.last (h : Host) : Last → Nat
  | .Account idx => (h.accounts idx).lastTx
  | .Slot idx => (h.storages idx).lastTx
  | .AccountKey a => h.warmAccounts a
  | .SlotKey key => h.warmSlots key

def Host.cell (h : Host) : Store
  | .Balance idx => (h.accounts idx).balance
  | .Nonce idx => (h.accounts idx).nonce
  | .CodeHash idx => (h.accounts idx).codeHash
  | .Value idx => (h.storages idx).value
  | .Transient key => h.transient key
  | .Pending idx => h.pendingDestruct.contains idx
  | .Last l => h.last l

def Entry.saved : Entry → List ((c : Cell) × c.Val)
  | .CheckpointMarker => []
  | .Nonce idx v last => [⟨.Nonce idx, v⟩, ⟨.Last (.Account idx), last⟩]
  | .Balance idx v last => [⟨.Balance idx, v⟩, ⟨.Last (.Account idx), last⟩]
  | .CodeHash idx v last => [⟨.CodeHash idx, v⟩, ⟨.Last (.Account idx), last⟩]
  | .Storage idx v last => [⟨.Value idx, v⟩, ⟨.Last (.Slot idx), last⟩]
  | .AccountWarm idx last => [⟨.Last (.Account idx), last⟩]
  | .StorageWarm idx last => [⟨.Last (.Slot idx), last⟩]
  | .Transient key wasPresent v => [⟨.Transient key, if wasPresent then some v else none⟩]
  | .WarmKeyAccount a last => [⟨.Last (.AccountKey a), last⟩]
  | .WarmKeySlot key last => [⟨.Last (.SlotKey key), last⟩]
  | .PendingDestruct idx wasAlreadyPresent =>
    if wasAlreadyPresent then [] else [⟨.Pending idx, false⟩]

def Host.undoLog (h : Host) : List (List ((c : Cell) × c.Val)) := h.journal.map Entry.saved

def Field.saved (idx : Nat) : Field → (c : Cell) × c.Val
  | .Balance v => ⟨.Balance idx, v⟩
  | .Nonce v => ⟨.Nonce idx, v⟩
  | .CodeHash v => ⟨.CodeHash idx, v⟩

namespace Host

variable (h : Host)

theorem cell_setFieldAt (idx : Nat) (f : Field) (t : Nat) :
    (h.setFieldAt idx f t).cell = restore [f.saved idx, ⟨.Last (.Account idx), t⟩] h.cell := by
  symm
  apply restore_eq
  · cases f <;> simp [Field.saved, cell, last, setFieldAt, Field.write]
  · intro c hc
    cases f <;> rcases c with _ | _ | _ | _ | _ | _ | (_ | _ | _ | _) <;>
      simp_all [Field.saved, cell, last, setFieldAt, balBeforeWrite, Field.write]
    all_goals rw [Function.update_apply]; split <;> simp_all

theorem cell_setWarmAt (idx t : Nat) :
    (h.setWarmAt idx t).cell = restore [⟨.Last (.Account idx), t⟩] h.cell := by
  symm
  apply restore_eq
  · simp [cell, last, setWarmAt]
  · intro c hc
    rcases c with _ | _ | _ | _ | _ | _ | (_ | _ | _ | _) <;>
      simp_all [cell, last, setWarmAt]
    all_goals rw [Function.update_apply]; split <;> simp_all

theorem cell_setValueAt (idx : Nat) (v : Word) (t : Nat) :
    (h.setValueAt idx v t).cell =
      restore [⟨.Value idx, v⟩, ⟨.Last (.Slot idx), t⟩] h.cell := by
  symm
  apply restore_eq
  · simp [cell, last, setValueAt]
  · intro c hc
    rcases c with _ | _ | _ | _ | _ | _ | (_ | _ | _ | _) <;>
      simp_all [cell, last, setValueAt]

theorem cell_setSlotWarmAt (idx t : Nat) :
    (h.setSlotWarmAt idx t).cell = restore [⟨.Last (.Slot idx), t⟩] h.cell := by
  symm
  apply restore_eq
  · simp [cell, last, setSlotWarmAt]
  · intro c hc
    rcases c with _ | _ | _ | _ | _ | _ | (_ | _ | _ | _) <;>
      simp_all [cell, last, setSlotWarmAt]
    all_goals rw [Function.update_apply]; split <;> simp_all

theorem cell_setWarmAccount (a : Address) (t : Nat) :
    (h.setWarmAccount a t).cell = restore [⟨.Last (.AccountKey a), t⟩] h.cell := by
  symm
  apply restore_eq
  · simp [cell, last, setWarmAccount]
  · intro c hc
    rcases c with _ | _ | _ | _ | _ | _ | (_ | _ | _ | _) <;>
      simp_all [cell, last, setWarmAccount]

theorem cell_setWarmSlot (key : SlotKey) (t : Nat) :
    (h.setWarmSlot key t).cell = restore [⟨.Last (.SlotKey key), t⟩] h.cell := by
  symm
  apply restore_eq
  · simp [cell, last, setWarmSlot]
  · intro c hc
    rcases c with _ | _ | _ | _ | _ | _ | (_ | _ | _ | _) <;>
      simp_all [cell, last, setWarmSlot]

theorem cell_setTransient (key : SlotKey) (v : Option Word) :
    (h.setTransient key v).cell = restore [⟨.Transient key, v⟩] h.cell := by
  symm
  apply restore_eq
  · simp [cell, setTransient]
  · intro c hc
    rcases c with _ | _ | _ | _ | _ | _ | (_ | _ | _ | _) <;>
      simp_all [cell, last, setTransient]

theorem cell_erasePending (idx : Nat) :
    ({ h with pendingDestruct := h.pendingDestruct.filter (· ≠ idx) } : Host).cell =
      restore [⟨.Pending idx, false⟩] h.cell := by
  symm
  apply restore_eq
  · simp [cell]
  · intro c hc
    rcases c with _ | _ | _ | _ | _ | _ | (_ | _ | _ | _) <;>
      simp_all [cell, last]

theorem cell_insertPending (idx : Nat) :
    ({ h with pendingDestruct := h.pendingDestruct.insert idx } : Host).cell =
      restore [⟨.Pending idx, true⟩] h.cell := by
  symm
  apply restore_eq
  · simp [cell]
  · intro c hc
    rcases c with _ | _ | _ | _ | _ | _ | (_ | _ | _ | _) <;>
      simp_all [cell, last]

theorem cell_undo (e : Entry) : (h.undo e).cell = restore e.saved h.cell := by
  cases e with
  | CheckpointMarker => rfl
  | Nonce idx v last => exact h.cell_setFieldAt idx (.Nonce v) last
  | Balance idx v last => exact h.cell_setFieldAt idx (.Balance v) last
  | CodeHash idx v last => exact h.cell_setFieldAt idx (.CodeHash v) last
  | Storage idx v last => exact h.cell_setValueAt idx v last
  | AccountWarm idx last => exact h.cell_setWarmAt idx last
  | StorageWarm idx last => exact h.cell_setSlotWarmAt idx last
  | Transient key present v => exact h.cell_setTransient key _
  | WarmKeyAccount a last => exact h.cell_setWarmAccount a last
  | WarmKeySlot key last => exact h.cell_setWarmSlot key last
  | PendingDestruct idx present =>
    cases present
    · exact h.cell_erasePending idx
    · rfl

theorem cell_foldl_undo (es : List Entry) :
    (es.foldl undo h).cell = unwind (es.map Entry.saved) h.cell := by
  induction es generalizing h with
  | nil => rfl
  | cons e es ih =>
    rw [List.foldl_cons, ih, cell_undo]
    rfl

theorem undo_frame (e : Entry) : (h.undo e).journal = h.journal ∧
    (h.undo e).receipts = h.receipts ∧ (h.undo e).txCounter = h.txCounter ∧
    (h.undo e).createdThisTx = h.createdThisTx := by
  cases e with
  | PendingDestruct idx present => cases present <;> exact ⟨rfl, rfl, rfl, rfl⟩
  | _ => exact ⟨rfl, rfl, rfl, rfl⟩

theorem foldl_undo_frame (es : List Entry) : (es.foldl undo h).journal = h.journal ∧
    (es.foldl undo h).receipts = h.receipts ∧ (es.foldl undo h).txCounter = h.txCounter ∧
    (es.foldl undo h).createdThisTx = h.createdThisTx := by
  induction es generalizing h with
  | nil => exact ⟨rfl, rfl, rfl, rfl⟩
  | cons e es ih =>
    obtain ⟨hj, hr, ht, hc⟩ := h.undo_frame e
    obtain ⟨hj', hr', ht', hc'⟩ := ih (h.undo e)
    exact ⟨hj'.trans hj, hr'.trans hr, ht'.trans ht, hc'.trans hc⟩

def rolledBack (cp : Checkpoint) : Host :=
  let h' := { (since h.journal cp.journalCp).foldl undo h with
              journal := h.journal.drop (h.journal.length - cp.journalCp) }
  h'.setLogs (h'.currentLogs.take cp.logCount)

theorem rollback_eq (cp : Checkpoint) :
    h.rollback cp = if h.entryAt cp.journalCp = some .CheckpointMarker then .ok (h.rolledBack cp)
      else .error "Journal::rollback: invalid checkpoint" := by
  unfold rollback journalRollback
  split <;> rfl

@[simp] theorem setLogs_journal (logs : List LogEntry) : (h.setLogs logs).journal = h.journal := by
  unfold setLogs; split <;> rfl

@[simp] theorem setLogs_cell (logs : List LogEntry) : (h.setLogs logs).cell = h.cell := by
  unfold setLogs; split <;> rfl

@[simp] theorem setLogs_txCounter (logs : List LogEntry) :
    (h.setLogs logs).txCounter = h.txCounter := by
  unfold setLogs; split <;> rfl

theorem setLogs_currentLogs {logs : List LogEntry} (hn : h.receipts = [] → logs = []) :
    (h.setLogs logs).currentLogs = logs := by
  unfold setLogs currentLogs
  split <;> simp_all

theorem rolledBack_cell (cp : Checkpoint) :
    (h.rolledBack cp).cell = unwind (since h.undoLog cp.journalCp) h.cell := by
  rw [rolledBack, setLogs_cell, undoLog, since_map, ← cell_foldl_undo]
  rfl

theorem rolledBack_journal (cp : Checkpoint) :
    (h.rolledBack cp).journal = h.journal.drop (h.journal.length - cp.journalCp) := by
  rw [rolledBack, setLogs_journal]

theorem rolledBack_currentLogs (cp : Checkpoint) :
    (h.rolledBack cp).currentLogs = h.currentLogs.take cp.logCount := by
  have hlogs : (({ (since h.journal cp.journalCp).foldl undo h with
      journal := h.journal.drop (h.journal.length - cp.journalCp) } : Host)).currentLogs
      = h.currentLogs := congrArg (fun r => r.headD []) (h.foldl_undo_frame _).2.1
  rw [rolledBack, setLogs_currentLogs, hlogs]
  intro hn
  rw [currentLogs, hn]
  simp

theorem rolledBack_txCounter (cp : Checkpoint) : (h.rolledBack cp).txCounter = h.txCounter := by
  rw [rolledBack, setLogs_txCounter]
  exact (h.foldl_undo_frame _).2.2.1

end Host

end Zeg.StateDB
