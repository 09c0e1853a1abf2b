import Zeg.AccessList
import Zeg.Base.Links
import Zeg.StateRoot.Rows

-- The final pass over the block access list: the rows in the order of their sorted links, the
-- encoding of the accessed ones and its hash.
namespace Zeg.AccessList

open Base Base.Rlp Base.Links StateRoot

-- The list with the two counters it keeps of its accessed flags.
structure Counted extends BlockAccessList where
  accessedAccounts : Nat
  accessedSlots : Nat

def BlockAccessList.slotAccessed (b : BlockAccessList) (row : Nat) : Bool :=
  (b.slots row).any SlotRecord.accessed

namespace Counted

variable (c : Counted)

def init : Counted := ⟨BlockAccessList.init, 0, 0⟩

def accessAccount (row : Nat) : Counted where
  toBlockAccessList := c.toBlockAccessList.accessAccount row
  accessedAccounts := if (c.accounts row).accessed then c.accessedAccounts else c.accessedAccounts + 1
  accessedSlots := c.accessedSlots

def beforeWrite (row : Nat) (balance : Word) (nonce : UInt64) (codeHash : Bytes32) : Counted :=
  { c.accessAccount row with
    toBlockAccessList := c.toBlockAccessList.beforeWrite row balance nonce codeHash }

def loadSlot (row : Nat) : Counted where
  toBlockAccessList := c.toBlockAccessList.loadSlot row
  accessedAccounts := c.accessedAccounts
  accessedSlots := if c.slotAccessed row then c.accessedSlots else c.accessedSlots + 1

def openSlot (row : Nat) (current : Word) : Counted :=
  { c with toBlockAccessList := c.toBlockAccessList.openSlot row current }

def setIndex (index : Nat) : Counted := { c with index }

end Counted

inductive Mark where
  | AccessAccount (row : Nat)
  | BeforeWrite (row : Nat) (balance : Word) (nonce : UInt64) (codeHash : Bytes32)
  | LoadSlot (row : Nat)
  | OpenSlot (row : Nat) (current : Word)
  | SetIndex (index : Nat)

def Counted.mark (c : Counted) : Mark → Counted
  | .AccessAccount row => c.accessAccount row
  | .BeforeWrite row balance nonce codeHash => c.beforeWrite row balance nonce codeHash
  | .LoadSlot row => c.loadSlot row
  | .OpenSlot row current => c.openSlot row current
  | .SetIndex index => c.setIndex index

-- The rows with their links; a slot is only ever read below its account's leaf.
structure Tables where
  accounts : List AccountRow
  storages : List StorageRow
  firstSorted : UInt64
  owned : ∀ slot ∈ storages, ∃ account ∈ accounts, account.address = slot.address

def Mark.InRange (t : Tables) : Mark → Prop
  | .AccessAccount row => row < t.accounts.length
  | .BeforeWrite row _ _ _ => row < t.accounts.length
  | .LoadSlot row => row < t.storages.length
  | .OpenSlot row _ => row < t.storages.length
  | .SetIndex _ => True

def kNoLink : Nat := 2 ^ 64 - 1

def kBalItemCost : Nat := 2000

structure Entry where
  address : Address
  row : Nat
  slots : List (Bytes32 × Nat)

def BlockAccessList.closeSlot (b : BlockAccessList) (row : Nat) (current : Word) : BlockAccessList :=
  { b with
    slots := Function.update b.slots row <|
      (b.slots row).map fun s => { s with track := s.track.close current } }

def BlockAccessList.closeAccount (b : BlockAccessList) (row : Nat) (now : Fields) : BlockAccessList :=
  { b with
    accounts := Function.update b.accounts row <|
      (b.accounts row).close now.balance now.nonce now.codeHash }

structure SlotWalk where
  bal : BlockAccessList
  prevKey : Option Bytes
  slots : List (Bytes32 × Nat)

structure AccountWalk where
  bal : BlockAccessList
  prevAddr : Option Bytes
  unseenStorages : Nat
  slots : List (Bytes32 × Nat)
  entries : List Entry

-- memcmp(prev, key) < 0, or there is no previous key
def follows (prev : Option Bytes) (key : Bytes) : Bool := prev.all fun p => p < key

section

variable (t : Tables) (now : Assignment)

def visitSlot (owner : Address) (st : SlotWalk) (slot : StorageRow × Nat) : Except String SlotWalk :=
  if slot.1.address ≠ owner then .error "BAL: storage link leaves its account"
  else if !follows st.prevKey slot.1.position.toList then
    .error "BAL: storage links not strictly increasing"
  else
    let st := { st with prevKey := some slot.1.position.toList }
    if !st.bal.slotAccessed slot.2 then .ok st
    else
      .ok { st with
        bal := st.bal.closeSlot slot.2 (now.storages slot.2)
        slots := st.slots ++ [(slot.1.position, slot.2)] }

def walkSlots (account : AccountRow) (bal : BlockAccessList) (unseen : Nat) : Except String (Nat × SlotWalk) :=
  walk t.storages (fun slot => slot.nextSorted.toNat) kNoLink "BAL: bad storage link"
    (visitSlot now account.address) unseen account.firstSortedStorage.toNat ⟨bal, none, []⟩

def visitAccount (st : AccountWalk) (account : AccountRow × Nat) : Except String AccountWalk :=
  if !follows st.prevAddr account.1.address.toList then
    .error "BAL: account links not strictly increasing"
  else do
    let (unseen, walked) ← walkSlots t now account.1 st.bal st.unseenStorages
    let st := { st with
      bal := walked.bal, prevAddr := some account.1.address.toList
      unseenStorages := unseen, slots := st.slots ++ walked.slots }
    if !(st.bal.accounts account.2).accessed then
      if walked.slots ≠ [] then .error "BAL: slot accessed without its account" else .ok st
    else
      .ok { st with
        bal := st.bal.closeAccount account.2 (now.accounts account.2)
        entries := st.entries ++ [⟨account.1.address, account.2, walked.slots⟩] }

def collectEntries (gasLimit : Nat) (bal : Counted) : Except String (BlockAccessList × List Entry) :=
  if gasLimit / kBalItemCost < bal.accessedAccounts + bal.accessedSlots then
    .error "block access list exceeds the gas limit (BLOCK_ACCESS_LIST_GAS_LIMIT_EXCEEDED)"
  else do
    let (unseenAccounts, st) ← walk t.accounts (fun account => account.nextSorted.toNat) kNoLink
      "BAL: bad account link" (visitAccount t now) t.accounts.length t.firstSorted.toNat
      ⟨bal.toBlockAccessList, none, t.storages.length, [], []⟩
    if unseenAccounts ≠ 0 ∨ st.unseenStorages ≠ 0 then .error "BAL: sorted links don't cover every row"
    else if st.entries.length ≠ bal.accessedAccounts ∨ st.slots.length ≠ bal.accessedSlots then
      .error "BAL: accessed count mismatch"
    else .ok (st.bal, st.entries)

end

section

variable (codeOf : Bytes32 → Except String Bytes)

def changesItem {α : Type} (value : α → Except String Bytes) (changes : List (Nat × α)) : Except String Item := do
  let items ← changes.mapM fun change => do
    return Item.Lst [.Str (beBytes change.1), .Str (← value change.2)]
  return .Lst items

def wordItem (w : Word) : Item := .Str (beBytes w.toNat)

def slotsItems (bal : BlockAccessList) (slots : List (Bytes32 × Nat)) : Except String (Item × Item) := do
  let records := slots.filterMap fun slot => (bal.slots slot.2).map fun record => (slot.1, record.track.changes)
  let key (position : Bytes32) : Item := wordItem (Word.ofBytes position.toList)
  let changed ← (records.filter fun record => record.2 ≠ []).mapM fun record => do
    let changes ← changesItem (fun w => .ok (beBytes w.toNat)) record.2
    return Item.Lst [key record.1, changes]
  let reads := (records.filter fun record => record.2 = []).map fun record => key record.1
  return (.Lst changed, .Lst reads)

def entryItem (bal : BlockAccessList) (entry : Entry) : Except String Item := do
  let record := bal.accounts entry.row
  let (changed, reads) ← slotsItems bal entry.slots
  let balance ← changesItem (fun w => .ok (beBytes w.toNat)) record.balance
  let nonce ← changesItem (fun n : UInt64 => .ok (beBytes n.toNat)) record.nonce
  let code ← changesItem (fun h => if h = kEmptyCodeHash then .ok [] else codeOf h) record.code
  return .Lst [.Str entry.address.toList, changed, reads, balance, nonce, code]

def encodeEntries (bal : BlockAccessList) (entries : List Entry) : Except String Bytes := do
  return encode (.Lst (← entries.mapM (entryItem codeOf bal)))

def buildBlockAccessListHash (keccak : Bytes → Bytes32) (t : Tables) (now : Assignment) (gasLimit : Nat)
    (bal : Counted) : Except String Bytes32 := do
  let (closed, entries) ← collectEntries t now gasLimit bal
  return keccak (← encodeEntries codeOf closed entries)

end

end Zeg.AccessList
