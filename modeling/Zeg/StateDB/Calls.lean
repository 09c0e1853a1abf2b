import Zeg.StateDB

-- The host's callbacks and the steps it takes itself around a frame.
namespace Zeg.StateDB

open Base AccessList

def kSystemAddress : Address := ⟨List.replicate 19 0xff ++ [0xfe], rfl⟩

-- keccak256 of "Transfer(address,address,uint256)"
def kTransferEventTopic : Word :=
  0xddf252ad1be2c89b69c2b068fc378daa952ba7f163c4a11628f55a4df523b3ef

inductive AccessStatus where
  | Cold
  | Warm
deriving DecidableEq, Repr

inductive StorageStatus where
  | Assigned
  | Added
  | Deleted
  | Modified
  | DeletedAdded
  | ModifiedDeleted
  | DeletedRestored
  | AddedDeleted
  | ModifiedRestored
deriving DecidableEq, Repr

def computeStorageStatus (original current new : Word) : StorageStatus :=
  if new = current then .Assigned
  else if original = current then
    if original = 0 then .Added else if new = 0 then .Deleted else .Modified
  else if original ≠ 0 ∧ current = 0 then
    if new = original then .DeletedRestored else .DeletedAdded
  else if original ≠ 0 ∧ new = 0 then .ModifiedDeleted
  else if original = 0 ∧ new = 0 then .AddedDeleted
  else if original = new then .ModifiedRestored
  else .Assigned

namespace Host

variable (w : Witness) (h : Host)

-- Most callbacks start with this: the access before them was paid for.
def balCommitPending : Except String Host :=
  match h.balPending with
  | .None => .ok h
  | .MissingRow => .error "state key not in witness: BAL account"
  | .Row idx => .ok { h.balAccessAt idx with balPending := .None }

def setBalPending (p : Pending) : Host :=
  if h.bal.isSome then { h with balPending := p } else h

def balLoad (a : Address) : Except String Host := do
  let idx ← w.accountRow a
  return h.balAccessAt idx

def nonEmpty (idx : Nat) : Bool :=
  let r := h.accounts idx
  r.nonce ≠ 0 ∨ r.codeHash ≠ kEmptyCodeHash ∨ r.balance ≠ 0

def accountExists (a : Address) : Except String (Host × Bool) := do
  let h ← h.balCommitPending
  let idx ← w.accountRow a
  return (h.balAccessAt idx, h.nonEmpty idx)

-- The read accessors of the account table touch the row without logging it.
def loadAccount (a : Address) : Except String (Host × Account) := do
  let idx ← w.accountRow a
  return ((h.markTouchedAt idx h.txCounter).balAccessAt idx, h.accounts idx)

def getBalance (a : Address) : Except String (Host × Word) := do
  let h ← h.balCommitPending
  let (h, r) ← h.loadAccount w a
  return (h, r.balance)

def getNonce (a : Address) : Except String (Host × UInt64) := do
  let (h, r) ← h.loadAccount w a
  return (h, r.nonce)

def getCodeHash (a : Address) : Except String (Host × Bytes32) := do
  let h ← h.balCommitPending
  let (h, found) ← h.accountExists w a
  if found then
    let (h, r) ← h.loadAccount w a
    return (h, r.codeHash)
  else return (h, List.Vector.replicate 32 0)

-- get_code_size and copy_code, up to the code table's entry of the hash
def copyCode (a : Address) : Except String (Host × Bytes32) := do
  let h ← h.balCommitPending
  let (h, r) ← h.loadAccount w a
  return (h, r.codeHash)

-- code_and_entry, up to the code table's entry of the hash
def codeAndEntry (a : Address) : Except String (Host × Bytes32) := do
  let (h, r) ← h.loadAccount w a
  return (h, r.codeHash)

def balSlot (idx : Nat) : Host := { h with bal := h.bal.map fun b => b.loadSlot idx }

def balOpenSlot (idx : Nat) (current : Word) : Host :=
  { h with bal := h.bal.map fun b => b.openSlot idx current }

def getStorage (key : SlotKey) : Except String (Host × Word) := do
  let h ← h.balCommitPending
  let idx ← w.storageRow key
  let h := (h.balSlot idx).markSlotTouchedAt idx h.txCounter
  return (h, (h.storages idx).value)

-- The caller has touched the slot before, so its original is in place.
def setStorage (key : SlotKey) (v : Word) : Except String (Host × StorageStatus) := do
  let h ← h.balCommitPending
  let idx ← w.storageRow key
  let original := (h.storages idx).txOriginal
  let current := (h.storages idx).value
  let h := (h.balSlot idx).balOpenSlot idx current
  return ((h.logStorage idx).setValueAt idx v h.txCounter, computeStorageStatus original current v)

def getTransientStorage (key : SlotKey) : Except String (Host × Word) := do
  let h ← h.balCommitPending
  return (h, (h.transient key).getD 0)

def setTransientStorage (key : SlotKey) (v : Word) : Except String Host := do
  let h ← h.balCommitPending
  let prev := h.transient key
  return (h.setTransient key (some v)).log (.Transient key prev.isSome (prev.getD 0))

def emitLog (entry : LogEntry) : Except String Host := do
  let h ← h.balCommitPending
  return if h.inSystemCall then h else h.setLogs (h.currentLogs ++ [entry])

def emitTransferLog (src dst : Address) (v : Word) : Except String Host :=
  if !w.isAmsterdamOrLater ∨ src = dst ∨ v = 0 then .ok h
  else h.emitLog ⟨kSystemAddress,
    [kTransferEventTopic, Word.ofBytes src.toList, Word.ofBytes dst.toList], v.toBytes⟩

def transferValue (src dst : Address) (v : Word) : Except String Host := do
  let srcIdx ← w.accountRow src
  let dstIdx ← w.accountRow dst
  if srcIdx = dstIdx then return h
  else
    let logged := (h.logBalance srcIdx).logBalance dstIdx
    let debited := logged.setBalanceAt srcIdx ((h.accounts srcIdx).balance - v) h.txCounter
    let credited := debited.setBalanceAt dstIdx ((h.accounts dstIdx).balance + v) h.txCounter
    credited.emitTransferLog w src dst v

-- The insert into pending_destruct_; true if the row was not there.
def insertPending (idx : Nat) : Host × Bool :=
  let present := idx ∈ h.pendingDestruct
  (({ h with pendingDestruct := h.pendingDestruct.insert idx }).log (.PendingDestruct idx present),
    ¬ present)

def shouldDestroy (idx : Nat) : Bool :=
  if w.isCancunOrLater then idx ∈ h.createdThisTx else true

def selfdestruct (a beneficiary : Address) : Except String (Host × Bool) := do
  let h ← h.balCommitPending
  let srcIdx ← w.accountRow a
  let destroy := h.shouldDestroy w srcIdx
  if a = beneficiary then
    if destroy then
      let h := if w.isAmsterdamOrLater then h
        else (h.logBalance srcIdx).setBalanceAt srcIdx 0 h.txCounter
      return h.insertPending srcIdx
    else return (h, false)
  else
    let dstIdx ← w.accountRow beneficiary
    let src := (h.accounts srcIdx).balance
    let dst := (h.accounts dstIdx).balance
    let logged := (h.logBalance srcIdx).logBalance dstIdx
    let credited := logged.setBalanceAt dstIdx (dst + src) h.txCounter
    let h ← (credited.setBalanceAt srcIdx 0 h.txCounter).emitTransferLog w a beneficiary src
    if destroy then return h.insertPending srcIdx
    else return (h, false)

-- Body of the slot loop of clear_account_for_selfdestruct.
def clearSlot (idx : Nat) : Host :=
  let current := (h.storages idx).value
  if current = 0 then h
  else ((h.balOpenSlot idx current).logStorage idx).setValueAt idx 0 h.txCounter

def clearAccountForSelfdestruct (idx : Nat) : Host :=
  let h1 := if w.isAmsterdamOrLater then h
    else (h.logBalance idx).setBalanceAt idx 0 h.txCounter
  let h2 := (h1.logNonce idx).setNonceAt idx 0 h.txCounter
  let h3 := (h2.logCodeHash idx).setCodeHashAt idx kEmptyCodeHash h.txCounter
  let h4 := (w.slotsOf idx).foldl clearSlot h3
  { h4 with storageWiped := h4.storageWiped.insert idx }

def applyPendingDestructs : Host :=
  { h.pendingDestruct.foldl (clearAccountForSelfdestruct w) h with pendingDestruct := [] }

-- Warming is not a load: a key without a row only gets its warmth tracked.
def accessAccount (a : Address) : Except String (Host × AccessStatus) := do
  let h ← h.balCommitPending
  if w.isPrecompile a then
    let p := match w.findAccount a with | some idx => .Row idx | none => .MissingRow
    return (h.setBalPending p, .Warm)
  else
    match w.findAccount a with
    | none =>
      let last := h.warmAccounts a
      if last = h.txCounter then return (h.setBalPending .MissingRow, .Warm)
      else
        let h := (h.log (.WarmKeyAccount a last)).setWarmAccount a h.txCounter
        return (h.setBalPending .MissingRow, .Cold)
    | some idx =>
      let last := (h.accounts idx).lastTx
      let wasWarm := last = h.txCounter
      let logged := if wasWarm then h else h.log (.AccountWarm idx last)
      let touched := logged.markTouchedAt idx h.txCounter
      return (touched.setBalPending (.Row idx), if wasWarm then .Warm else .Cold)

def accessStorage (key : SlotKey) : Except String (Host × AccessStatus) := do
  let h ← h.balCommitPending
  match w.findSlot key with
  | none =>
    let last := h.warmSlots key
    if last = h.txCounter then return (h, .Warm)
    else return ((h.log (.WarmKeySlot key last)).setWarmSlot key h.txCounter, .Cold)
  | some idx =>
    let last := (h.storages idx).lastTx
    let wasWarm := last = h.txCounter
    let logged := if wasWarm then h else h.log (.StorageWarm idx last)
    return (logged.markSlotTouchedAt idx h.txCounter, if wasWarm then .Warm else .Cold)

-- call_create's bump of the creator's nonce; false if the nonce cannot be bumped
def bumpNonce (sender : Address) : Except String (Host × Bool) := do
  let idx ← w.accountRow sender
  let nonce := (h.accounts idx).nonce
  if nonce = 0xffffffffffffffff then return (h, false)
  else return ((h.logNonce idx).setNonceAt idx (nonce + 1) h.txCounter, true)

-- The new address is warmed whether or not the create then succeeds.
def warmNew (a : Address) : Except String Host := do
  let idx ← w.accountRow a
  let h := h.balAccessAt idx
  let last := (h.accounts idx).lastTx
  let logged := if last = h.txCounter then h else h.log (.AccountWarm idx last)
  return logged.markTouchedAt idx h.txCounter

def addressHasStorage (row : Nat) : Bool :=
  (w.slotsOf row).any fun i => (h.storages i).value ≠ 0

def hasBlockStartStorage (row : Nat) : Bool :=
  if row ∈ h.storageWiped then false else !w.storageEmpty row

def collides (idx : Nat) : Bool :=
  let r := h.accounts idx
  r.nonce ≠ 0 ∨ r.codeHash ≠ kEmptyCodeHash ∨ h.addressHasStorage w idx
    ∨ h.hasBlockStartStorage w idx

-- False on a collision. The row also enters created_this_tx_idx_, as both callers do next.
def initCreateAccount (sender a : Address) (v : Word) : Except String (Host × Bool) := do
  let idx ← w.accountRow a
  if h.collides w idx then return (h, false)
  else
    let h := (h.logNonce idx).setNonceAt idx 1 h.txCounter
    (if v = 0 then .ok h else h.transferValue w sender a v).map fun h =>
      ({ h with createdThisTx := h.createdThisTx.insert idx }, true)

-- `hash` is keccak256 of the deployed code.
def registerDeployedCode (a : Address) (hash : Bytes32) : Except String Host := do
  let idx ← w.accountRow a
  return (h.logCodeHash idx).setCodeHashAt idx hash h.txCounter

-- process_single_authorization once the signer is recovered. `isDelegation` says whether
-- the signer's code is a delegation, `affordable` whether its charges can be paid, and
-- `hash` is the code hash the authorization installs.
def authorize (signer : Address) (nonce : UInt64) (hash : Bytes32)
    (isDelegation affordable : Bool) : Except String Host := do
  let idx ← w.accountRow signer
  let h := (h.balAccessAt idx).markTouchedAt idx h.txCounter
  let r := h.accounts idx
  if r.codeHash ≠ kEmptyCodeHash ∧ !isDelegation then return h
  else if r.nonce ≠ nonce then return h
  else if w.isAmsterdamOrLater then
    let (h, _) ← h.accountExists w signer
    if affordable then
      let logged := (h.logNonce idx).logCodeHash idx
      return (logged.setNonceAt idx (nonce + 1) h.txCounter).setCodeHashAt idx hash h.txCounter
    else return h
  else return (h.setNonceAt idx (nonce + 1) h.txCounter).setCodeHashAt idx hash h.txCounter

-- pre_warm_for_tx: not logged, since it is there before the first frame.
def warmAddr (a : Address) : Host :=
  if w.isPrecompile a then h
  else
    match w.findAccount a with
    | some idx => h.markTouchedAt idx h.txCounter
    | none => h.setWarmAccount a h.txCounter

def warmSlot (key : SlotKey) : Host :=
  match w.findSlot key with
  | some idx => h.markSlotTouchedAt idx h.txCounter
  | none => h.setWarmSlot key h.txCounter

-- The upfront debit, the refund, the fees and the credits are written without a log entry.
def setField (a : Address) (f : Field) : Except String Host := do
  let idx ← w.accountRow a
  return h.setFieldAt idx f h.txCounter

-- run_frame's end: a frame that halts exceptionally may have halted on its last charge.
def endFrame (halted : Bool) : Except String Host :=
  (if halted then .ok h else h.balCommitPending).map fun h => { h with balPending := .None }

end Host

-- What the VM asks of the host and what the host does itself, in any order a transaction
-- can have them. `Rollback n` goes back to the n-th innermost open checkpoint.
inductive Op where
  | AccessAccount (a : Address)
  | AccessStorage (key : SlotKey)
  | AccountExists (a : Address)
  | GetBalance (a : Address)
  | GetNonce (a : Address)
  | GetCodeHash (a : Address)
  | CopyCode (a : Address)
  | GetStorage (key : SlotKey)
  | SetStorage (key : SlotKey) (v : Word)
  | GetTransientStorage (key : SlotKey)
  | SetTransientStorage (key : SlotKey) (v : Word)
  | EmitLog (entry : LogEntry)
  | Selfdestruct (a beneficiary : Address)
  | TransferValue (src dst : Address) (v : Word)
  | BumpNonce (sender : Address)
  | WarmNew (a : Address)
  | InitCreateAccount (sender a : Address) (v : Word)
  | RegisterDeployedCode (a : Address) (hash : Bytes32)
  | BalLoad (a : Address)
  | EndFrame (halted : Bool)
  | Checkpoint
  | Commit
  | Rollback (n : Nat)
  | EntryCode (a : Address)
  | Authorize (signer : Address) (nonce : UInt64) (hash : Bytes32) (isDelegation affordable : Bool)
  | WarmAddr (a : Address)
  | WarmSlot (key : SlotKey)
  | SetField (a : Address) (f : Field)
deriving DecidableEq

inductive Answer where
  | Unit
  | Access (status : AccessStatus)
  | Storage (status : StorageStatus)
  | Flag (b : Bool)
  | Value (v : Word)
  | Nonce (v : UInt64)
  | Hash (v : Bytes32)
deriving DecidableEq

structure Run where
  host : Host
  frames : List Checkpoint

-- `Op`s that leave the open checkpoints alone.
def Host.call (w : Witness) (h : Host) : Op → Except String (Host × Answer)
  | .AccessAccount a => (h.accessAccount w a).map fun r => (r.1, .Access r.2)
  | .AccessStorage key => (h.accessStorage w key).map fun r => (r.1, .Access r.2)
  | .AccountExists a => (h.accountExists w a).map fun r => (r.1, .Flag r.2)
  | .GetBalance a => (h.getBalance w a).map fun r => (r.1, .Value r.2)
  | .GetNonce a => (h.getNonce w a).map fun r => (r.1, .Nonce r.2)
  | .GetCodeHash a => (h.getCodeHash w a).map fun r => (r.1, .Hash r.2)
  | .CopyCode a => (h.copyCode w a).map fun r => (r.1, .Hash r.2)
  | .GetStorage key => (h.getStorage w key).map fun r => (r.1, .Value r.2)
  | .SetStorage key v => (h.setStorage w key v).map fun r => (r.1, .Storage r.2)
  | .GetTransientStorage key => (h.getTransientStorage key).map fun r => (r.1, .Value r.2)
  | .SetTransientStorage key v => (h.setTransientStorage key v).map (·, .Unit)
  | .EmitLog entry => (h.emitLog entry).map (·, .Unit)
  | .Selfdestruct a b => (h.selfdestruct w a b).map fun r => (r.1, .Flag r.2)
  | .TransferValue src dst v => (h.transferValue w src dst v).map (·, .Unit)
  | .BumpNonce sender => (h.bumpNonce w sender).map fun r => (r.1, .Flag r.2)
  | .WarmNew a => (h.warmNew w a).map (·, .Unit)
  | .InitCreateAccount sender a v => (h.initCreateAccount w sender a v).map fun r => (r.1, .Flag r.2)
  | .RegisterDeployedCode a hash => (h.registerDeployedCode w a hash).map (·, .Unit)
  | .BalLoad a => (h.balLoad w a).map (·, .Unit)
  | .EndFrame halted => (h.endFrame halted).map (·, .Unit)
  | .EntryCode a => (h.codeAndEntry w a).map fun r => (r.1, .Hash r.2)
  | .Authorize signer nonce hash isDelegation affordable =>
    (h.authorize w signer nonce hash isDelegation affordable).map (·, .Unit)
  | .WarmAddr a => .ok (h.warmAddr w a, .Unit)
  | .WarmSlot key => .ok (h.warmSlot w key, .Unit)
  | .SetField a f => (h.setField w a f).map (·, .Unit)
  | .Checkpoint | .Commit | .Rollback _ => .ok (h, .Unit)

-- Closing a frame that is not open is an error of the caller.
def Run.step (w : Witness) (r : Run) : Op → Except String (Run × Answer)
  | .Checkpoint => .ok (⟨r.host.checkpoint.1, r.host.checkpoint.2 :: r.frames⟩, .Unit)
  | .Commit => .ok (⟨r.host, r.frames.tail⟩, .Unit)
  | .Rollback n =>
    match r.frames[n]? with
    | none => .error "no such frame"
    | some cp => (r.host.rollback cp).map fun h => (⟨h, r.frames.drop (n + 1)⟩, .Unit)
  | op => (r.host.call w op).map fun x => (⟨x.1, r.frames⟩, x.2)

def Run.steps (w : Witness) (r : Run) (ops : List Op) : Except String (Run × List Answer) :=
  match ops with
  | [] => .ok (r, [])
  | op :: ops => do
    let (r, answer) ← r.step w op
    let (r, answers) ← r.steps w ops
    return (r, answer :: answers)

end Zeg.StateDB
