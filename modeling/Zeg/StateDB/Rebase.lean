import Zeg.StateDB.Frames

-- What lies in the journal below a frame's own entries does not matter to the frame.
namespace Zeg.StateDB

open Base AccessList List

-- The same tables on top of an older journal.
def Host.onto (j : List Entry) (h : Host) : Host := { h with journal := h.journal ++ j }

def Checkpoint.onto (j : List Entry) (cp : Checkpoint) : Checkpoint := { cp with journalCp := cp.journalCp + j.length }

-- The same for what a callback returns.
def ontoHost (j : List Entry) (x : Except String Host) : Except String Host := x.map (Host.onto j)

def ontoResult {α : Type} (j : List Entry) (x : Except String (Host × α)) : Except String (Host × α) :=
  x.map fun r => (r.1.onto j, r.2)

variable {w : Witness} {h : Host} {j : List Entry} {α β : Type}

section sequencing

variable {x : Except String α} {y : Except String Host} {z : Except String (Host × α)}

theorem ontoHost_bind {f : α → Except String Host} : ontoHost j (x >>= f) = x >>= fun a => ontoHost j (f a) := by
  cases x <;> rfl

theorem ontoResult_bind {f : α → Except String (Host × β)} :
    ontoResult j (x >>= f) = x >>= fun a => ontoResult j (f a) := by
  cases x <;> rfl

theorem bind_ontoHost {f : Host → Except String β} : ontoHost j y >>= f = y >>= fun h => f (h.onto j) := by
  cases y <;> rfl

theorem bind_ontoResult {f : Host × α → Except String β} :
    ontoResult j z >>= f = z >>= fun r => f (r.1.onto j, r.2) := by
  cases z <;> rfl

theorem map_ontoHost {f : Host → Host × α} (hf : ∀ h : Host, f (h.onto j) = ((f h).1.onto j, (f h).2)) :
    (ontoHost j y).map f = ontoResult j (y.map f) := by
  cases y with
  | error => rfl
  | ok h => exact congrArg Except.ok (hf h)

end sequencing

-- The writes to single rows.

theorem markTouched_onto (idx t : Nat) : (h.onto j).markTouchedAt idx t = (h.markTouchedAt idx t).onto j := by
  unfold Host.markTouchedAt
  by_cases hlast : (h.accounts idx).lastTx < t
  · rw [if_pos hlast, if_pos (show ((h.onto j).accounts idx).lastTx < t from hlast)]
    rfl
  · rw [if_neg hlast, if_neg (show ¬ ((h.onto j).accounts idx).lastTx < t from hlast)]

theorem markSlotTouched_onto (idx t : Nat) :
    (h.onto j).markSlotTouchedAt idx t = (h.markSlotTouchedAt idx t).onto j := by
  unfold Host.markSlotTouchedAt
  by_cases hlast : (h.storages idx).lastTx < t
  · rw [if_pos hlast, if_pos (show ((h.onto j).storages idx).lastTx < t from hlast)]
    rfl
  · rw [if_neg hlast, if_neg (show ¬ ((h.onto j).storages idx).lastTx < t from hlast)]

theorem setLogs_onto (logs : List LogEntry) : (h.onto j).setLogs logs = (h.setLogs logs).onto j := by
  obtain ⟨_, _, _, _, _, _, _, _, _, receipts, _, _, _, _⟩ := h
  cases receipts <;> rfl

theorem setBalPending_onto (p : Pending) : (h.onto j).setBalPending p = (h.setBalPending p).onto j := by
  obtain ⟨_, _, _, _, _, _, _, _, _, _, _, _, bal, _⟩ := h
  cases bal <;> rfl

theorem commit_onto : (h.onto j).balCommitPending = ontoHost j h.balCommitPending := by
  obtain ⟨_, _, _, _, _, _, _, _, _, _, _, _, _, pending⟩ := h
  cases pending <;> rfl

-- The callbacks.

theorem loadAccount_onto (a : Address) : (h.onto j).loadAccount w a = ontoResult j (h.loadAccount w a) := by
  simp only [Host.loadAccount, ontoResult_bind]
  refine congrArg _ (funext fun idx => ?_)
  exact congrArg (fun g => Except.ok (Host.balAccessAt g idx, h.accounts idx)) (markTouched_onto idx h.txCounter)

theorem accountExists_onto (a : Address) : (h.onto j).accountExists w a = ontoResult j (h.accountExists w a) := by
  simp only [Host.accountExists, commit_onto, bind_ontoHost, ontoResult_bind]
  rfl

theorem getBalance_onto (a : Address) : (h.onto j).getBalance w a = ontoResult j (h.getBalance w a) := by
  simp only [Host.getBalance, commit_onto, bind_ontoHost, ontoResult_bind, loadAccount_onto, bind_ontoResult]
  rfl

theorem getNonce_onto (a : Address) : (h.onto j).getNonce w a = ontoResult j (h.getNonce w a) := by
  simp only [Host.getNonce, ontoResult_bind, loadAccount_onto, bind_ontoResult]
  rfl

theorem copyCode_onto (a : Address) : (h.onto j).copyCode w a = ontoResult j (h.copyCode w a) := by
  simp only [Host.copyCode, commit_onto, bind_ontoHost, ontoResult_bind, loadAccount_onto, bind_ontoResult]
  rfl

theorem codeAndEntry_onto (a : Address) : (h.onto j).codeAndEntry w a = ontoResult j (h.codeAndEntry w a) := by
  simp only [Host.codeAndEntry, ontoResult_bind, loadAccount_onto, bind_ontoResult]
  rfl

theorem getCodeHash_onto (a : Address) : (h.onto j).getCodeHash w a = ontoResult j (h.getCodeHash w a) := by
  simp only [Host.getCodeHash, commit_onto, bind_ontoHost, ontoResult_bind, accountExists_onto, bind_ontoResult]
  refine congrArg _ (funext fun g => congrArg _ (funext fun found => ?_))
  by_cases hfound : found.2 = true
  · simp only [hfound, if_true, loadAccount_onto, bind_ontoResult, ontoResult_bind]
    rfl
  · simp only [hfound]
    rfl

theorem getStorage_onto (key : SlotKey) : (h.onto j).getStorage w key = ontoResult j (h.getStorage w key) := by
  simp only [Host.getStorage, commit_onto, bind_ontoHost, ontoResult_bind]
  refine congrArg _ (funext fun g => congrArg _ (funext fun idx => ?_))
  have htouch := @markSlotTouched_onto (g.balSlot idx) j idx g.txCounter
  exact congrArg (fun k : Host => Except.ok (k, (k.storages idx).value)) htouch

theorem setStorage_onto (key : SlotKey) (v : Word) :
    (h.onto j).setStorage w key v = ontoResult j (h.setStorage w key v) := by
  simp only [Host.setStorage, commit_onto, bind_ontoHost, ontoResult_bind]
  rfl

theorem getTransientStorage_onto (key : SlotKey) :
    (h.onto j).getTransientStorage key = ontoResult j (h.getTransientStorage key) := by
  simp only [Host.getTransientStorage, commit_onto, bind_ontoHost, ontoResult_bind]
  rfl

theorem setTransientStorage_onto (key : SlotKey) (v : Word) :
    (h.onto j).setTransientStorage key v = ontoHost j (h.setTransientStorage key v) := by
  simp only [Host.setTransientStorage, commit_onto, bind_ontoHost, ontoHost_bind]
  rfl

theorem emitLog_onto (entry : LogEntry) : (h.onto j).emitLog entry = ontoHost j (h.emitLog entry) := by
  simp only [Host.emitLog, commit_onto, bind_ontoHost, ontoHost_bind]
  refine congrArg _ (funext fun g => ?_)
  by_cases hsystem : g.inSystemCall = true
  · rw [if_pos hsystem, if_pos (show (g.onto j).inSystemCall = true from hsystem)]
    rfl
  · rw [if_neg hsystem, if_neg (show ¬ (g.onto j).inSystemCall = true from hsystem)]
    exact congrArg Except.ok (setLogs_onto _)

theorem emitTransferLog_onto (src dst : Address) (v : Word) :
    (h.onto j).emitTransferLog w src dst v = ontoHost j (h.emitTransferLog w src dst v) := by
  unfold Host.emitTransferLog
  split
  · rfl
  · exact emitLog_onto _

theorem transferValue_onto (src dst : Address) (v : Word) :
    (h.onto j).transferValue w src dst v = ontoHost j (h.transferValue w src dst v) := by
  simp only [Host.transferValue, ontoHost_bind]
  refine congrArg _ (funext fun srcIdx => congrArg _ (funext fun dstIdx => ?_))
  split
  · rfl
  · let debited := ((h.logBalance srcIdx).logBalance dstIdx).setBalanceAt srcIdx ((h.accounts srcIdx).balance - v)
      h.txCounter
    exact @emitTransferLog_onto w (debited.setBalanceAt dstIdx ((h.accounts dstIdx).balance + v) h.txCounter) j src dst v

theorem selfdestruct_onto (a b : Address) : (h.onto j).selfdestruct w a b = ontoResult j (h.selfdestruct w a b) := by
  simp only [Host.selfdestruct, commit_onto, bind_ontoHost, ontoResult_bind]
  refine congrArg _ (funext fun g => congrArg _ (funext fun srcIdx => ?_))
  have hdestroy : (g.onto j).shouldDestroy w srcIdx = g.shouldDestroy w srcIdx := rfl
  simp only [hdestroy]
  split
  · split
    · split <;> rfl
    · rfl
  · simp only [ontoResult_bind]
    refine congrArg _ (funext fun dstIdx => ?_)
    let credited := ((g.logBalance srcIdx).logBalance dstIdx).setBalanceAt dstIdx
      ((g.accounts dstIdx).balance + (g.accounts srcIdx).balance) g.txCounter
    have hlog := @emitTransferLog_onto w (credited.setBalanceAt srcIdx 0 g.txCounter) j a b (g.accounts srcIdx).balance
    refine (congrArg (· >>= _) hlog).trans ?_
    rw [bind_ontoHost]
    refine congrArg _ (funext fun k => ?_)
    split <;> rfl

theorem warmRow_onto (idx t : Nat) :
    (if ((h.onto j).accounts idx).lastTx = (h.onto j).txCounter then h.onto j
      else (h.onto j).log (.AccountWarm idx ((h.onto j).accounts idx).lastTx)).markTouchedAt idx t =
    ((if (h.accounts idx).lastTx = h.txCounter then h
      else h.log (.AccountWarm idx (h.accounts idx).lastTx)).markTouchedAt idx t).onto j := by
  by_cases hwarm : (h.accounts idx).lastTx = h.txCounter
  · rw [if_pos hwarm, if_pos (show ((h.onto j).accounts idx).lastTx = (h.onto j).txCounter from hwarm)]
    exact markTouched_onto idx t
  · rw [if_neg hwarm, if_neg (show ¬ ((h.onto j).accounts idx).lastTx = (h.onto j).txCounter from hwarm)]
    exact @markTouched_onto (h.log (.AccountWarm idx (h.accounts idx).lastTx)) j idx t

theorem accessAccount_onto (a : Address) : (h.onto j).accessAccount w a = ontoResult j (h.accessAccount w a) := by
  simp only [Host.accessAccount, commit_onto, bind_ontoHost, ontoResult_bind]
  refine congrArg _ (funext fun g => ?_)
  split
  · exact congrArg (fun k => Except.ok (k, _)) (setBalPending_onto _)
  · split
    · by_cases hwarm : g.warmAccounts a = g.txCounter
      · rw [if_pos hwarm, if_pos (show (g.onto j).warmAccounts a = (g.onto j).txCounter from hwarm)]
        exact congrArg (fun k => Except.ok (k, _)) (setBalPending_onto _)
      · rw [if_neg hwarm, if_neg (show ¬ (g.onto j).warmAccounts a = (g.onto j).txCounter from hwarm)]
        let logged := (g.log (.WarmKeyAccount a (g.warmAccounts a))).setWarmAccount a g.txCounter
        exact congrArg (fun k => Except.ok (k, _)) (@setBalPending_onto logged j _)
    · rename_i idx _
      have hpending := congrArg (Host.setBalPending · (.Row idx)) (@warmRow_onto g j idx g.txCounter)
      exact congrArg (fun k => Except.ok (k, _)) (hpending.trans (setBalPending_onto _))

theorem accessStorage_onto (key : SlotKey) : (h.onto j).accessStorage w key = ontoResult j (h.accessStorage w key) := by
  simp only [Host.accessStorage, commit_onto, bind_ontoHost, ontoResult_bind]
  refine congrArg _ (funext fun g => ?_)
  split
  · by_cases hwarm : g.warmSlots key = g.txCounter
    · rw [if_pos hwarm, if_pos (show (g.onto j).warmSlots key = (g.onto j).txCounter from hwarm)]
      rfl
    · rw [if_neg hwarm, if_neg (show ¬ (g.onto j).warmSlots key = (g.onto j).txCounter from hwarm)]
      rfl
  · rename_i idx _
    by_cases hwarm : (g.storages idx).lastTx = g.txCounter
    · have hlast : ((g.onto j).storages idx).lastTx = (g.onto j).txCounter := hwarm
      simp only [hwarm, hlast, if_true, markSlotTouched_onto]
      rfl
    · have hlast : ¬ ((g.onto j).storages idx).lastTx = (g.onto j).txCounter := hwarm
      simp only [hwarm, hlast, if_false]
      have htouch := @markSlotTouched_onto (g.log (.StorageWarm idx (g.storages idx).lastTx)) j idx g.txCounter
      exact congrArg (fun k => Except.ok (k, _)) htouch

-- What the host does around a frame.

theorem balLoad_onto (a : Address) : (h.onto j).balLoad w a = ontoHost j (h.balLoad w a) := by
  simp only [Host.balLoad, ontoHost_bind]
  rfl

theorem warmNew_onto (a : Address) : (h.onto j).warmNew w a = ontoHost j (h.warmNew w a) := by
  simp only [Host.warmNew, ontoHost_bind]
  refine congrArg _ (funext fun idx => congrArg Except.ok ?_)
  exact @warmRow_onto (h.balAccessAt idx) j idx h.txCounter

theorem bumpNonce_onto (a : Address) : (h.onto j).bumpNonce w a = ontoResult j (h.bumpNonce w a) := by
  simp only [Host.bumpNonce, ontoResult_bind]
  refine congrArg _ (funext fun idx => ?_)
  by_cases hmax : (h.accounts idx).nonce = 0xffffffffffffffff
  · rw [if_pos hmax, if_pos (show ((h.onto j).accounts idx).nonce = _ from hmax)]
    rfl
  · rw [if_neg hmax, if_neg (show ¬ ((h.onto j).accounts idx).nonce = _ from hmax)]
    rfl

theorem initCreateAccount_onto (sender a : Address) (v : Word) :
    (h.onto j).initCreateAccount w sender a v = ontoResult j (h.initCreateAccount w sender a v) := by
  simp only [Host.initCreateAccount, ontoResult_bind]
  refine congrArg _ (funext fun idx => ?_)
  have hcollides : (h.onto j).collides w idx = h.collides w idx := rfl
  rw [hcollides]
  split
  · rfl
  · split
    · rfl
    · have hmove := @transferValue_onto w ((h.logNonce idx).setNonceAt idx 1 h.txCounter) j sender a v
      refine (congrArg (Except.map _) hmove).trans (map_ontoHost fun g => ?_)
      rfl

theorem registerDeployedCode_onto (a : Address) (hash : Bytes32) :
    (h.onto j).registerDeployedCode w a hash = ontoHost j (h.registerDeployedCode w a hash) := by
  simp only [Host.registerDeployedCode, ontoHost_bind]
  rfl

theorem endFrame_onto (halted : Bool) : (h.onto j).endFrame halted = ontoHost j (h.endFrame halted) := by
  cases halted with
  | true => rfl
  | false =>
    simp only [Host.endFrame, commit_onto]
    cases h.balCommitPending <;> rfl

-- Checkpoints and the way back to them.

theorem checkpoint_onto : (h.onto j).checkpoint = (h.checkpoint.1.onto j, h.checkpoint.2.onto j) := by
  refine Prod.ext rfl ?_
  exact congrArg (Checkpoint.mk · h.currentLogs.length) length_append

theorem undo_onto (e : Entry) : (h.onto j).undo e = (h.undo e).onto j := by
  cases e with
  | PendingDestruct idx present => cases present <;> rfl
  | _ => rfl

theorem foldl_undo_onto (es : List Entry) : es.foldl Host.undo (h.onto j) = (es.foldl Host.undo h).onto j := by
  induction es generalizing h with
  | nil => rfl
  | cons e es ih => rw [foldl_cons, undo_onto, ih, foldl_cons]

theorem entryAt_onto (cp : Nat) : (h.onto j).entryAt (cp + j.length) = h.entryAt cp := by
  unfold Host.entryAt Host.onto
  rw [reverse_append, List.getElem?_append_right (by rw [length_reverse]; omega), length_reverse,
    Nat.add_sub_cancel]

theorem length_onto (cp : Nat) : (h.onto j).journal.length - (cp + j.length) = h.journal.length - cp := by
  rw [Host.onto, length_append]
  omega

theorem rollback_onto (cp : Checkpoint) : (h.onto j).rollback (cp.onto j) = ontoHost j (h.rollback cp) := by
  unfold Host.rollback Host.journalRollback
  by_cases hmark : h.entryAt cp.journalCp = some .CheckpointMarker
  · have hshort : h.journal.length - cp.journalCp ≤ h.journal.length := Nat.sub_le _ _
    have htake : since (h.onto j).journal (cp.onto j).journalCp = since h.journal cp.journalCp := by
      unfold since
      rw [Checkpoint.onto, length_onto]
      exact take_append_of_le_length hshort
    have hdrop : (h.onto j).journal.drop ((h.onto j).journal.length - (cp.onto j).journalCp) =
        h.journal.drop (h.journal.length - cp.journalCp) ++ j := by
      rw [Checkpoint.onto, length_onto]
      exact drop_append_of_le_length hshort
    have hmark' : (h.onto j).entryAt (cp.onto j).journalCp = some .CheckpointMarker := (entryAt_onto _).trans hmark
    rw [if_pos hmark, if_pos hmark', htake, hdrop, foldl_undo_onto]
    let undone : Host := { (since h.journal cp.journalCp).foldl Host.undo h with
      journal := h.journal.drop (h.journal.length - cp.journalCp) }
    exact congrArg Except.ok (@setLogs_onto undone j (undone.currentLogs.take cp.logCount))
  · have hmark' : (h.onto j).entryAt (cp.onto j).journalCp ≠ some .CheckpointMarker :=
      fun hm => hmark ((entryAt_onto _).symm.trans hm)
    rw [if_neg hmark, if_neg hmark']
    rfl

theorem rollback_above {es : List Entry} (hj : h.journal = es ++ .CheckpointMarker :: j) (n : Nat) :
    h.rollback ⟨j.length, n⟩ = .ok (({ es.foldl Host.undo h with journal := j } : Host).setLogs
      ((es.foldl Host.undo h).currentLogs.take n)) := by
  have hlen : h.journal.length - j.length = es.length + 1 := by
    rw [hj, length_append, length_cons]
    omega
  have hsplit : h.journal = (es ++ [.CheckpointMarker]) ++ j := by rw [hj, append_assoc, singleton_append]
  have htop : (es ++ [Entry.CheckpointMarker]).length = es.length + 1 := length_append
  have hmark : Marked h.journal j.length := by
    rw [hj]
    exact (marked_top j).append es
  have htake : since h.journal j.length = es ++ [.CheckpointMarker] := by
    unfold since
    rw [hlen, hsplit, ← htop, take_left]
  have hdrop : h.journal.drop (h.journal.length - j.length) = j := by rw [hlen, hsplit, ← htop, drop_left]
  rw [rollback_of_marked hmark]
  simp only [Host.rolledBack, htake, hdrop, foldl_append]
  rfl

theorem setLogs_self : h.setLogs h.currentLogs = h := by
  obtain ⟨_, _, _, _, _, _, _, _, _, receipts, _, _, _, _⟩ := h
  cases receipts <;> rfl

theorem rollback_checkpoint (h : Host) : h.checkpoint.1.rollback h.checkpoint.2 = .ok h := by
  have hback := @rollback_above h.checkpoint.1 h.journal [] rfl h.currentLogs.length
  refine hback.trans (congrArg Except.ok ?_)
  change h.setLogs (h.currentLogs.take h.currentLogs.length) = h
  rw [take_length, setLogs_self]

end Zeg.StateDB
