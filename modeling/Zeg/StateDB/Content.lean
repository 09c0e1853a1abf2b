import Zeg.StateDB.Rollback

-- What the tables hold for the chain: the fields of the accounts, the values of the slots, the
-- transient values, the accounts to be destroyed and the logs. The stamps, the journal and the
-- block access list are left out.
namespace Zeg.StateDB

open Base AccessList Function

@[ext]
structure Fields where
  balance : Word
  nonce : UInt64
  codeHash : Bytes32
deriving DecidableEq

def Field.set (r : Fields) : Field → Fields
  | .Balance v => { r with balance := v }
  | .Nonce v => { r with nonce := v }
  | .CodeHash v => { r with codeHash := v }

structure Content where
  fields : Nat → Fields
  value : Nat → Word
  transient : SlotKey → Option Word
  pending : Nat → Prop
  logs : List LogEntry

def Content.write (c : Content) (idx : Nat) (f : Field) : Content :=
  { c with fields := Function.update c.fields idx (f.set (c.fields idx)) }

def Account.fields (a : Account) : Fields := ⟨a.balance, a.nonce, a.codeHash⟩

def Host.content (h : Host) : Content where
  fields idx := (h.accounts idx).fields
  value idx := (h.storages idx).value
  transient := h.transient
  pending idx := idx ∈ h.pendingDestruct
  logs := h.currentLogs

variable {w : Witness} {h h' : Host}

theorem content_restored {touched : Key → Prop} (hr : Restored w touched h h') : h'.content = h.content := by
  have hfields : h'.content.fields = h.content.fields :=
    funext fun idx => Fields.ext (hr.balance idx) (hr.nonce idx) (hr.codeHash idx)
  have hvalue : h'.content.value = h.content.value := funext hr.value
  have hpending : h'.content.pending = h.content.pending := funext fun idx => propext (hr.pending idx)
  show (⟨h'.content.fields, h'.content.value, h'.transient, h'.content.pending, h'.currentLogs⟩ : Content) = _
  rw [hfields, hvalue, hpending, hr.transient, hr.logs]
  rfl

theorem content_setFieldAt (idx : Nat) (f : Field) (t : Nat) : (h.setFieldAt idx f t).content = h.content.write idx f := by
  have hfields : (h.setFieldAt idx f t).content.fields = (h.content.write idx f).fields := by
    funext i
    by_cases hi : i = idx
    · subst hi
      cases f <;> simp [Host.content, Host.setFieldAt, Content.write, Field.write, Field.set, Account.fields]
    · simp [Host.content, Host.setFieldAt, Content.write, update_of_ne hi]
  show (⟨(h.setFieldAt idx f t).content.fields, _, _, _, _⟩ : Content) = _
  rw [hfields]
  rfl

theorem content_setValueAt (idx : Nat) (v : Word) (t : Nat) :
    (h.setValueAt idx v t).content = { h.content with value := Function.update h.content.value idx v } := by
  have hvalue : (h.setValueAt idx v t).content.value = Function.update h.content.value idx v := by
    funext i
    by_cases hi : i = idx
    · subst hi
      simp [Host.content, Host.setValueAt]
    · simp [Host.content, Host.setValueAt, update_of_ne hi]
  show (⟨_, (h.setValueAt idx v t).content.value, _, _, _⟩ : Content) = _
  rw [hvalue]
  rfl

theorem content_setWarmAt (idx t : Nat) : (h.setWarmAt idx t).content = h.content := by
  have hfields : (h.setWarmAt idx t).content.fields = h.content.fields := by
    funext i
    by_cases hi : i = idx
    · subst hi
      simp [Host.content, Host.setWarmAt, Account.fields]
    · simp [Host.content, Host.setWarmAt, update_of_ne hi]
  show (⟨(h.setWarmAt idx t).content.fields, _, _, _, _⟩ : Content) = _
  rw [hfields]
  rfl

theorem content_touch (l : Last) : (h.touch l).content = h.content := by
  cases l with
  | Account idx =>
    show (h.markTouchedAt idx h.txCounter).content = _
    unfold Host.markTouchedAt
    split
    · exact content_setWarmAt idx h.txCounter
    · rfl
  | Slot idx =>
    show (h.markSlotTouchedAt idx h.txCounter).content = _
    unfold Host.markSlotTouchedAt
    dsimp only
    split
    · refine congrArg (fun value => (⟨_, value, _, _, _⟩ : Content)) (funext fun i => ?_)
      by_cases hi : i = idx
      · subst hi
        simp
      · simp [update_of_ne hi]
    · rfl
  | AccountKey a => rfl
  | SlotKey key => rfl

theorem content_warm (l : Last) : (h.warm l).content = h.content := by
  unfold Host.warm
  split
  · rfl
  · exact content_touch (h := h.log (l.entry (h.last l))) l

theorem content_setLogs (logs : List LogEntry) :
    ∃ logs', (h.setLogs logs).content = { h.content with logs := logs' } := by
  unfold Host.setLogs
  split
  · exact ⟨h.currentLogs, rfl⟩
  · exact ⟨_, rfl⟩

theorem content_setLogs_congr (hc : h.content = h'.content) (hr : h.receipts = h'.receipts) (logs : List LogEntry) :
    (h.setLogs logs).content = (h'.setLogs logs).content := by
  unfold Host.setLogs
  rw [hr]
  split
  · exact hc
  · exact congrArg (fun c : Content => { c with logs := logs }) hc

-- The callbacks.

theorem content_commit (hc : h.balCommitPending = .ok h') : h'.content = h.content ∧ h'.accounts = h.accounts := by
  unfold Host.balCommitPending at hc
  split at hc
  · cases hc
    exact ⟨rfl, rfl⟩
  · cases hc
  · cases hc
    exact ⟨rfl, rfl⟩

theorem content_balPending (p : Pending) : (h.setBalPending p).content = h.content := by
  unfold Host.setBalPending
  split
  · rfl
  · rfl

variable {a : Address}

theorem content_exists {b : Bool} (hc : h.accountExists w a = .ok (h', b)) : h'.content = h.content := by
  simp only [Host.accountExists, bind_eq_ok] at hc
  obtain ⟨h₁, hcommit, idx, -, hret⟩ := hc
  cases hret
  exact (content_commit hcommit).1

theorem content_load {r : Account} (hc : h.loadAccount w a = .ok (h', r)) :
    h'.content = h.content ∧ ∃ idx, w.accountRow a = .ok idx ∧ r = h.accounts idx := by
  simp only [Host.loadAccount, bind_eq_ok] at hc
  obtain ⟨idx, hrow, hret⟩ := hc
  cases hret
  exact ⟨content_touch (.Account idx), idx, hrow, rfl⟩

variable {v : Word}

theorem content_getBalance (hc : h.getBalance w a = .ok (h', v)) :
    h'.content = h.content ∧ ∃ idx, w.accountRow a = .ok idx ∧ v = (h.content.fields idx).balance := by
  simp only [Host.getBalance, bind_eq_ok] at hc
  obtain ⟨h₁, hcommit, ⟨h₂, r⟩, hload, hret⟩ := hc
  cases hret
  obtain ⟨hc₁, ha₁⟩ := content_commit hcommit
  obtain ⟨hc₂, idx, hrow, rfl⟩ := content_load hload
  exact ⟨hc₂.trans hc₁, idx, hrow, by rw [ha₁]; rfl⟩

theorem content_getCodeHash {v : Bytes32} (hc : h.getCodeHash w a = .ok (h', v)) :
    h'.content = h.content := by
  simp only [Host.getCodeHash, bind_eq_ok] at hc
  obtain ⟨h₁, hcommit, ⟨h₂, found⟩, hexists, hret⟩ := hc
  have hsame : h₂.content = h.content := (content_exists hexists).trans (content_commit hcommit).1
  dsimp only at hret
  split at hret
  · simp only [bind_eq_ok] at hret
    obtain ⟨⟨h₃, r⟩, hload, hret⟩ := hret
    cases hret
    exact (content_load hload).1.trans hsame
  · cases hret
    exact hsame

theorem content_copyCode {v : Bytes32} (hc : h.copyCode w a = .ok (h', v)) : h'.content = h.content := by
  simp only [Host.copyCode, bind_eq_ok] at hc
  obtain ⟨h₁, hcommit, ⟨h₂, r⟩, hload, hret⟩ := hc
  cases hret
  exact (content_load hload).1.trans (content_commit hcommit).1

variable {key : SlotKey}

theorem content_getStorage (hc : h.getStorage w key = .ok (h', v)) :
    h'.content = h.content := by
  simp only [Host.getStorage, bind_eq_ok] at hc
  obtain ⟨h₁, hcommit, idx, -, hret⟩ := hc
  cases hret
  exact (content_touch (h := h₁.balSlot idx) (.Slot idx)).trans (content_commit hcommit).1

theorem content_accessAccount {status : AccessStatus} (hc : h.accessAccount w a = .ok (h', status)) :
    h'.content = h.content := by
  simp only [Host.accessAccount, bind_eq_ok] at hc
  obtain ⟨h₁, hcommit, hret⟩ := hc
  rw [← (content_commit hcommit).1]
  split at hret
  · cases hret
    exact content_balPending _
  · split at hret
    · split at hret
      · cases hret
        exact content_balPending _
      · cases hret
        exact content_balPending _
    · next idx _ =>
      cases hret
      rw [content_balPending, warm_account idx]
      exact content_warm _

theorem content_accessStorage {status : AccessStatus} (hc : h.accessStorage w key = .ok (h', status)) :
    h'.content = h.content := by
  simp only [Host.accessStorage, bind_eq_ok] at hc
  obtain ⟨h₁, hcommit, hret⟩ := hc
  rw [← (content_commit hcommit).1]
  split at hret
  · split at hret
    · cases hret
      rfl
    · cases hret
      rfl
  · next idx _ =>
    cases hret
    rw [warm_slot idx]
    exact content_warm _

theorem content_warmNew (hc : h.warmNew w a = .ok h') : h'.content = h.content := by
  simp only [Host.warmNew, bind_eq_ok] at hc
  obtain ⟨idx, -, hret⟩ := hc
  cases hret
  rw [warm_account (h := h.balAccessAt idx) idx]
  exact content_warm (h := h.balAccessAt idx) _

theorem content_endFrame {halted : Bool} (hc : h.endFrame halted = .ok h') : h'.content = h.content := by
  obtain ⟨h₁, hcommit, hret⟩ := map_eq_ok.mp hc
  cases hret
  split at hcommit
  · cases hcommit
    rfl
  · exact (content_commit hcommit).1

theorem content_warmAddr (a : Address) : (h.warmAddr w a).content = h.content := by
  unfold Host.warmAddr
  split
  · rfl
  · split
    · next idx _ => exact content_touch (.Account idx)
    · rfl

theorem content_warmSlot (key : SlotKey) : (h.warmSlot w key).content = h.content := by
  unfold Host.warmSlot
  split
  · next idx _ => exact content_touch (.Slot idx)
  · rfl

theorem content_of_map {α : Type} {x : Except String α} {f : α → Host × Answer} {answer : Answer}
    (hc : x.map f = .ok (h', answer)) (hx : ∀ a, x = .ok a → (f a).1.content = h.content) : h'.content = h.content := by
  obtain ⟨a, ha, hret⟩ := map_eq_ok.mp hc
  have hcontent := hx a ha
  rwa [hret] at hcontent

def Op.inert : Op → Bool
  | .AccessAccount _ | .AccessStorage _ | .AccountExists _ | .GetBalance _ | .GetNonce _ | .GetCodeHash _ => true
  | .CopyCode _ | .EntryCode _ | .GetStorage _ | .GetTransientStorage _ | .WarmNew _ | .BalLoad _ | .EndFrame _ => true
  | .WarmAddr _ | .WarmSlot _ | .Checkpoint | .Commit | .Rollback _ => true
  | _ => false

theorem content_inert {op : Op} {answer : Answer} (hop : op.inert = true) (hc : h.call w op = .ok (h', answer)) :
    h'.content = h.content := by
  cases op with
  | AccessAccount a => exact content_of_map hc fun _ => content_accessAccount
  | AccessStorage key => exact content_of_map hc fun _ => content_accessStorage
  | AccountExists a => exact content_of_map hc fun _ => content_exists
  | GetBalance a => exact content_of_map hc fun _ hx => (content_getBalance hx).1
  | GetNonce a | EntryCode a =>
    refine content_of_map hc fun _ hx => ?_
    simp only [Host.getNonce, Host.codeAndEntry, bind_eq_ok] at hx
    obtain ⟨⟨h₁, r⟩, hload, hret⟩ := hx
    cases hret
    exact (content_load hload).1
  | GetCodeHash a => exact content_of_map hc fun _ => content_getCodeHash
  | CopyCode a => exact content_of_map hc fun _ => content_copyCode
  | GetStorage key => exact content_of_map hc fun _ => content_getStorage
  | GetTransientStorage key =>
    refine content_of_map hc fun _ hx => ?_
    simp only [Host.getTransientStorage, bind_eq_ok] at hx
    obtain ⟨h₁, hcommit, hret⟩ := hx
    cases hret
    exact (content_commit hcommit).1
  | WarmNew a => exact content_of_map hc fun _ => content_warmNew
  | BalLoad a =>
    refine content_of_map hc fun _ hx => ?_
    simp only [Host.balLoad, bind_eq_ok] at hx
    obtain ⟨idx, -, hret⟩ := hx
    cases hret
    rfl
  | EndFrame halted => exact content_of_map hc fun _ => content_endFrame
  | WarmAddr a =>
    cases hc
    exact content_warmAddr a
  | WarmSlot key =>
    cases hc
    exact content_warmSlot key
  | Checkpoint | Commit | Rollback _ =>
    cases hc
    rfl
  | SetStorage | SetTransientStorage | EmitLog | Selfdestruct | TransferValue | BumpNonce | InitCreateAccount
  | RegisterDeployedCode | Authorize | SetField => cases hop

-- The operations that change it.

theorem content_setStorage {status : StorageStatus} (hc : h.setStorage w key v = .ok (h', status)) :
    ∃ idx, w.storageRow key = .ok idx ∧
      h'.content = { h.content with value := Function.update h.content.value idx v } := by
  simp only [Host.setStorage, bind_eq_ok] at hc
  obtain ⟨h₁, hcommit, idx, hrow, hret⟩ := hc
  cases hret
  refine ⟨idx, hrow, ?_⟩
  rw [content_setValueAt, ← (content_commit hcommit).1]
  rfl

theorem content_setTransientStorage (hc : h.setTransientStorage key v = .ok h') :
    h'.content = { h.content with transient := Function.update h.content.transient key (some v) } := by
  simp only [Host.setTransientStorage, bind_eq_ok] at hc
  obtain ⟨h₁, hcommit, hret⟩ := hc
  cases hret
  rw [← (content_commit hcommit).1]
  rfl

theorem content_emitLog {entry : LogEntry} (hc : h.emitLog entry = .ok h') :
    ∃ logs, h'.content = { h.content with logs := logs } := by
  simp only [Host.emitLog, bind_eq_ok] at hc
  obtain ⟨h₁, hcommit, hret⟩ := hc
  cases hret
  rw [← (content_commit hcommit).1]
  split
  · exact ⟨_, rfl⟩
  · exact content_setLogs _

theorem content_emitTransferLog {src dst : Address} (hc : h.emitTransferLog w src dst v = .ok h') :
    ∃ logs, h'.content = { h.content with logs := logs } := by
  unfold Host.emitTransferLog at hc
  split at hc
  · cases hc
    exact ⟨_, rfl⟩
  · exact content_emitLog hc

def Content.move (c : Content) (i j : Nat) (v : Word) : Content :=
  if i = j then c
  else (c.write i (.Balance ((c.fields i).balance - v))).write j (.Balance ((c.fields j).balance + v))

theorem content_transferValue {src dst : Address} (hc : h.transferValue w src dst v = .ok h') :
    ∃ i j, w.accountRow src = .ok i ∧ w.accountRow dst = .ok j ∧
      ∃ logs, h'.content = { h.content.move i j v with logs := logs } := by
  simp only [Host.transferValue, bind_eq_ok] at hc
  obtain ⟨i, hi, j, hj, hret⟩ := hc
  refine ⟨i, j, hi, hj, ?_⟩
  unfold Content.move
  split at hret
  · next hij =>
    cases hret
    rw [if_pos hij]
    exact ⟨_, rfl⟩
  · next hij =>
    obtain ⟨logs, hlogs⟩ := content_emitTransferLog hret
    refine ⟨logs, ?_⟩
    rw [hlogs, Host.setBalanceAt, Host.setBalanceAt, content_setFieldAt, content_setFieldAt, if_neg hij]
    rfl

theorem content_insertPending (idx : Nat) :
    (h.insertPending idx).1.content = { h.content with pending := fun i => i = idx ∨ h.content.pending i } := by
  have hpending : (h.insertPending idx).1.content.pending = fun i => i = idx ∨ h.content.pending i :=
    funext fun i => propext List.mem_insert_iff
  show (⟨_, _, _, (h.insertPending idx).1.content.pending, _⟩ : Content) = _
  rw [hpending]
  rfl

theorem write_comm (c : Content) {i j : Nat} (f g : Field) (hij : i ≠ j) :
    (c.write i f).write j g = (c.write j g).write i f := by
  unfold Content.write
  dsimp only
  rw [update_of_ne hij.symm, update_of_ne hij, update_comm hij]

-- The balance goes to the beneficiary; before Amsterdam one that destroys itself for itself burns it.
def Content.bequeath (c : Content) (i j : Nat) (burns : Bool) : Content :=
  if i = j then if burns then c.write i (.Balance 0) else c
  else c.move i j (c.fields i).balance

theorem content_destroy {g : Host} {i : Nat} {d first : Bool}
    (hret : (if d then .ok (g.insertPending i) else .ok (g, false) : Except String (Host × Bool)) = .ok (h', first)) :
    h'.content = { g.content with pending := fun k => g.content.pending k ∨ k = i ∧ d = true } := by
  cases d with
  | true =>
    have heq : (g.insertPending i).1 = h' := congrArg Prod.fst (Except.ok.inj hret)
    rw [← heq, content_insertPending]
    simp only [or_comm, and_true]
  | false =>
    cases hret
    simp only [Bool.false_eq_true, and_false, or_false]

theorem content_selfdestruct {b : Address} {first : Bool} (hc : h.selfdestruct w a b = .ok (h', first)) :
    ∃ i j, w.accountRow a = .ok i ∧ w.accountRow b = .ok j ∧ ∃ logs,
      h'.content = { h.content.bequeath i j (h.shouldDestroy w i && !w.isAmsterdamOrLater) with
        pending := fun k => h.content.pending k ∨ k = i ∧ h.shouldDestroy w i = true
        logs := logs } := by
  simp only [Host.selfdestruct, bind_eq_ok] at hc
  obtain ⟨h₁, hcommit, i, hi, hret⟩ := hc
  have hcontent := (content_commit hcommit).1
  have hdestroy : h.shouldDestroy w = h₁.shouldDestroy w := by
    obtain ⟨-, bal, p, rfl⟩ := commit_does (w := w) hcommit
    rfl
  rw [← hcontent, hdestroy]
  clear hdestroy hcontent hcommit
  generalize hd : h₁.shouldDestroy w i = d at hret
  by_cases hab : a = b
  · subst hab
    rw [if_pos rfl] at hret
    refine ⟨i, i, hi, hi, h₁.currentLogs, ?_⟩
    unfold Content.bequeath
    rw [if_pos rfl, hd]
    cases d with
    | false => exact content_destroy (d := false) hret
    | true =>
      rw [if_pos rfl] at hret
      cases ham : w.isAmsterdamOrLater with
      | true =>
        rw [ham, if_pos rfl] at hret
        exact content_destroy (d := true) hret
      | false =>
        rw [ham, if_neg Bool.false_ne_true] at hret
        have hburnt := content_destroy (d := true) hret
        rw [Host.setBalanceAt, content_setFieldAt] at hburnt
        exact hburnt
  · subst hd
    rw [if_neg hab] at hret
    simp only [bind_eq_ok] at hret
    obtain ⟨j, hj, h₂, hemit, hret⟩ := hret
    have hij : i ≠ j := fun heq => hab (accountRow_inj hi (heq ▸ hj))
    obtain ⟨logs, hlogs⟩ := content_emitTransferLog hemit
    refine ⟨i, j, hi, hj, logs, ?_⟩
    rw [content_destroy hret, hlogs, Host.setBalanceAt, Host.setBalanceAt, content_setFieldAt, content_setFieldAt]
    unfold Content.bequeath Content.move
    rw [if_neg hij, if_neg hij, BitVec.sub_self, write_comm _ _ _ hij.symm]
    rfl

theorem content_bumpNonce {sender : Address} {bumped : Bool} (hc : h.bumpNonce w sender = .ok (h', bumped)) :
    ∃ i, w.accountRow sender = .ok i ∧
      ((h.content.fields i).nonce = 0xffffffffffffffff ∧ bumped = false ∧ h' = h ∨
        (h.content.fields i).nonce ≠ 0xffffffffffffffff ∧ bumped = true ∧
          h'.content = h.content.write i (.Nonce ((h.content.fields i).nonce + 1))) := by
  simp only [Host.bumpNonce, bind_eq_ok] at hc
  obtain ⟨i, hi, hret⟩ := hc
  refine ⟨i, hi, ?_⟩
  split at hret
  · next hmax =>
    cases hret
    exact .inl ⟨hmax, rfl, rfl⟩
  · next hmax =>
    cases hret
    refine .inr ⟨hmax, rfl, ?_⟩
    rw [Host.setNonceAt, content_setFieldAt]
    rfl

theorem content_initCreateAccount {sender : Address} {fresh : Bool}
    (hc : h.initCreateAccount w sender a v = .ok (h', fresh)) :
    ∃ j, w.accountRow a = .ok j ∧
      (h.collides w j = true ∧ fresh = false ∧ h' = h ∨
        h.collides w j = false ∧ fresh = true ∧
          ∃ c logs, h'.content = { c with logs := logs } ∧
            (v = 0 ∧ c = h.content.write j (.Nonce 1) ∨
              v ≠ 0 ∧ ∃ i, w.accountRow sender = .ok i ∧ c = (h.content.write j (.Nonce 1)).move i j v)) := by
  simp only [Host.initCreateAccount, bind_eq_ok] at hc
  obtain ⟨j, hj, hret⟩ := hc
  refine ⟨j, hj, ?_⟩
  split at hret
  · next hcol =>
    cases hret
    exact .inl ⟨hcol, rfl, rfl⟩
  · next hcol =>
    obtain ⟨h₁, hmove, hret⟩ := map_eq_ok.mp hret
    cases hret
    have hnonce : ((h.logNonce j).setNonceAt j 1 h.txCounter).content = h.content.write j (.Nonce 1) :=
      content_setFieldAt (h := h.logNonce j) j (.Nonce 1) h.txCounter
    refine .inr ⟨Bool.eq_false_iff.mpr hcol, rfl, ?_⟩
    split at hmove
    · next hv =>
      cases hmove
      exact ⟨h.content.write j (.Nonce 1), h.currentLogs, hnonce, .inl ⟨hv, rfl⟩⟩
    · next hv =>
      obtain ⟨i, j', hi, hj', logs, hlogs⟩ := content_transferValue hmove
      cases hj.symm.trans hj'
      rw [hnonce] at hlogs
      exact ⟨_, logs, hlogs, .inr ⟨hv, i, hi, rfl⟩⟩

theorem content_registerDeployedCode {hash : Bytes32} (hc : h.registerDeployedCode w a hash = .ok h') :
    ∃ j, w.accountRow a = .ok j ∧ h'.content = h.content.write j (.CodeHash hash) := by
  simp only [Host.registerDeployedCode, bind_eq_ok] at hc
  obtain ⟨j, hj, hret⟩ := hc
  cases hret
  exact ⟨j, hj, content_setFieldAt (h := h.logCodeHash j) j (.CodeHash hash) h.txCounter⟩

-- From Amsterdam on an authorization is applied if it is valid and its charges can be paid.
theorem content_authorize {signer : Address} {nonce : UInt64} {hash : Bytes32} {isDelegation affordable : Bool} {idx : Nat}
    (hw : w.isAmsterdamOrLater = true) (hrow : w.accountRow signer = .ok idx)
    (hc : h.authorize w signer nonce hash isDelegation affordable = .ok h') :
    h'.content =
      if ((h.content.fields idx).codeHash = kEmptyCodeHash ∨ isDelegation = true) ∧
        (h.content.fields idx).nonce = nonce ∧ affordable = true then
        (h.content.write idx (.Nonce (nonce + 1))).write idx (.CodeHash hash)
      else h.content := by
  have htouched : ((h.balAccessAt idx).markTouchedAt idx h.txCounter).content = h.content :=
    @content_touch (h.balAccessAt idx) (.Account idx)
  have hfields := congrArg (Content.fields · idx) htouched
  have hcodeHash : (((h.balAccessAt idx).markTouchedAt idx h.txCounter).accounts idx).codeHash = _ :=
    congrArg Fields.codeHash hfields
  have hnonce : (((h.balAccessAt idx).markTouchedAt idx h.txCounter).accounts idx).nonce = _ :=
    congrArg Fields.nonce hfields
  simp only [Host.authorize, hrow, hw, if_true, bind_eq_ok, Except.ok.injEq, exists_eq_left', hcodeHash, hnonce] at hc
  split at hc
  · next hbad =>
    cases hc
    rw [if_neg, htouched]
    rintro ⟨hgood | hgood, -⟩
    · exact hbad.1 hgood
    · simp [hgood] at hbad
  · next hgood =>
    rw [not_and_or, not_not, Bool.not_eq_true, Bool.not_eq_false'] at hgood
    split at hc
    · next hbad =>
      cases hc
      rw [if_neg fun hok => hbad hok.2.1, htouched]
    · next hmatch =>
      obtain ⟨⟨h₁, found⟩, hexists, hret⟩ := bind_eq_ok.mp hc
      have hcontent := (content_exists hexists).trans htouched
      split at hret
      · next haff =>
        cases hret
        rw [if_pos ⟨hgood, not_not.mp hmatch, haff⟩, ← hcontent]
        exact (content_setFieldAt idx (.CodeHash hash) h₁.txCounter).trans
          (congrArg (Content.write · idx (.CodeHash hash))
            (@content_setFieldAt ((h₁.logNonce idx).logCodeHash idx) idx (.Nonce (nonce + 1)) h₁.txCounter))
      · next haff =>
        cases hret
        rw [if_neg fun hok => haff hok.2.2, hcontent]

end Zeg.StateDB
