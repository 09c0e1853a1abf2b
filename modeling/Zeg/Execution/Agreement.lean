import Zeg.Execution.Create
import Zeg.Execution.TopCalls

-- The first frame of a transaction against the frame of an opcode.
namespace Zeg.Execution

open Base StateDB Zevm

variable {S : Setting} {call : Caller} {msg : Message} {e : Env World}

-- Entries whose undoing only concerns the warmth.
def Faint (es : List Entry) : Prop :=
  ∀ g : Host, (es.foldl Host.undo g).content = g.content ∧ (es.foldl Host.undo g).receipts = g.receipts

theorem warmNew_faint {w : Witness} {h h' : Host} {a : Address} (hempty : h.journal = []) (hc : h.warmNew w a = .ok h') :
    Faint h'.journal ∧ h'.receipts = h.receipts := by
  simp only [Host.warmNew, bind_eq_ok] at hc
  obtain ⟨k, -, hret⟩ := hc
  have hkept : ∀ (g : Host) (t : Nat), (g.markTouchedAt k t).journal = g.journal ∧
      (g.markTouchedAt k t).receipts = g.receipts := by
    intro g t
    unfold Host.markTouchedAt
    split <;> exact ⟨rfl, rfl⟩
  cases hret
  split
  · refine ⟨?_, (hkept _ _).2⟩
    rw [(hkept _ _).1]
    change Faint h.journal
    rw [hempty]
    exact fun g => ⟨rfl, rfl⟩
  · refine ⟨?_, (hkept _ _).2⟩
    rw [(hkept _ _).1]
    change Faint (_ :: h.journal)
    rw [hempty]
    exact fun g => ⟨content_setWarmAt _ _, rfl⟩

theorem rollbacks_agree {d : Host} {es j j' : List Entry} (hfaint : Faint es) (n : Nat) :
    ∃ h₁ h₂, (d.onto (.CheckpointMarker :: j)).rollback ⟨j.length, n⟩ = .ok h₁ ∧
      (d.onto (es ++ .CheckpointMarker :: j')).rollback ⟨j'.length, n⟩ = .ok h₂ ∧ h₁.content = h₂.content := by
  have hnear := @rollback_above (d.onto (.CheckpointMarker :: j)) j d.journal rfl n
  have hfar := @rollback_above (d.onto (es ++ .CheckpointMarker :: j')) j' (d.journal ++ es)
    (List.append_assoc _ _ _).symm n
  refine ⟨_, _, hnear, hfar, ?_⟩
  rw [List.foldl_append, foldl_undo_onto, foldl_undo_onto, foldl_undo_onto]
  let undone := d.journal.foldl Host.undo d
  obtain ⟨hcontent, hreceipts⟩ := hfaint undone
  have hlogs : (es.foldl Host.undo undone).currentLogs = undone.currentLogs := congrArg (List.headD · []) hreceipts
  change (Host.setLogs _ (undone.currentLogs.take n)).content =
    (Host.setLogs _ ((es.foldl Host.undo undone).currentLogs.take n)).content
  rw [hlogs]
  apply content_setLogs_congr
  · exact hcontent.symm
  · exact hreceipts.symm

def creation (x : Except String (Result × Env World)) : Option (Result × Content × CodeTable.Contracts) :=
  x.toOption.map fun r => (r.1, r.2.host.db.content, r.2.host.codes)

-- call_create from the collision check on.
def startNested (S : Setting) (call : Caller) (msg : Message) (cp : Checkpoint) (e : Env World) (db : Host) :
    Except String (Result × Env World) := do
  let (db, fresh) ← db.initCreateAccount S.witness msg.sender msg.recipient msg.value
  if fresh then runInit S call msg cp (setDb e db)
  else do
    let db ← db.rollback cp
    return (failed .Failure msg, setDb e db)

section started

variable {d : Host} {es j j' : List Entry} {n : Nat} {r : Result}

theorem failures_agree {e' : Env World} (hfaint : Faint es) (hstatus : r.status ≠ .Success)
    (hcodes : e.host.codes = e'.host.codes) (hdb : e'.host.db = d.onto (es ++ .CheckpointMarker :: j')) :
    creation (do
      let db ← (d.onto (.CheckpointMarker :: j)).rollback ⟨j.length, n⟩
      return (r, setDb e db)) = creation (closeResult ⟨j'.length, n⟩ (r, e')) := by
  obtain ⟨h₁, h₂, hnear, hfar, hcontent⟩ := @rollbacks_agree d es j j' hfaint n
  rw [closeResult, closeFrame, if_pos hstatus, hdb, hnear, hfar]
  change some (r, h₁.content, e.host.codes) = some (r, h₂.content, e'.host.codes)
  rw [hcontent, hcodes]

theorem inits_agree (hcall : call.Rebases) (hfaint : Faint es) :
    creation (runInit S call msg ⟨j.length, n⟩ (ontoEnv (.CheckpointMarker :: j) e)) =
    creation (runFrame S call { msg with inputData := [] } msg.inputData (ontoEnv (es ++ .CheckpointMarker :: j') e) >>=
      fun x => finishTopCreate S { msg with inputData := [] } x.1 x.2 >>= closeResult ⟨j'.length, n⟩) := by
  simp only [runInit, runFrame_onto hcall]
  cases runFrame S call { msg with inputData := [] } msg.inputData e with
  | error x => rfl
  | ok frame =>
    obtain ⟨r, e₁⟩ := frame
    have hsame : afterInit S.witness.revision { msg with inputData := [] } r = afterInit S.witness.revision msg r := rfl
    simp only [ontoRun, Except.map, bind, Except.bind, finishTopCreate, hsame]
    cases hafter : afterInit S.witness.revision msg r with
    | error failure => exact failures_agree (d := e₁.host.db) hfaint (afterInit_error hafter) rfl rfl
    | ok done =>
      have hregister : ∀ J, registerDeployedCode S msg.recipient r.output (ontoEnv J e₁).host = _ :=
        fun J => @register_onto S J e₁.host msg.recipient r.output
      have hkept : ∀ db : Host, closeFrame ⟨j'.length, n⟩ done.status db = .ok db :=
        fun db => if_neg fun h => h (afterInit_ok hafter).2.1
      simp only [hregister]
      cases registerDeployedCode S msg.recipient r.output e₁.host with
      | error x => rfl
      | ok m =>
        simp only [Except.map, pure, Except.pure, closeResult, hkept]
        rfl

theorem starts_agree {b : Host} (hcall : call.Rebases) (hfaint : Faint es) :
    creation (startNested S call msg ⟨j.length, n⟩ e (b.onto (.CheckpointMarker :: j))) =
      creation (startTop S call { msg with inputData := [] } msg.inputData e (b.onto (es ++ .CheckpointMarker :: j')) >>=
        closeResult ⟨j'.length, n⟩) := by
  simp only [startNested, startTop, initCreateAccount_onto]
  cases b.initCreateAccount S.witness msg.sender msg.recipient msg.value with
  | error x => rfl
  | ok started =>
    obtain ⟨c, fresh⟩ := started
    cases fresh with
    | true =>
      have hinits := @inits_agree S call msg (setDb e c) es j j' n hcall hfaint
      refine hinits.trans (congrArg creation ?_)
      exact (bind_assoc _ _ _).symm
    | false => exact failures_agree (d := c) hfaint nofun rfl rfl

end started

def nestedCreateMessage (f : Frame) (value : Word) (a : Address) (gas stateGas : Int) (init : Bytes) : Message :=
  { createMessage f .Create value a gas stateGas init with depth := 0 }

def creationTx (f : Frame) (value : Word) (init : Bytes) : TxMessage := ⟨f.msg.recipient, none, value, init⟩

-- apply_pre_evm_accounting's bump of the sender's nonce, which is not logged.
def bumped (e : Env World) (idx : Nat) : Env World :=
  setDb e (e.host.db.setNonceAt idx ((e.host.db.accounts idx).nonce + 1) e.host.db.txCounter)

section creations

variable {f : Frame} {value : Word} {gas stateGas : Int} {init : Bytes} {n idx : Nat}

theorem call_create (hdepth : msg.depth = 0) (hkind : msg.kind = .Create) (hdelegated : msg.isDelegated = false)
    (hcode : S.witness.isPrecompile msg.codeAddress = false) (hpending : e.host.db.balPending = .None) :
    Execution.call S (n + 1) msg e = callCreate S (Execution.call S n) msg (setDb e e.host.db.checkpoint.1) := by
  have hcommit : e.host.db.balCommitPending = .ok e.host.db := by simp only [Host.balCommitPending, hpending]
  have hshallow : ¬ kMaxCallDepth < msg.depth := by rw [hdepth]; exact Nat.not_lt_zero _
  simp only [Execution.call, if_neg hshallow, hcommit, hkind, hdelegated, hcode]
  rfl

theorem createMessage_top (a : Address) : { nestedCreateMessage f value a gas stateGas init with inputData := [] } =
    topCreateMessage (creationTx f value init) a gas stateGas := by
  have hzero : (List.Vector.replicate 20 0 : Address) = addressOf 0 := rfl
  simp only [nestedCreateMessage, createMessage, topCreateMessage, creationTx, hzero]

def bumpedTables (h : Host) (idx : Nat) : Host :=
  { h.setNonceAt idx ((h.accounts idx).nonce + 1) h.txCounter with journal := [] }

theorem nested_started (hi : S.witness.accountRow msg.sender = .ok idx)
    (hmax : (e.host.db.accounts idx).nonce ≠ 0xffffffffffffffff) :
    ∃ bump : Entry, callCreate S call msg (setDb e e.host.db.checkpoint.1) =
      (bumpedTables e.host.db idx).warmNew S.witness msg.recipient >>= fun b₁ =>
        startNested S call msg
          ⟨(b₁.journal ++ bump :: .CheckpointMarker :: e.host.db.journal).length, b₁.currentLogs.length⟩ e
          (({ b₁ with journal := [] } : Host).onto
            (.CheckpointMarker :: (b₁.journal ++ bump :: .CheckpointMarker :: e.host.db.journal))) := by
  let bump : Entry := .Nonce idx (e.host.db.accounts idx).nonce (e.host.db.accounts idx).lastTx
  have hbumped : e.host.db.checkpoint.1.bumpNonce S.witness msg.sender =
      .ok ((bumpedTables e.host.db idx).onto (bump :: .CheckpointMarker :: e.host.db.journal), true) := by
    simp only [Host.bumpNonce, hi, bind, Except.bind]
    rw [if_neg (show ¬ (e.host.db.checkpoint.1.accounts idx).nonce = _ from hmax)]
    rfl
  refine ⟨bump, ?_⟩
  change e.host.db.checkpoint.1.bumpNonce S.witness msg.sender >>= _ = _
  rw [hbumped]
  change ((bumpedTables e.host.db idx).onto _).warmNew S.witness msg.recipient >>= _ = _
  rw [warmNew_onto, bind_ontoHost]
  rfl

theorem top_started {tx : TxMessage} {a : Address} (hto : tx.toAddr = none)
    (hi : S.witness.accountRow tx.sender = .ok idx)
    (ha : a = computeCreateAddress S.keccak tx.sender (e.host.db.accounts idx).nonce) :
    topLevelFrame S call tx gas stateGas (bumped e idx) =
      (bumpedTables e.host.db idx).warmNew S.witness a >>= fun b₁ =>
        startTop S call (topCreateMessage tx a gas stateGas) tx.data e
          (({ b₁ with journal := [] } : Host).onto (b₁.journal ++ .CheckpointMarker :: e.host.db.journal)) >>=
        closeResult ⟨e.host.db.journal.length, e.host.db.currentLogs.length⟩ := by
  have hnonce : ((bumped e idx).host.db.checkpoint.1.accounts idx).nonce - 1 = (e.host.db.accounts idx).nonce := by
    have hself : ((bumped e idx).host.db.checkpoint.1.accounts idx).nonce = (e.host.db.accounts idx).nonce + 1 :=
      congrArg Account.nonce (Function.update_self idx _ e.host.db.accounts)
    rw [hself, UInt64.add_sub_cancel]
  have haddress : computeCreateAddress S.keccak tx.sender
      (((bumped e idx).host.db.checkpoint.1.accounts idx).nonce - 1) = a := by rw [hnonce, ha]
  simp only [topLevelFrame, executeTopLevelMessage, hto, topLevelCreate, hi]
  change (((bumpedTables e.host.db idx).onto (.CheckpointMarker :: e.host.db.journal)).warmNew S.witness
      (computeCreateAddress S.keccak tx.sender (((bumped e idx).host.db.checkpoint.1.accounts idx).nonce - 1)) >>= fun db =>
        startTop S call (topCreateMessage tx (computeCreateAddress S.keccak tx.sender
          (((bumped e idx).host.db.checkpoint.1.accounts idx).nonce - 1)) gas stateGas) tx.data e db) >>= _ = _
  rw [haddress, warmNew_onto, bind_ontoHost, bind_assoc]
  rfl

theorem creations_agree (hzero : S.witness.isPrecompile (addressOf 0) = false) (hpending : e.host.db.balPending = .None)
    (hi : S.witness.accountRow f.msg.recipient = .ok idx)
    (hmax : (e.host.db.accounts idx).nonce ≠ 0xffffffffffffffff) :
    creation (Execution.call S (n + 1) (nestedCreateMessage f value
        (computeCreateAddress S.keccak f.msg.recipient (e.host.db.accounts idx).nonce) gas stateGas init) e) =
      creation (topLevelFrame S (Execution.call S n) (creationTx f value init) gas stateGas (bumped e idx)) := by
  generalize ha : computeCreateAddress S.keccak f.msg.recipient (e.host.db.accounts idx).nonce = a
  rw [call_create rfl rfl rfl hzero hpending, top_started rfl hi ha.symm]
  obtain ⟨bump, hnested⟩ := @nested_started S (Execution.call S n)
    (nestedCreateMessage f value a gas stateGas init) e idx hi hmax
  rw [hnested]
  change creation ((bumpedTables e.host.db idx).warmNew S.witness a >>= _) = _
  cases hwarm : (bumpedTables e.host.db idx).warmNew S.witness a with
  | error x => rfl
  | ok b₁ =>
    obtain ⟨hfaint, hreceipts⟩ := warmNew_faint rfl hwarm
    have hlogs : b₁.currentLogs = e.host.db.currentLogs := congrArg (List.headD · []) hreceipts
    have hstarts := @starts_agree S (Execution.call S n) (nestedCreateMessage f value a gas stateGas init) e b₁.journal
      (b₁.journal ++ bump :: .CheckpointMarker :: e.host.db.journal) e.host.db.journal b₁.currentLogs.length
      { b₁ with journal := [] } (call_rebases n) hfaint
    refine hstarts.trans ?_
    rw [hlogs]
    rfl

end creations

def FramesAgree (S : Setting) (n : Nat) (f : Frame) (args : CallArgs) (codeAddr : Address) (gas stateGas : Int)
    (input : Bytes) (e : Env World) : Prop :=
  CallsAgree S n f args codeAddr gas stateGas input e ∧
    ∀ idx, S.witness.accountRow f.msg.recipient = .ok idx → (e.host.db.accounts idx).nonce ≠ 0xffffffffffffffff →
      creation (Execution.call S (n + 1) (nestedCreateMessage f args.value
          (computeCreateAddress S.keccak f.msg.recipient (e.host.db.accounts idx).nonce) gas stateGas input) e) =
        creation (topLevelFrame S (Execution.call S n) (creationTx f args.value input) gas stateGas (bumped e idx))

-- Only the code that a call runs can differ: whether a delegation is followed, and whether a
-- precompile is looked for first.
theorem first_frame_agrees (S : Setting) (n : Nat) (f : Frame) (args : CallArgs) (codeAddr : Address)
    (gas stateGas : Int) (input : Bytes) (e : Env World) (hzero : S.witness.isPrecompile (addressOf 0) = false)
    (hstatic : f.msg.isStatic = false) (hentry : CallEntry S e.host args.dst codeAddr) :
    FramesAgree S n f args codeAddr gas stateGas input e ↔ FollowsAlike S e.host args.dst codeAddr := by
  have hcalls := @calls_agree_iff S e n codeAddr f args gas stateGas input hstatic hentry
  refine ⟨fun h => hcalls.mp h.1, fun halike => ⟨hcalls.mpr halike, fun idx hi hmax => ?_⟩⟩
  exact creations_agree hzero hentry.pending hi hmax

-- The second sample account delegates to the first, whose code is a STOP.
def delegatedHost : Host := (tinyHost.setCodeHashAt 0 (digestOf 2) 1).setCodeHashAt 1 (digestOf 1) 1

def delegatedCodes : CodeTable.Contracts :=
  { contracts := [⟨digestOf 1, [0xef, 0x01, 0x00] ++ (tinyAddress 0xaa).toList, .Input, none, false⟩,
      ⟨digestOf 2, [0x00], .Input, none, false⟩]
    index := fun hash => if hash = digestOf 1 then some 0 else if hash = digestOf 2 then some 1 else none
    staged := [] }

def delegatedEnv : Env World := ⟨⟨delegatedHost, delegatedCodes, tinyContext⟩, Memory.EVMMem.init⟩

-- The frame of the first account, which calls the second one.
def delegatedFrame (rev : Revision) : Frame := ⟨rev, { tinyCreate with recipient := tinyAddress 0xaa }, [0x00]⟩

def delegatedArgs : CallArgs := ⟨1000, tinyAddress 0xbb, 0, 0, 0, 0, 0⟩

theorem delegated_loaded (rev : Revision) (n : UInt8) (hn : n = 0xaa ∨ n = 0xbb) :
    ∃ idx, Loaded (tinySetting rev).witness delegatedEnv.host.db (tinyAddress n) idx := by
  obtain rfl | rfl := hn
  · exact ⟨0, rfl, rfl, nofun⟩
  · exact ⟨1, rfl, rfl, nofun⟩

theorem delegated_entry {rev : Revision} {codeAddr : Address}
    (hcalled : calledAddress (tinySetting rev) delegatedEnv.host (tinyAddress 0xbb) = .ok codeAddr) :
    CallEntry (tinySetting rev) delegatedEnv.host (tinyAddress 0xbb) codeAddr where
  pending := rfl
  called := hcalled
  loaded _ := delegated_loaded rev 0xbb (.inr rfl)
  delegate _ code d hcode hd := by
    cases hcode
    cases hd
    exact delegated_loaded rev 0xaa (.inl rfl)

theorem first_frame_agrees_delegated :
    CallEntry (tinySetting .Prague) delegatedEnv.host (tinyAddress 0xbb) (tinyAddress 0xaa) ∧
      FramesAgree (tinySetting .Prague) 1 (delegatedFrame .Prague) delegatedArgs (tinyAddress 0xaa) 1000 0 []
        delegatedEnv := by
  have hentry := @delegated_entry .Prague (tinyAddress 0xaa) rfl
  refine ⟨hentry, ?_⟩
  exact (first_frame_agrees _ 1 (delegatedFrame .Prague) delegatedArgs _ 1000 0 [] delegatedEnv rfl rfl hentry).mpr
    (.inl rfl)

-- Before Prague the transaction follows the delegation all the same, and the opcode runs into 0xef.
theorem first_frame_differs_in_berlin :
    CallEntry (tinySetting .Berlin) delegatedEnv.host (tinyAddress 0xbb) (tinyAddress 0xbb) ∧
      (topLevelFrame (tinySetting .Berlin) (Execution.call (tinySetting .Berlin) 1)
          (sameTx (delegatedFrame .Berlin) delegatedArgs []) 1000 0 delegatedEnv).map
            (fun r => (r.1.status, r.1.gasLeft)) = .ok (.Success, 1000) ∧
      (Execution.call (tinySetting .Berlin) 2
          (nestedMessage (delegatedFrame .Berlin) delegatedArgs (tinyAddress 0xbb) 1000 0 []) delegatedEnv).map
            (fun r => (r.1.status, r.1.gasLeft)) = .ok (.UndefinedInstruction, 0) ∧
      ¬ FramesAgree (tinySetting .Berlin) 1 (delegatedFrame .Berlin) delegatedArgs (tinyAddress 0xbb) 1000 0 []
        delegatedEnv := by
  have hentry := @delegated_entry .Berlin (tinyAddress 0xbb) rfl
  refine ⟨hentry, by decide +kernel, by decide +kernel, fun hagree => ?_⟩
  have hbodies := hagree.1.1
  revert hbodies
  decide +kernel

end Zeg.Execution
