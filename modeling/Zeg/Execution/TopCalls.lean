import Zeg.AccessList.Nets
import Zeg.Execution.Rebase
import Zeg.Execution.TopLevel
import Zeg.StateDB.Content

-- The call of a transaction against the call of an opcode.
namespace Zeg.Execution

open Base StateDB Zevm Function

variable {S : Setting} {call : Caller} {msg : Message} {e : Env World}

theorem handler_label (keccak : Bytes → Bytes32) (rev : Revision) (code : Bytes) (b : Bool) (a : Address)
    (op : Opcode) : handler keccak ⟨rev, { msg with isDelegated := b, codeAddress := a }, code⟩ op =
      handler keccak ⟨rev, msg, code⟩ op := by
  cases op <;> rfl

theorem dispatch_label (keccak : Bytes → Bytes32) (rev : Revision) (code : Bytes) (b : Bool) (a : Address) (n : Nat)
    (s : EvmState) : dispatch keccak ⟨rev, { msg with isDelegated := b, codeAddress := a }, code⟩ n s =
      dispatch keccak ⟨rev, msg, code⟩ n s := by
  induction n generalizing s with
  | zero => rfl
  | succ n ih => simp only [dispatch, instruction, handler_label, ih]

theorem runFrame_label (code : Bytes) (b : Bool) (a : Address) :
    runFrame S call { msg with isDelegated := b, codeAddress := a } code e = runFrame S call msg code e := by
  simp only [runFrame, run, dispatch_label]
  rfl

structure Loaded (w : Witness) (h : Host) (a : Address) (idx : Nat) : Prop where
  row : w.accountRow a = .ok idx
  warm : (h.accounts idx).lastTx = h.txCounter
  accessed : ∀ b, h.bal = some b → (b.accounts idx).accessed = true

def codeAt (S : Setting) (m : World) (a : Address) : Except String Bytes := do
  let idx ← S.witness.accountRow a
  m.codeOf (m.db.accounts idx).codeHash

section loaded

variable {w : Witness} {h h' : Host} {a src dst : Address} {idx : Nat} {v : Word}

theorem balAccess_of_accessed (haccessed : ∀ b, h.bal = some b → (b.accounts idx).accessed = true) :
    h.balAccessAt idx = h := by
  cases hbal : h.bal with
  | none =>
    obtain ⟨⟩ := h
    cases hbal
    rfl
  | some b =>
    have hmark : { b.accounts idx with accessed := true } = b.accounts idx := by
      rw [← haccessed b hbal]
    have hsame : b.accessAccount idx = b := by
      unfold AccessList.BlockAccessList.accessAccount
      rw [hmark, update_eq_self]
    obtain ⟨⟩ := h
    cases hbal
    exact congrArg (fun b => Host.mk _ _ _ _ _ _ _ _ _ _ _ _ (some b) _) hsame

theorem codeAndEntry_loaded (hl : Loaded w h a idx) : h.codeAndEntry w a = .ok (h, (h.accounts idx).codeHash) := by
  have htouch : h.markTouchedAt idx h.txCounter = h := if_neg (by rw [hl.warm]; exact Nat.lt_irrefl _)
  simp only [Host.codeAndEntry, Host.loadAccount, hl.row, htouch, balAccess_of_accessed hl.accessed, bind, Except.bind,
    pure, Except.pure]

theorem codeOfAccount_loaded (hl : Loaded S.witness e.host.db a idx) :
    codeOfAccount S a e = (codeAt S e.host a).map (·, e) := by
  simp only [codeOfAccount, codeAt, codeAndEntry_loaded hl, hl.row, bind, Except.bind]
  cases e.host.codeOf (e.host.db.accounts idx).codeHash <;> rfl

-- The parts of a row that a transfer of value keeps.
structure Keeps (w : Witness) (h h' : Host) : Prop where
  loaded : ∀ {a idx}, Loaded w h a idx → Loaded w h' a idx
  codeHash : ∀ idx, (h'.accounts idx).codeHash = (h.accounts idx).codeHash

theorem Keeps.trans {h'' : Host} (hx : Keeps w h h') (hy : Keeps w h' h'') : Keeps w h h'' :=
  ⟨fun hl => hy.loaded (hx.loaded hl), fun idx => (hy.codeHash idx).trans (hx.codeHash idx)⟩

theorem keeps_setBalance (k : Nat) (v : Word) : Keeps w h (h.setBalanceAt k v h.txCounter) where
  loaded {a idx} hl := by
    refine ⟨hl.row, ?_, fun b hb => ?_⟩
    · by_cases hk : idx = k
      · subst hk
        exact congrArg Account.lastTx (update_self idx _ h.accounts)
      · exact (congrArg Account.lastTx (update_of_ne hk _ h.accounts)).trans hl.warm
    · obtain ⟨b₀, hb₀, rfl⟩ := Option.map_eq_some_iff.mp hb
      by_cases hk : idx = k
      · subst hk
        exact b₀.accessed_beforeWrite ..
      · rw [b₀.beforeWrite_of_ne _ _ _ _ hk]
        exact hl.accessed b₀ hb₀
  codeHash idx := by
    by_cases hk : idx = k
    · subst hk
      exact (congrArg Account.codeHash (update_self idx _ h.accounts)).trans rfl
    · exact congrArg Account.codeHash (update_of_ne hk _ h.accounts)

theorem keeps_commit (hc : h.balCommitPending = .ok h') : Keeps w h h' := by
  unfold Host.balCommitPending at hc
  split at hc
  · cases hc
    exact ⟨id, fun _ => rfl⟩
  · cases hc
  · next k _ =>
    cases hc
    refine ⟨fun {a idx} hl => ⟨hl.row, hl.warm, fun b hb => ?_⟩, fun _ => rfl⟩
    obtain ⟨b₀, hb₀, rfl⟩ := Option.map_eq_some_iff.mp hb
    by_cases hk : idx = k
    · subst hk
      exact congrArg AccessList.AccountRecord.accessed (update_self idx _ b₀.accounts)
    · exact (congrArg AccessList.AccountRecord.accessed (update_of_ne hk _ b₀.accounts)).trans
        (hl.accessed b₀ hb₀)

theorem keeps_setLogs (logs : List LogEntry) : Keeps w h (h.setLogs logs) := by
  unfold Host.setLogs
  split
  · exact ⟨id, fun _ => rfl⟩
  · exact ⟨fun hl => ⟨hl.row, hl.warm, hl.accessed⟩, fun _ => rfl⟩

theorem keeps_emitLog {entry : LogEntry} (hc : h.emitLog entry = .ok h') : Keeps w h h' := by
  simp only [Host.emitLog, bind_eq_ok] at hc
  obtain ⟨g, hg, hret⟩ := hc
  refine (keeps_commit hg).trans ?_
  cases hret
  split
  · exact ⟨id, fun _ => rfl⟩
  · exact keeps_setLogs _

theorem keeps_transfer (hc : h.transferValue w src dst v = .ok h') : Keeps w h h' := by
  simp only [Host.transferValue, bind_eq_ok] at hc
  obtain ⟨i, -, k, -, hret⟩ := hc
  split at hret
  · cases hret
    exact ⟨id, fun _ => rfl⟩
  · have hlogged : Keeps w h ((h.logBalance i).logBalance k) :=
      ⟨fun hl => ⟨hl.row, hl.warm, hl.accessed⟩, fun _ => rfl⟩
    have hdebited := hlogged.trans (keeps_setBalance i ((h.accounts i).balance - v))
    refine (hdebited.trans (keeps_setBalance k ((h.accounts k).balance + v))).trans ?_
    unfold Host.emitTransferLog at hret
    split at hret
    · cases hret
      exact ⟨id, fun _ => rfl⟩
    · exact keeps_emitLog hret

theorem keeps_send (hc : sendValue S msg h = .ok h') : Keeps S.witness h h' := by
  unfold sendValue at hc
  split at hc
  · exact keeps_transfer hc
  · cases hc
    exact ⟨id, fun _ => rfl⟩

end loaded

inductive Body where
  | Precompile (a : Address)
  | Code (code : Bytes)
deriving DecidableEq

-- call_impl's code_addr
def calledAddress (S : Setting) (m : World) (dst : Address) : Except String Address :=
  if S.witness.revision.atLeast .Prague then
    (codeAt S m dst).map fun code => (delegateOf (code.take 23)).getD dst
  else .ok dst

def topBody (S : Setting) (m : World) (dst : Address) : Except String Body :=
  if S.witness.isPrecompile dst then .ok (.Precompile dst)
  else do
    let code ← codeAt S m dst
    match topDelegate code with
    | none => return .Code code
    | some delegate => (codeAt S m delegate).map .Code

def nestedBody (S : Setting) (m : World) (dst codeAddr : Address) : Except String Body :=
  if codeAddr = dst ∧ S.witness.isPrecompile dst = true then .ok (.Precompile dst)
  else (codeAt S m codeAddr).map .Code

-- The frame of the host around a body.
def runBody (S : Setting) (call : Caller) (msg : Message) (e : Env World) : Body → Except String (Result × Env World)
  | .Precompile a => do
    let db ← loadCalled S a e.host.db
    let (db, cp) := db.checkpoint
    let db ← sendValue S msg db
    let db ← closeFrame cp (callPrecompileDispatch S msg).status db
    return (callPrecompileDispatch S msg, setDb e db)
  | .Code code => do
    let (db, cp) := e.host.db.checkpoint
    let db ← sendValue S msg db
    let (r, e) ← runFrame S call msg code (setDb e db)
    let db ← closeFrame cp r.status e.host.db
    return (r, setDb e db)

-- What is left of a frame: its result and the tables, without the way back.
def outcome (x : Except String (Result × Env World)) : Option (Result × Env World) :=
  x.toOption.map fun r => (r.1, setDb r.2 { r.2.host.db with journal := [] })

section bodies

variable {n : Nat} {dst codeAddr : Address} {tx : TxMessage} {gas stateGas : Int}

-- Loading is not logged, so it does not matter on which side of the checkpoint it is.
theorem loadCalled_checkpoint (a : Address) (h : Host) :
    loadCalled S a h.checkpoint.1 = (loadCalled S a h).map fun db => db.checkpoint.1 := by
  unfold loadCalled
  change (if h.bal.isSome = true then _ else _) = _
  split
  · simp only [Host.balLoad]
    cases S.witness.accountRow a <;> rfl
  · rfl

theorem loadCalled_mark {a : Address} {h db : Host} (hload : loadCalled S a h = .ok db) :
    db.checkpoint.2 = h.checkpoint.2 := by
  unfold loadCalled at hload
  split at hload
  · simp only [Host.balLoad, bind_eq_ok] at hload
    obtain ⟨idx, -, hret⟩ := hload
    cases hret
    rfl
  · cases hload
    rfl

theorem loaded_checkpoint {h : Host} {a : Address} {idx : Nat} (hl : Loaded S.witness h a idx) :
    Loaded S.witness h.checkpoint.1 a idx := ⟨hl.row, hl.warm, hl.accessed⟩

theorem entryCode_loaded (hdst : ∃ idx, Loaded S.witness e.host.db dst idx)
    (hdelegate : ∀ code d, codeAt S e.host dst = .ok code → topDelegate code = some d →
      ∃ idx, Loaded S.witness e.host.db d idx) :
    entryCode S dst e = codeAt S e.host dst >>= fun code =>
      match topDelegate code with
      | none => .ok ((dst, code), e)
      | some d => (codeAt S e.host d).map fun c => ((d, c), e) := by
  obtain ⟨idx, hidx⟩ := hdst
  simp only [entryCode, codeOfAccount_loaded hidx]
  cases hcode : codeAt S e.host dst with
  | error x => rfl
  | ok code =>
    simp only [Except.map, bind, Except.bind]
    cases hd : topDelegate code with
    | none => rfl
    | some d =>
      obtain ⟨k, hk⟩ := hdelegate code d hcode hd
      simp only [codeOfAccount_loaded hk]
      cases codeAt S e.host d <;> rfl

theorem topFrame_body (hto : tx.toAddr = some dst)
    (hloaded : S.witness.isPrecompile dst = false → (∃ idx, Loaded S.witness e.host.db dst idx) ∧
      ∀ code d, codeAt S e.host dst = .ok code → topDelegate code = some d → ∃ idx, Loaded S.witness e.host.db d idx) :
    topLevelFrame S call tx gas stateGas e =
      topBody S e.host dst >>= runBody S call (topCallMessage tx dst dst gas stateGas) e := by
  simp only [topLevelFrame, executeTopLevelMessage, hto, topLevelCall, topBody]
  by_cases hpre : S.witness.isPrecompile dst = true
  · simp only [hpre, if_true]
    change (loadCalled S dst e.host.db.checkpoint.1 >>= _) >>= _ = runBody S call _ e (.Precompile dst)
    rw [loadCalled_checkpoint]
    simp only [runBody]
    cases hload : loadCalled S dst e.host.db with
    | error x => rfl
    | ok db =>
      simp only [loadCalled_mark hload, Except.map, bind, Except.bind]
      cases sendValue S (topCallMessage tx dst dst gas stateGas) db.checkpoint.1 <;> rfl
  · obtain ⟨hdst, hdelegate⟩ := hloaded (Bool.not_eq_true _ ▸ hpre)
    have hentry := @entryCode_loaded S (setDb e e.host.db.checkpoint.1) dst
      (hdst.imp fun _ => loaded_checkpoint) fun code d hcode hd => (hdelegate code d hcode hd).imp fun _ => loaded_checkpoint
    have hcode : ∀ a, codeAt S (setDb e e.host.db.checkpoint.1).host a = codeAt S e.host a := fun _ => rfl
    -- the lookups come first on both sides, and what is left is the frame of the code found
    have hframe : ∀ a c, ((sendValue S (topCallMessage tx dst dst gas stateGas) e.host.db.checkpoint.1 >>= fun db =>
        runFrame S call { topCallMessage tx dst dst gas stateGas with codeAddress := a } c (setDb e db)) >>= fun r =>
          closeFrame e.host.db.checkpoint.2 r.1.status r.2.host.db >>= fun db => pure (r.1, setDb r.2 db)) =
        runBody S call (topCallMessage tx dst dst gas stateGas) e (.Code c) := by
      intro a c
      have hlabel : ∀ db, runFrame S call { topCallMessage tx dst dst gas stateGas with codeAddress := a } c (setDb e db) =
          runFrame S call (topCallMessage tx dst dst gas stateGas) c (setDb e db) := fun db => runFrame_label c false a
      simp only [hlabel, runBody, bind_assoc]
    simp only [hpre, hentry, hcode, Bool.false_eq_true, if_false]
    cases codeAt S e.host dst with
    | error x => rfl
    | ok code =>
      simp only [bind, Except.bind]
      cases topDelegate code with
      | none => exact hframe dst code
      | some d =>
        dsimp only
        cases codeAt S e.host d with
        | error x => rfl
        | ok c => exact hframe d c

theorem close_checkpoint (status : StatusCode) (h : Host) :
    ∃ h', closeFrame h.checkpoint.2 status h.checkpoint.1 = .ok h' ∧
      { h' with journal := [] } = { h with journal := [] } := by
  unfold closeFrame
  split
  · exact ⟨h, rollback_checkpoint h, rfl⟩
  · exact ⟨_, rfl, rfl⟩

def nestedMessage (f : Frame) (args : CallArgs) (codeAddr : Address) (gas stateGas : Int) (input : Bytes) : Message :=
  { callMessage f .Call false args codeAddr gas stateGas input with depth := 0 }

def sameTx (f : Frame) (args : CallArgs) (input : Bytes) : TxMessage :=
  ⟨f.msg.recipient, some args.dst, args.value, input⟩

section nested

variable {f : Frame} {args : CallArgs} {input : Bytes}

theorem nestedMessage_eq (hstatic : f.msg.isStatic = false) :
    nestedMessage f args codeAddr gas stateGas input =
      { topCallMessage (sameTx f args input) args.dst args.dst gas stateGas with
        isDelegated := codeAddr ≠ args.dst, codeAddress := codeAddr } := by
  simp only [nestedMessage, callMessage, topCallMessage, sameTx, hstatic, Bool.or_false, if_true, reduceCtorEq, if_false]

-- A precompile's frame: without a value there is no checkpoint, and nothing to take back.
theorem callPrecompile_body (hkind : msg.kind = .Call) :
    outcome (callPrecompile S msg e) = outcome (runBody S call msg e (.Precompile msg.codeAddress)) := by
  simp only [callPrecompile, runBody, hkind, true_and]
  cases loadCalled S msg.codeAddress e.host.db with
  | error x => rfl
  | ok db =>
    simp only [bind, Except.bind]
    by_cases hv : msg.value = 0
    · have hsend : sendValue S msg db.checkpoint.1 = .ok db.checkpoint.1 := if_neg fun h => h.2 hv
      obtain ⟨h', hclose, hsame⟩ := close_checkpoint (callPrecompileDispatch S msg).status db
      simp only [hv, ne_eq, not_true_eq_false, if_false, hsend, hclose]
      exact congrArg (fun db => some (callPrecompileDispatch S msg, setDb e db)) hsame.symm
    · simp only [hv, ne_eq, not_false_eq_true, if_true]

-- The frame of an account's code: the transfer does not touch the code that is run.
theorem callCode_body {idx : Nat} (hl : Loaded S.witness e.host.db msg.codeAddress idx) :
    outcome (callCode S call msg e) =
      outcome ((codeAt S e.host msg.codeAddress).map Body.Code >>= runBody S call msg e) := by
  simp only [callCode]
  cases hsend : sendValue S msg e.host.db.checkpoint.1 with
  | error x =>
    cases codeAt S e.host msg.codeAddress with
    | error y => rfl
    | ok code => simp only [Except.map, bind, Except.bind, runBody, hsend]
  | ok db =>
    have hkeeps : Keeps S.witness e.host.db.checkpoint.1 db := keeps_send hsend
    have hentry := codeAndEntry_loaded (hkeeps.loaded (loaded_checkpoint hl))
    have hhash : (db.accounts idx).codeHash = (e.host.db.accounts idx).codeHash := hkeeps.codeHash idx
    have hcode : codeAt S e.host msg.codeAddress = e.host.codeOf (db.accounts idx).codeHash := by
      rw [hhash]
      simp only [codeAt, hl.row, bind, Except.bind]
    simp only [bind, Except.bind, hentry, hcode]
    cases e.host.codeOf (db.accounts idx).codeHash with
    | error y => rfl
    | ok code => simp only [Except.map, runBody, hsend, bind, Except.bind]

theorem runBody_label (b : Bool) (a : Address) (code : Bytes) :
    runBody S call { msg with isDelegated := b, codeAddress := a } e (.Code code) = runBody S call msg e (.Code code) := by
  have hsend : ∀ db, sendValue S { msg with isDelegated := b, codeAddress := a } db = sendValue S msg db := fun _ => rfl
  have hrun : ∀ e, runFrame S call { msg with isDelegated := b, codeAddress := a } code e = runFrame S call msg code e :=
    fun _ => runFrame_label code b a
  simp only [runBody, hsend, hrun]

theorem call_nested (hdepth : msg.depth = 0) (hkind : msg.kind = .Call) (hpending : e.host.db.balPending = .None) :
    Execution.call S (n + 1) msg e =
      if !msg.isDelegated && S.witness.isPrecompile msg.codeAddress then callPrecompile S msg e
      else callCode S (Execution.call S n) msg e := by
  have hcommit : e.host.db.balCommitPending = .ok e.host.db := by simp only [Host.balCommitPending, hpending]
  have hshallow : ¬ kMaxCallDepth < msg.depth := by rw [hdepth]; exact Nat.not_lt_zero _
  simp only [Execution.call, if_neg hshallow, hcommit, hkind]
  rfl

theorem nestedCall_body (hstatic : f.msg.isStatic = false) (hpending : e.host.db.balPending = .None)
    (hloaded : ¬ (codeAddr = args.dst ∧ S.witness.isPrecompile args.dst = true) →
      ∃ idx, Loaded S.witness e.host.db codeAddr idx) :
    outcome (Execution.call S (n + 1) (nestedMessage f args codeAddr gas stateGas input) e) =
      outcome (nestedBody S e.host args.dst codeAddr >>= runBody S (Execution.call S n)
        (topCallMessage (sameTx f args input) args.dst args.dst gas stateGas) e) := by
  rw [call_nested rfl rfl hpending, nestedMessage_eq hstatic]
  unfold nestedBody
  by_cases hpre : codeAddr = args.dst ∧ S.witness.isPrecompile args.dst = true
  · obtain ⟨rfl, hdst⟩ := hpre
    simp only [ne_eq, not_true_eq_false, decide_false, Bool.not_false, hdst, Bool.and_self, if_true, and_self]
    exact @callPrecompile_body S (Execution.call S n) _ e rfl
  · have hrun : (!decide (codeAddr ≠ args.dst) && S.witness.isPrecompile codeAddr) = false := by
      rw [Bool.and_eq_false_imp]
      intro hsame
      have heq : codeAddr = args.dst := by simpa using hsame
      rw [heq]
      exact Bool.not_eq_true _ ▸ fun hdst => hpre ⟨heq, hdst⟩
    obtain ⟨idx, hl⟩ := hloaded hpre
    rw [if_neg hpre]
    simp only [hrun, Bool.false_eq_true, if_false]
    rw [callCode_body hl]
    cases codeAt S e.host codeAddr with
    | error x => rfl
    | ok code => exact congrArg outcome (runBody_label _ _ code)

end nested

end bodies

-- Where the frame of a call is entered: no access waits for its payment, the opcode has resolved
-- its target, and the accounts whose code is read are loaded. A precompile has no code to read.
structure CallEntry (S : Setting) (m : World) (dst codeAddr : Address) : Prop where
  pending : m.db.balPending = .None
  called : calledAddress S m dst = .ok codeAddr
  loaded : S.witness.isPrecompile dst = false → ∃ idx, Loaded S.witness m.db dst idx
  delegate : S.witness.isPrecompile dst = false → ∀ code d, codeAt S m dst = .ok code → topDelegate code = some d →
    ∃ idx, Loaded S.witness m.db d idx

def CallsAgree (S : Setting) (n : Nat) (f : Frame) (args : CallArgs) (codeAddr : Address) (gas stateGas : Int)
    (input : Bytes) (e : Env World) : Prop :=
  topBody S e.host args.dst = nestedBody S e.host args.dst codeAddr ∧
    outcome (topLevelFrame S (Execution.call S n) (sameTx f args input) gas stateGas e) =
      outcome (Execution.call S (n + 1) (nestedMessage f args codeAddr gas stateGas input) e)

-- A precompile is not delegated, and before Prague no code looks like a delegation to other code.
def FollowsAlike (S : Setting) (m : World) (dst codeAddr : Address) : Prop :=
  if S.witness.isPrecompile dst then codeAddr = dst
  else S.witness.revision.atLeast .Prague = true ∨
    ∀ code d, codeAt S m dst = .ok code → topDelegate code = some d → codeAt S m d = .ok code

section alike

variable {n : Nat} {m : World} {dst codeAddr : Address} {f : Frame} {args : CallArgs} {gas stateGas : Int} {input : Bytes}

theorem bodies_of_prague (hpre : S.witness.isPrecompile dst = false) (hrev : S.witness.revision.atLeast .Prague = true)
    (hcalled : calledAddress S m dst = .ok codeAddr) : topBody S m dst = nestedBody S m dst codeAddr := by
  rw [calledAddress, if_pos hrev] at hcalled
  obtain ⟨code, hcode, rfl⟩ := map_eq_ok.mp hcalled
  simp only [topBody, nestedBody, hpre, Bool.false_eq_true, and_false, if_false, hcode, bind, Except.bind, topDelegate_eq]
  cases delegateOf (code.take 23) with
  | none => simp only [Option.getD_none, hcode, Except.map, pure, Except.pure]
  | some d => rfl

theorem bodies_before_prague (hpre : S.witness.isPrecompile dst = false)
    (hrev : ¬ S.witness.revision.atLeast .Prague = true) (hcalled : calledAddress S m dst = .ok codeAddr) :
    topBody S m dst = nestedBody S m dst codeAddr ↔
      ∀ code d, codeAt S m dst = .ok code → topDelegate code = some d → codeAt S m d = .ok code := by
  rw [calledAddress, if_neg hrev] at hcalled
  cases hcalled
  simp only [topBody, nestedBody, hpre, Bool.false_eq_true, and_false, if_false]
  cases codeAt S m dst with
  | error x => exact ⟨fun _ _ _ h => (nomatch h), fun _ => rfl⟩
  | ok code =>
    simp only [bind, Except.bind, Except.map, Except.ok.injEq]
    cases hd : topDelegate code with
    | none =>
      refine ⟨fun _ c d hc hcd => ?_, fun _ => rfl⟩
      rw [← hc, hd] at hcd
      cases hcd
    | some d =>
      refine ⟨fun hsame c d' hc hcd => ?_, fun hall => ?_⟩
      · rw [← hc, hd] at hcd
        cases hcd
        obtain ⟨own, hown, hbody⟩ := map_eq_ok.mp hsame
        cases hbody
        rw [hown, hc]
      · dsimp only
        rw [hall code d rfl hd]

theorem bodies_iff (hcalled : calledAddress S m dst = .ok codeAddr) :
    topBody S m dst = nestedBody S m dst codeAddr ↔ FollowsAlike S m dst codeAddr := by
  unfold FollowsAlike
  by_cases hpre : S.witness.isPrecompile dst = true
  · simp only [topBody, nestedBody, hpre, if_true, and_true]
    by_cases hsame : codeAddr = dst
    · simp only [hsame, if_true]
    · simp only [hsame, if_false, iff_false]
      cases codeAt S m codeAddr <;> exact nofun
  · rw [if_neg hpre]
    have hpre' : S.witness.isPrecompile dst = false := Bool.not_eq_true _ ▸ hpre
    by_cases hrev : S.witness.revision.atLeast .Prague = true
    · exact ⟨fun _ => .inl hrev, fun _ => bodies_of_prague hpre' hrev hcalled⟩
    · exact (bodies_before_prague hpre' hrev hcalled).trans ⟨.inr, fun h => h.resolve_left hrev⟩

-- What the opcode runs is loaded: its target, or from Prague on the target's delegate.
theorem CallEntry.target (hentry : CallEntry S m dst codeAddr) (hpre : S.witness.isPrecompile dst = false) :
    ∃ idx, Loaded S.witness m.db codeAddr idx := by
  have hcalled := hentry.called
  unfold calledAddress at hcalled
  split at hcalled
  · obtain ⟨code, hcode, rfl⟩ := map_eq_ok.mp hcalled
    cases hd : delegateOf (code.take 23) with
    | none => exact hentry.loaded hpre
    | some d => exact hentry.delegate hpre code d hcode (by rw [topDelegate_eq, hd])
  · cases hcalled
    exact hentry.loaded hpre

theorem calls_agree_iff (hstatic : f.msg.isStatic = false) (hentry : CallEntry S e.host args.dst codeAddr) :
    CallsAgree S n f args codeAddr gas stateGas input e ↔ FollowsAlike S e.host args.dst codeAddr := by
  refine ⟨fun h => (bodies_iff hentry.called).mp h.1, fun halike => ?_⟩
  have hbodies := (bodies_iff hentry.called).mpr halike
  refine ⟨hbodies, ?_⟩
  have htop := @topFrame_body S (Execution.call S n) e args.dst (sameTx f args input) gas stateGas rfl
    fun hpre => ⟨hentry.loaded hpre, hentry.delegate hpre⟩
  rw [htop, hbodies]
  refine (nestedCall_body hstatic hentry.pending fun hcode => hentry.target ?_).symm
  by_contra hpre
  have hdst : S.witness.isPrecompile args.dst = true := Bool.not_eq_false _ ▸ hpre
  rw [FollowsAlike, if_pos hdst] at halike
  exact hcode ⟨halike, hdst⟩

end alike

end Zeg.Execution
