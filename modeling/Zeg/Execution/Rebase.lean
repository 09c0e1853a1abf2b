import Zeg.Execution
import Zeg.StateDB.Rebase

-- Frames and calls on top of an older journal.
namespace Zeg.Execution

open Base StateDB Zevm

def ontoEnv (j : List Entry) (e : Env World) : Env World := setDb e (e.host.db.onto j)

def ontoRun {α : Type} (j : List Entry) (x : Except String (α × Env World)) : Except String (α × Env World) :=
  x.map fun r => (r.1, ontoEnv j r.2)

def Caller.Rebases (call : Caller) : Prop := ∀ j msg e, call msg (ontoEnv j e) = ontoRun j (call msg e)

variable {S : Setting} {call : Caller} {msg : Message} {e : Env World} {j : List Entry} {α : Type}

section answers

variable {m : World}

theorem onTables_onto {x y : Except String (Host × α)} (h : x = ontoResult j y) :
    onTables { m with db := m.db.onto j } x = (onTables m y).map fun r => (r.1, { r.2 with db := r.2.db.onto j }) := by
  rw [h]
  cases y <;> rfl

theorem answer_onto (q : Query) : answer S q { m with db := m.db.onto j } =
    (answer S q m).map fun r => (r.1, { r.2 with db := r.2.db.onto j }) := by
  cases q with
  | AccountExists a => exact onTables_onto (accountExists_onto a)
  | GetStorage key => exact onTables_onto (getStorage_onto key)
  | SetStorage key v => exact onTables_onto (setStorage_onto key v)
  | GetBalance a => exact onTables_onto (getBalance_onto a)
  | GetNonce a => exact onTables_onto (getNonce_onto a)
  | GetCodeHash a => exact onTables_onto (getCodeHash_onto a)
  | Selfdestruct a b => exact onTables_onto (selfdestruct_onto a b)
  | AccessAccount a => exact onTables_onto (accessAccount_onto a)
  | AccessStorage key => exact onTables_onto (accessStorage_onto key)
  | GetTransientStorage key => exact onTables_onto (getTransientStorage_onto key)
  | SetTransientStorage key v =>
    refine onTables_onto ((congrArg (Except.map _) (setTransientStorage_onto key v)).trans ?_)
    exact map_ontoHost fun _ => rfl
  | EmitLog entry =>
    refine onTables_onto ((congrArg (Except.map _) (emitLog_onto entry)).trans ?_)
    exact map_ontoHost fun _ => rfl
  | GetTxContext =>
    refine onTables_onto ((congrArg (Except.map _) commit_onto).trans ?_)
    exact map_ontoHost fun _ => rfl
  | GetCodeSize a =>
    simp only [answer, copyCode_onto, bind_ontoResult]
    cases m.db.copyCode S.witness a with
    | error x => rfl
    | ok r =>
      change m.codeOf r.2 >>= _ = Except.map _ (m.codeOf r.2 >>= _)
      cases m.codeOf r.2 <;> rfl
  | CopyCode a offset size =>
    simp only [answer, copyCode_onto, bind_ontoResult]
    cases m.db.copyCode S.witness a with
    | error x => rfl
    | ok r =>
      change m.codeOf r.2 >>= _ = Except.map _ (m.codeOf r.2 >>= _)
      cases m.codeOf r.2 <;> rfl
  | GetBlockHash n =>
    simp only [answer, commit_onto, bind_ontoHost]
    cases m.db.balCommitPending with
    | error x => rfl
    | ok db => cases Ancestors.getBlockHash S.ancestors S.number n <;> rfl

end answers

theorem serve_onto (hcall : call.Rebases) (q : Request) (e : Env World) :
    (host S call).serve q (ontoEnv j e) = ontoRun j ((host S call).serve q e) := by
  cases q with
  | Host q =>
    refine (congrArg (Except.map _) (answer_onto q)).trans ?_
    change Except.map _ (Except.map _ (answer S q e.host)) = Except.map _ (Except.map _ (answer S q e.host))
    cases answer S q e.host <;> rfl
  | Mem q => rfl
  | Call msg => exact hcall j msg e

theorem runFrame_onto (hcall : call.Rebases) (code : Bytes) :
    runFrame S call msg code (ontoEnv j e) = ontoRun j (runFrame S call msg code e) := by
  unfold runFrame
  rw [Program.run_map (F := ontoEnv j) fun q x => serve_onto hcall q x]
  cases (run S.keccak ⟨S.witness.revision, msg, code⟩ (msg.gas.toNat + 1)).run (host S call).serve e with
  | error x => rfl
  | ok r =>
    obtain ⟨done, e₁⟩ := r
    cases done with
    | none => rfl
    | some r =>
      change (e₁.host.db.onto j).endFrame _ >>= _ = _
      rw [endFrame_onto, bind_ontoHost]
      change _ = ontoRun j (e₁.host.db.endFrame _ >>= _)
      cases e₁.host.db.endFrame (r.status ≠ .Success && r.status ≠ .Revert) <;> rfl

theorem loadCalled_onto {h : Host} (a : Address) : loadCalled S a (h.onto j) = ontoHost j (loadCalled S a h) := by
  unfold loadCalled
  change (if h.bal.isSome = true then _ else _) = _
  split
  · exact balLoad_onto a
  · rfl

theorem sendValue_onto {h : Host} : sendValue S msg (h.onto j) = ontoHost j (sendValue S msg h) := by
  unfold sendValue
  split
  · exact transferValue_onto _ _ _
  · rfl

theorem closeFrame_onto {h : Host} (cp : Checkpoint) (status : StatusCode) :
    closeFrame (cp.onto j) status (h.onto j) = ontoHost j (closeFrame cp status h) := by
  unfold closeFrame
  split
  · exact rollback_onto cp
  · rfl

-- The parts of call().

section sequencing

variable {β : Type} {x : Except String α} {y : Except String Host} {z : Except String (α × Env World)}

theorem ontoRun_bind {f : α → Except String (β × Env World)} : ontoRun j (x >>= f) = x >>= fun a => ontoRun j (f a) := by
  cases x <;> rfl

theorem bind_ontoRun {f : α × Env World → Except String β} :
    ontoRun j z >>= f = z >>= fun r => f (r.1, ontoEnv j r.2) := by
  cases z <;> rfl

end sequencing

theorem callPrecompile_onto : callPrecompile S msg (ontoEnv j e) = ontoRun j (callPrecompile S msg e) := by
  simp only [callPrecompile, ontoRun_bind]
  change loadCalled S msg.codeAddress (e.host.db.onto j) >>= _ = _
  rw [loadCalled_onto, bind_ontoHost]
  refine congrArg _ (funext fun db => ?_)
  split
  · rw [checkpoint_onto]
    simp only [sendValue_onto, bind_ontoHost, closeFrame_onto, ontoRun_bind]
    rfl
  · rfl

theorem callCode_onto (hcall : call.Rebases) : callCode S call msg (ontoEnv j e) = ontoRun j (callCode S call msg e) := by
  have hopen : (ontoEnv j e).host.db.checkpoint = _ := @checkpoint_onto e.host.db j
  simp only [callCode, ontoRun_bind, hopen, sendValue_onto, bind_ontoHost, codeAndEntry_onto, bind_ontoResult]
  refine congrArg _ (funext fun db => congrArg _ (funext fun entry => ?_))
  refine congrArg _ (funext fun code => ?_)
  change runFrame S call msg code (ontoEnv j (setDb e entry.1)) >>= _ = _
  rw [runFrame_onto hcall, bind_ontoRun]
  refine congrArg _ (funext fun r => ?_)
  change closeFrame _ _ (r.2.host.db.onto j) >>= _ = _
  rw [closeFrame_onto, bind_ontoHost]
  rfl

theorem register_onto {m : World} (a : Address) (code : Bytes) :
    registerDeployedCode S a code { m with db := m.db.onto j } =
      (registerDeployedCode S a code m).map fun m => { m with db := m.db.onto j } := by
  simp only [registerDeployedCode, registerDeployedCode_onto, bind_ontoHost]
  cases S.witness.accountRow a with
  | error x => rfl
  | ok idx => cases m.db.registerDeployedCode S.witness a (S.keccak code) <;> rfl

theorem runInit_onto (hcall : call.Rebases) (cp : Checkpoint) :
    runInit S call msg (cp.onto j) (ontoEnv j e) = ontoRun j (runInit S call msg cp e) := by
  simp only [runInit, runFrame_onto hcall, bind_ontoRun, ontoRun_bind]
  refine congrArg _ (funext fun r => ?_)
  cases afterInit S.witness.revision msg r.1 with
  | error failure =>
    change (r.2.host.db.onto j).rollback (cp.onto j) >>= _ = ontoRun j (r.2.host.db.rollback cp >>= _)
    rw [rollback_onto, bind_ontoHost, ontoRun_bind]
    rfl
  | ok done =>
    change registerDeployedCode S msg.recipient r.1.output { r.2.host with db := r.2.host.db.onto j } >>= _ =
      ontoRun j (registerDeployedCode S msg.recipient r.1.output r.2.host >>= _)
    rw [register_onto]
    cases registerDeployedCode S msg.recipient r.1.output r.2.host <;> rfl

theorem callCreate_onto (hcall : call.Rebases) :
    callCreate S call msg (ontoEnv j e) = ontoRun j (callCreate S call msg e) := by
  simp only [callCreate, ontoRun_bind]
  change (e.host.db.onto j).bumpNonce S.witness msg.sender >>= _ = _
  rw [bumpNonce_onto, bind_ontoResult]
  refine congrArg _ (funext fun bumped => ?_)
  split
  · simp only [warmNew_onto, bind_ontoHost, checkpoint_onto, initCreateAccount_onto, bind_ontoResult, ontoRun_bind]
    refine congrArg _ (funext fun db => congrArg _ (funext fun fresh => ?_))
    split
    · exact @runInit_onto S call msg (setDb e fresh.1) j hcall db.checkpoint.2
    · rw [rollback_onto, bind_ontoHost, ontoRun_bind]
      rfl
  · rfl

theorem call_rebases (n : Nat) : (Execution.call S n).Rebases := by
  induction n with
  | zero => exact fun _ _ _ => rfl
  | succ n ih =>
    intro j msg e
    simp only [Execution.call]
    split
    · rfl
    · change (e.host.db.onto j).balCommitPending >>= _ = ontoRun j (e.host.db.balCommitPending >>= _)
      rw [commit_onto, bind_ontoHost, ontoRun_bind]
      refine congrArg _ (funext fun db => ?_)
      split
      · exact @callPrecompile_onto S msg (setDb e db) j
      · cases msg.kind with
        | Create | Create2 => exact @callCreate_onto S _ msg (setDb e db.checkpoint.1) j ih
        | Call | Callcode | Delegatecall => exact @callCode_onto S _ msg (setDb e db) j ih

end Zeg.Execution
