import Zeg.Execution
import Zeg.Execution.Flow
import Zeg.Zevm.Accesses
import Zeg.Zevm.Theorems

-- The frames of a call tree, run by the host on its own tables.
namespace Zeg.Execution

open Base StateDB Zevm
open Gas (Purse COST_PER_STATE_BYTE chargeCodeDeposit)

-- What is assumed of evmone's precompiles: they report what a frame would.
def Setting.Lawful (S : Setting) : Prop :=
  ∀ msg, 0 ≤ msg.gas → 0 ≤ msg.stateGas → (S.evmonePrecompile msg).Bounded msg

variable {S : Setting} {call : Caller} {msg : Message} {e e' : Env World} {r : Result}

-- The gas that call() reports.

theorem failed_bounded (status : StatusCode) (hgas : 0 ≤ msg.gas) (hstate : 0 ≤ msg.stateGas) :
    (failed status msg).Bounded msg :=
  ⟨Int.le_refl 0, hgas, hstate, Int.le_refl 0, by simp only [failed]; omega, fun _ => ⟨rfl, rfl⟩⟩

theorem dispatch_bounded (hS : S.Lawful) (hgas : 0 ≤ msg.gas) (hstate : 0 ≤ msg.stateGas) :
    (callPrecompileDispatch S msg).Bounded msg := by
  unfold callPrecompileDispatch
  split
  · unfold ecrecoverPrecompile
    split
    · exact failed_bounded _ hgas hstate
    · next hpaid =>
      have hcost : 0 ≤ kEcrecoverGas := by decide
      refine ⟨?_, ?_, hstate, Int.le_refl 0, ?_, fun _ => ⟨rfl, rfl⟩⟩
      · simp only; omega
      · simp only [failed]; omega
      · simp only [failed]; omega
  · exact hS msg hgas hstate

theorem chargeDeposit_bounded {rev : Revision} {paid : Result} (hr : r.Bounded msg) (hsuccess : r.status = .Success)
    (hpaid : chargeDeposit rev r = some paid) : paid.Bounded msg := by
  obtain ⟨p, hp, rfl⟩ := Option.map_eq_some_iff.mp hpaid
  have hgas := hr.gas
  have hleft := hr.left
  have hspilled := hr.spilled
  have hcharged := hr.charged
  unfold chargeCodeDeposit at hp
  cases hrev : rev.atLeast .Amsterdam with
  | true =>
    rw [hrev, if_pos rfl] at hp
    simp only [Option.bind_eq_bind, Option.bind_eq_some_iff] at hp
    obtain ⟨p₁, hspend, p₂, hcharge, hret⟩ := hp
    cases hret
    unfold Purse.spend at hspend
    split at hspend
    · cases hspend
    · cases hspend
      obtain ⟨hle, rfl⟩ | ⟨hlt, hle, rfl⟩ := Exec.charge_cases hcharge
      · refine ⟨?_, ?_, ?_, ?_, ?_, fun h => absurd hsuccess h⟩ <;>
          simp only [Result.gas, if_true] at * <;> omega
      · refine ⟨?_, ?_, ?_, ?_, ?_, fun h => absurd hsuccess h⟩ <;>
          simp only [Result.gas, if_true] at * <;> omega
  | false =>
    rw [hrev, if_neg Bool.false_ne_true] at hp
    split at hp
    · cases hp
    · cases hp
      refine ⟨?_, ?_, ?_, ?_, ?_, fun h => absurd hsuccess h⟩ <;>
        simp only [Result.gas, Bool.false_eq_true, if_false] at * <;> omega

theorem afterInit_bounded {rev : Revision} (hr : r.Bounded msg) (hgas : 0 ≤ msg.gas) (hstate : 0 ≤ msg.stateGas) :
    (∀ bad, afterInit rev msg r = .error bad → bad.Bounded msg) ∧
      ∀ done, afterInit rev msg r = .ok done → done.Bounded msg := by
  unfold afterInit
  split
  · exact ⟨fun _ h => by cases h; exact hr, nofun⟩
  · next hstatus =>
    split
    · exact ⟨fun _ h => by cases h; exact failed_bounded _ hgas hstate, nofun⟩
    · split
      · exact ⟨fun _ h => by cases h; exact failed_bounded _ hgas hstate, nofun⟩
      · cases hpaid : chargeDeposit rev r with
        | none => exact ⟨fun _ h => by cases h; exact failed_bounded _ hgas hstate, nofun⟩
        | some paid =>
          refine ⟨nofun, fun _ h => ?_⟩
          cases h
          have hb := chargeDeposit_bounded hr (not_not.mp hstatus) hpaid
          exact ⟨hb.gasLeft, hb.gas, hb.left, hb.spilled, hb.charged, hb.failed⟩

-- What a frame asks of the tables.
def Query.op : Query → Op
  | .AccountExists a => .AccountExists a
  | .GetStorage key => .GetStorage key
  | .SetStorage key v => .SetStorage key v
  | .GetBalance a => .GetBalance a
  | .GetNonce a => .GetNonce a
  | .GetCodeSize a => .CopyCode a
  | .GetCodeHash a => .GetCodeHash a
  | .CopyCode a _ _ => .CopyCode a
  | .Selfdestruct a b => .Selfdestruct a b
  | .GetTxContext | .GetBlockHash _ => .EndFrame false
  | .EmitLog entry => .EmitLog entry
  | .AccessAccount a => .AccessAccount a
  | .AccessStorage key => .AccessStorage key
  | .GetTransientStorage key => .GetTransientStorage key
  | .SetTransientStorage key v => .SetTransientStorage key v

variable {h h' : Host}

theorem endFrame_commit (hc : h.balCommitPending = .ok h') : h.endFrame false = .ok h' := by
  unfold Host.endFrame
  rw [if_neg nofun, hc]
  unfold Host.balCommitPending at hc
  split at hc
  · next hnone =>
    cases hc
    exact congrArg Except.ok (by rw [← hnone])
  · cases hc
  · cases hc
    rfl

variable {m m' : World}

theorem onTables_ok {α : Type} {x : Except String (Host × α)} {a : α} (h : onTables m x = .ok (a, m'))
    : x = .ok (m'.db, a) := by
  obtain ⟨r, hx, hret⟩ := map_eq_ok.mp h
  cases hret
  exact hx

variable {q : Query}

theorem answer_call {a : q.Answer} (h : answer S q m = .ok (a, m')) :
    ∃ ans, m.db.call S.witness (Query.op q) = .ok (m'.db, ans) := by
  cases q with
  | GetCodeSize b | CopyCode b offset size =>
    simp only [answer, bind_eq_ok] at h
    obtain ⟨⟨db, hash⟩, hcopy, code, -, hret⟩ := h
    cases hret
    exact ⟨_, map_eq_ok.mpr ⟨_, hcopy, rfl⟩⟩
  | GetBlockHash n =>
    simp only [answer, bind_eq_ok] at h
    obtain ⟨db, hcommit, hash, -, hret⟩ := h
    cases hret
    exact ⟨_, map_eq_ok.mpr ⟨_, endFrame_commit hcommit, rfl⟩⟩
  | GetTxContext =>
    obtain ⟨db, hcommit, hret⟩ := map_eq_ok.mp (onTables_ok h)
    cases hret
    exact ⟨_, map_eq_ok.mpr ⟨_, endFrame_commit hcommit, rfl⟩⟩
  | EmitLog entry | SetTransientStorage key v =>
    obtain ⟨db, hdone, hret⟩ := map_eq_ok.mp (onTables_ok h)
    cases hret
    exact ⟨_, map_eq_ok.mpr ⟨_, hdone, rfl⟩⟩
  | AccountExists b | GetStorage key | SetStorage key v | GetBalance b | GetNonce b | GetCodeHash b
  | Selfdestruct b c | AccessAccount b | AccessStorage key | GetTransientStorage key =>
    exact ⟨_, map_eq_ok.mpr ⟨_, onTables_ok h, rfl⟩⟩

def Covered (w : Witness) (h : Host) (a : Address) (v : Word) : Prop :=
  ∀ i, w.accountRow a = .ok i → v ≤ (h.content.fields i).balance

-- What the VM knows of the tables is so.
structure Informed (w : Witness) (k : Known) (h : Host) : Prop where
  bounded : Bounded h
  warm : ∀ key, k.warm key → h.isWarm w key = true
  funds : ∀ a b, k.funds = some (a, b) → ∀ i, w.accountRow a = .ok i → (h.content.fields i).balance = b

variable {w : Witness} {k : Known} {a : Address}

theorem covered_of_knows {v : Word} (hk : Informed w k h) (hcovers : k.Covers a v) : Covered w h a v := by
  intro i hi
  by_cases hv : v = 0
  · rw [hv]
    exact Nat.zero_le _
  · obtain ⟨b, hb, hle⟩ := hcovers hv
    rw [hk.funds a b hb i hi]
    exact hle

variable {f : Frame}

theorem guard_of_may (hmay : may k (.Host q)) (hallowed : Allowed f (.Host q)) (hk : Informed w k h)
    : Guard w f.msg.isStatic h (Query.op q) := by
  have hwrites : q.mutates = true → f.msg.isStatic = false := fun hm => by
    by_contra hs
    exact absurd (hallowed (Bool.not_eq_false _ ▸ hs)) (by rw [hm]; exact nofun)
  cases q with
  | GetBalance a | GetNonce a | GetCodeSize a | GetCodeHash a | CopyCode a _ _ | GetStorage key => exact hk.warm _ hmay
  | SetStorage key v => exact ⟨hwrites rfl, hk.warm _ hmay⟩
  | Selfdestruct a b | EmitLog entry | SetTransientStorage key v => exact hwrites rfl
  | AccountExists a | GetTxContext | GetBlockHash n | AccessAccount a | AccessStorage key | GetTransientStorage key =>
    trivial

variable {isStatic : Bool}

theorem informed_flow (hk : Informed w k h) (hflow : Flow w isStatic h h')
    : Informed w { k with funds := none } h' where
  bounded := flow_bounded hflow hk.bounded
  warm key hkey := flow_warm hflow (hk.warm key hkey)
  funds _ _ h := nomatch h

theorem informed_content (hk : Informed w k h) (hflow : Flow w isStatic h h') (hc : h'.content = h.content)
    : Informed w k h' where
  bounded := flow_bounded hflow hk.bounded
  warm key hkey := flow_warm hflow (hk.warm key hkey)
  funds a b h i hi := by
    rw [hc]
    exact hk.funds a b h i hi

theorem informed_add {key : Key} (hk : Informed w k h) (hw : h.isWarm w key = true) : Informed w (k.add key) h where
  bounded := hk.bounded
  warm other hother := hother.elim (fun heq => heq ▸ hw) (hk.warm other)
  funds := hk.funds

-- An answer is one operation under its guard, and what is learnt from it is so.
theorem answer_informs {a : q.Answer} (hmay : may k (.Host q)) (hallowed : Allowed f (.Host q))
    (hk : Informed S.witness k m.db) (h : answer S q m = .ok (a, m')) :
    Flow S.witness f.msg.isStatic m.db m'.db ∧ Informed S.witness (learn k (.Host q) a) m'.db := by
  obtain ⟨ans, hcall⟩ := answer_call h
  have hflow := Flow.single _ (guard_of_may hmay hallowed hk) hcall
  refine ⟨hflow, ?_⟩
  cases q with
  | AccessAccount b =>
    exact informed_add (informed_content hk hflow (content_inert rfl hcall)) (access_warm hcall hk.bounded)
  | AccessStorage key =>
    exact informed_add (informed_content hk hflow (content_inert rfl hcall)) (accessSlot_warm hcall hk.bounded)
  | AccountExists b | GetNonce b => exact informed_content hk hflow (content_inert rfl hcall)
  | GetBalance b =>
    have hbase := informed_flow hk hflow
    obtain ⟨hc, i, hi, rfl⟩ := content_getBalance (onTables_ok h)
    refine ⟨hbase.bounded, hbase.warm, fun c v hfunds j hj => ?_⟩
    cases hfunds
    rw [hc, Except.ok.inj (hi.symm.trans hj)]
  | GetStorage key | SetStorage key v | GetCodeSize b | GetCodeHash b | CopyCode b _ _ | Selfdestruct b c
  | GetTxContext | GetBlockHash n | EmitLog entry | GetTransientStorage key | SetTransientStorage key v =>
    exact informed_flow hk hflow

structure Ready (S : Setting) (msg : Message) (h : Host) : Prop where
  bounded : Bounded h
  gas : 0 ≤ msg.gas
  stateGas : 0 ≤ msg.stateGas
  recipient : h.isWarm S.witness (.Account msg.recipient) = true
  code : msg.kind ≠ .Create → msg.kind ≠ .Create2 → h.isWarm S.witness (.Account msg.codeAddress) = true
  covered : msg.kind ≠ .Callcode → msg.kind ≠ .Delegatecall → Covered S.witness h msg.sender msg.value
  peaceful : msg.Peaceful

-- A call() whose children only do to the tables what frames do.
def Caller.Flows (S : Setting) (call : Caller) : Prop :=
  ∀ msg e r e', Ready S msg e.host.db → call msg e = .ok (r, e') →
    Flow S.witness msg.isStatic e.host.db e'.host.db

theorem ready_of_admits (hallowed : Allowed f (.Call msg)) (hadmits : k.Admits msg) (hk : Informed S.witness k h)
    : Ready S msg h where
  bounded := hk.bounded
  gas := hallowed.1
  stateGas := hallowed.2.1
  recipient := hk.warm _ hadmits.1
  code h₁ h₂ := by
    obtain ⟨-, -, hrest⟩ := hadmits
    cases hkind : msg.kind with
    | Call =>
      rw [hkind] at hrest
      exact hk.warm _ hrest.1
    | Callcode | Delegatecall =>
      rw [hkind] at hrest
      exact hk.warm _ hrest
    | Create => exact absurd hkind h₁
    | Create2 => exact absurd hkind h₂
  covered h₁ h₂ := by
    obtain ⟨-, -, hrest⟩ := hadmits
    cases hkind : msg.kind with
    | Call =>
      rw [hkind] at hrest
      exact covered_of_knows hk hrest.2
    | Create | Create2 =>
      rw [hkind] at hrest
      exact covered_of_knows hk hrest
    | Callcode => exact absurd hkind h₁
    | Delegatecall => exact absurd hkind h₂
  peaceful := hadmits.2.1

-- The frame of a message.

variable {code : Bytes}

theorem runFrame_ok (h : runFrame S call msg code e = .ok (r, e')) :
    ∃ e₁ db, (run S.keccak ⟨S.witness.revision, msg, code⟩ (msg.gas.toNat + 1)).run (host S call).serve e =
        .ok (some r, e₁) ∧
      e₁.host.db.endFrame (r.status ≠ .Success && r.status ≠ .Revert) = .ok db ∧ e' = setDb e₁ db := by
  simp only [runFrame, bind_eq_ok] at h
  obtain ⟨⟨done, e₁⟩, hrun, hend⟩ := h
  cases done with
  | none => cases hend
  | some r₁ =>
    simp only [bind_eq_ok] at hend
    obtain ⟨db, hdb, hret⟩ := hend
    cases hret
    exact ⟨e₁, db, hrun, hdb, rfl⟩

theorem runFrame_bounded (hH : (host S call).Bounded) (hgas : 0 ≤ msg.gas) (hstate : 0 ≤ msg.stateGas)
    (h : runFrame S call msg code e = .ok (r, e')) : r.Bounded msg := by
  obtain ⟨e₁, db, hrun, -, -⟩ := runFrame_ok h
  obtain ⟨r₁, hr, hb⟩ := frame_run hH hgas hstate (by simp only; omega) hrun
  cases hr
  exact hb

theorem serve_informs {q : Request} {a : q.Answer} (hH : (host S call).Bounded) (hflows : call.Flows S) (hmay : may k q)
    (hallowed : Allowed f q) (hk : Informed S.witness k e.host.db) (h : (host S call).serve q e = .ok (a, e')) :
    Answered q a ∧ Informed S.witness (learn k q a) e'.host.db ∧
      Flow S.witness f.msg.isStatic e.host.db e'.host.db := by
  refine ⟨bounded_answers hH hallowed h, ?_⟩
  cases q with
  | Host q =>
    obtain ⟨x, hx, hret⟩ := map_eq_ok.mp h
    cases hret
    obtain ⟨hflow, hk'⟩ := answer_informs hmay hallowed hk hx
    exact ⟨hk', hflow⟩
  | Mem q =>
    cases h
    exact ⟨hk, .Refl⟩
  | Call msg =>
    have hflow := hflows msg e a e' (ready_of_admits hallowed hmay hk) h
    have hloose := hflow.loosen fun hs : f.msg.isStatic = true => (hallowed.2.2.2.2 hs).1
    exact ⟨informed_flow hk hloose, hloose⟩

theorem runFrame_flow (hH : (host S call).Bounded) (hflows : call.Flows S) (hb : Bounded e.host.db) (hgas : 0 ≤ msg.gas)
    (hstate : 0 ≤ msg.stateGas) (hwarm : e.host.db.isWarm S.witness (.Account msg.recipient) = true)
    (h : runFrame S call msg code e = .ok (r, e')) : Flow S.witness msg.isStatic e.host.db e'.host.db := by
  obtain ⟨e₁, db, hrun, hend, rfl⟩ := runFrame_ok h
  let f : Frame := ⟨S.witness.revision, msg, code⟩
  let k : Known := ⟨fun key => key = .Account msg.recipient, none⟩
  have hk : Informed S.witness k e.host.db := ⟨hb, fun key hkey => hkey ▸ hwarm, nofun⟩
  have hminds := @run_minds f S.keccak k (msg.gas.toNat + 1) (by simp [Exec.Warm, k, f])
  have hspec := @run_spec f S.keccak (msg.gas.toNat + 1) hgas hstate (by simp only [f]; omega)
  obtain ⟨-, -, hflow⟩ := hminds.run (fun k x => Informed S.witness k x.host.db)
    (fun x y => Flow S.witness msg.isStatic x.host.db y.host.db) hspec hk (fun _ => .Refl) Flow.trans
    (fun hmay hallowed hk hserve => serve_informs hH hflows hmay hallowed hk hserve) hrun
  exact hflow.trans (.single (.EndFrame _) trivial (map_eq_ok.mpr ⟨db, hend, rfl⟩))

-- The parts of call().

theorem load_flow (isStatic : Bool) (hload : loadCalled S a h = .ok h') :
    Flow S.witness isStatic h h' ∧ h'.content = h.content := by
  unfold loadCalled at hload
  split at hload
  · have hcall : h.call S.witness (.BalLoad a) = .ok (h', .Unit) := map_eq_ok.mpr ⟨h', hload, rfl⟩
    exact ⟨.single (.BalLoad a) trivial hcall, content_inert rfl hcall⟩
  · cases hload
    exact ⟨.Refl, rfl⟩

theorem send_flow (hpeace : msg.Peaceful) (hcovered : msg.kind = .Call → Covered S.witness h msg.sender msg.value)
    (hsend : sendValue S msg h = .ok h') : Flow S.witness msg.isStatic h h' := by
  unfold sendValue at hsend
  split at hsend
  · next hsends =>
    have hstatic : msg.isStatic = false := by
      by_contra hs
      exact hsends.2 ((hpeace (Bool.not_eq_false _ ▸ hs)).2.2 hsends.1)
    rw [hstatic]
    exact .single (.TransferValue msg.sender msg.recipient msg.value) ⟨rfl, hcovered hsends.1⟩
      (map_eq_ok.mpr ⟨h', hsend, rfl⟩)
  · cases hsend
    exact .Refl

theorem close_cases {cp : Checkpoint} {status : StatusCode} (hclose : closeFrame cp status h = .ok h') :
    status = .Success ∧ h' = h ∨ status ≠ .Success ∧ h.rollback cp = .ok h' := by
  unfold closeFrame at hclose
  split at hclose
  · next hstatus => exact .inr ⟨hstatus, hclose⟩
  · next hstatus =>
    cases hclose
    exact .inl ⟨not_not.mp hstatus, rfl⟩

variable {h₁ h₂ : Host}

theorem frame_flow {status : StatusCode} (body : Flow S.witness isStatic h.checkpoint.1 h₁)
    (hclose : closeFrame h.checkpoint.2 status h₁ = .ok h₂) :
    Flow S.witness isStatic h h₂ :=
  .Frame id body ((close_cases hclose).imp And.right And.right) .Refl

theorem callPrecompile_ok (h : callPrecompile S msg e = .ok (r, e')) :
    r = callPrecompileDispatch S msg ∧ ∃ db, loadCalled S msg.codeAddress e.host.db = .ok db ∧
      (msg.kind = .Call ∧ msg.value ≠ 0 ∧ (∃ db₁ db₂, sendValue S msg db.checkpoint.1 = .ok db₁ ∧
          closeFrame db.checkpoint.2 r.status db₁ = .ok db₂ ∧ e' = setDb e db₂) ∨
        ¬ (msg.kind = .Call ∧ msg.value ≠ 0) ∧ e' = setDb e db) := by
  simp only [callPrecompile, bind_eq_ok] at h
  obtain ⟨db, hload, hrest⟩ := h
  split at hrest
  · next hsends =>
    simp only [bind_eq_ok] at hrest
    obtain ⟨db₁, hsend, db₂, hclose, hret⟩ := hrest
    cases hret
    exact ⟨rfl, db, hload, .inl ⟨hsends.1, hsends.2, db₁, db₂, hsend, hclose, rfl⟩⟩
  · next hsends =>
    cases hrest
    exact ⟨rfl, db, hload, .inr ⟨hsends, rfl⟩⟩

theorem callPrecompile_flow (hready : Ready S msg e.host.db) (h : callPrecompile S msg e = .ok (r, e')) :
    Flow S.witness msg.isStatic e.host.db e'.host.db := by
  obtain ⟨-, db, hload, ⟨hkind, -, db₁, db₂, hsend, hclose, rfl⟩ | ⟨-, rfl⟩⟩ := callPrecompile_ok h
  · obtain ⟨hflow, hcontent⟩ := load_flow msg.isStatic hload
    have hcovered : Covered S.witness db.checkpoint.1 msg.sender msg.value := by
      have hc := hready.covered (by rw [hkind]; exact nofun) (by rw [hkind]; exact nofun)
      rw [Covered, ← hcontent] at hc
      exact hc
    exact hflow.trans (frame_flow (send_flow hready.peaceful (fun _ => hcovered) hsend) hclose)
  · exact (load_flow msg.isStatic hload).1

theorem callCode_ok (h : callCode S call msg e = .ok (r, e')) :
    ∃ db db₁ hash code e₁ db₂, sendValue S msg e.host.db.checkpoint.1 = .ok db ∧
      db.codeAndEntry S.witness msg.codeAddress = .ok (db₁, hash) ∧ e.host.codeOf hash = .ok code ∧
      runFrame S call msg code (setDb e db₁) = .ok (r, e₁) ∧
      closeFrame e.host.db.checkpoint.2 r.status e₁.host.db = .ok db₂ ∧ e' = setDb e₁ db₂ := by
  simp only [callCode, bind_eq_ok] at h
  obtain ⟨db, hsend, ⟨db₁, hash⟩, hentry, code, hcode, ⟨r₁, e₁⟩, hrun, db₂, hclose, hret⟩ := h
  cases hret
  exact ⟨db, db₁, hash, code, e₁, db₂, hsend, hentry, hcode, hrun, hclose, rfl⟩

theorem callCode_opens (hH : (host S call).Bounded) (hflows : call.Flows S) (hready : Ready S msg e.host.db)
    (hkind : msg.kind ≠ .Create ∧ msg.kind ≠ .Create2) (h : callCode S call msg e = .ok (r, e')) :
    ∃ h₁, Flow S.witness msg.isStatic e.host.db.checkpoint.1 h₁ ∧
      closeFrame e.host.db.checkpoint.2 r.status h₁ = .ok e'.host.db := by
  obtain ⟨db, db₁, hash, code, e₁, db₂, hsend, hentry, -, hrun, hclose, rfl⟩ := callCode_ok h
  have hmove : Flow S.witness msg.isStatic e.host.db.checkpoint.1 db := by
    refine send_flow hready.peaceful (fun hcall => ?_) hsend
    exact hready.covered (by rw [hcall]; exact nofun) (by rw [hcall]; exact nofun)
  have hload : Flow S.witness msg.isStatic db db₁ :=
    .single (.EntryCode msg.codeAddress) (flow_warm hmove (hready.code hkind.1 hkind.2))
      (map_eq_ok.mpr ⟨_, hentry, rfl⟩)
  have hbefore := hmove.trans hload
  have hb : Bounded db₁ := flow_bounded hbefore hready.bounded
  have hw : db₁.isWarm S.witness (.Account msg.recipient) = true :=
    flow_warm hbefore hready.recipient
  exact ⟨_, hbefore.trans (runFrame_flow hH hflows hb hready.gas hready.stateGas hw hrun), hclose⟩

theorem callCode_flow (hH : (host S call).Bounded) (hflows : call.Flows S) (hready : Ready S msg e.host.db)
    (hkind : msg.kind ≠ .Create ∧ msg.kind ≠ .Create2) (h : callCode S call msg e = .ok (r, e')) :
    Flow S.witness msg.isStatic e.host.db e'.host.db := by
  obtain ⟨h₁, body, hclose⟩ := callCode_opens hH hflows hready hkind h
  exact frame_flow body hclose

-- A create, by what becomes of it.

theorem runInit_ok {cp : Checkpoint} (h : runInit S call msg cp e = .ok (r, e')) :
    ∃ f e₁, runFrame S call { msg with inputData := [] } msg.inputData e = .ok (f, e₁) ∧
      ((∃ db, afterInit S.witness.revision msg f = .error r ∧ e₁.host.db.rollback cp = .ok db ∧ e' = setDb e₁ db) ∨
        ∃ m, afterInit S.witness.revision msg f = .ok r ∧
          registerDeployedCode S msg.recipient f.output e₁.host = .ok m ∧ e' = { e₁ with host := m }) := by
  simp only [runInit, bind_eq_ok] at h
  obtain ⟨⟨f, e₁⟩, hrun, hrest⟩ := h
  refine ⟨f, e₁, hrun, ?_⟩
  cases hinit : afterInit S.witness.revision msg f with
  | error bad =>
    simp only [hinit, bind_eq_ok] at hrest
    obtain ⟨db, hback, hret⟩ := hrest
    cases hret
    exact .inl ⟨db, rfl, hback, rfl⟩
  | ok done =>
    simp only [hinit, bind_eq_ok] at hrest
    obtain ⟨m, hreg, hret⟩ := hrest
    cases hret
    exact .inr ⟨m, rfl, hreg, rfl⟩

theorem callCreate_ok (h : callCreate S call msg e = .ok (r, e')) :
    (∃ db, e.host.db.bumpNonce S.witness msg.sender = .ok (db, false) ∧
        r = { failed .Success msg with gasLeft := msg.gas } ∧ e' = e) ∨
      ∃ db db₁ db₂ fresh, e.host.db.bumpNonce S.witness msg.sender = .ok (db, true) ∧
        db.warmNew S.witness msg.recipient = .ok db₁ ∧
        db₁.checkpoint.1.initCreateAccount S.witness msg.sender msg.recipient msg.value = .ok (db₂, fresh) ∧
        (fresh = true ∧ runInit S call msg db₁.checkpoint.2 (setDb e db₂) = .ok (r, e') ∨
          fresh = false ∧ r = failed .Failure msg ∧
            ∃ db₃, db₂.rollback db₁.checkpoint.2 = .ok db₃ ∧ e' = setDb e db₃) := by
  simp only [callCreate, bind_eq_ok] at h
  obtain ⟨⟨db, bumped⟩, hbump, hrest⟩ := h
  cases bumped with
  | false =>
    cases hrest
    exact .inl ⟨db, hbump, rfl, rfl⟩
  | true =>
    simp only [if_true, bind_eq_ok] at hrest
    obtain ⟨db₁, hwarm, ⟨db₂, fresh⟩, hinit, hrest⟩ := hrest
    refine .inr ⟨db, db₁, db₂, fresh, hbump, hwarm, hinit, ?_⟩
    cases fresh with
    | true => exact .inl ⟨rfl, hrest⟩
    | false =>
      simp only [Bool.false_eq_true, if_false, bind_eq_ok] at hrest
      obtain ⟨db₃, hback, hret⟩ := hrest
      cases hret
      exact .inr ⟨rfl, rfl, db₃, hback, rfl⟩

theorem register_ok (h : registerDeployedCode S a code m = .ok m') :
    m.db.registerDeployedCode S.witness a (S.keccak code) = .ok m'.db := by
  simp only [registerDeployedCode, bind_eq_ok] at h
  obtain ⟨idx, -, db, hdb, hret⟩ := h
  cases hret
  exact hdb

theorem bumped_content {sender : Address} (hbump : h.bumpNonce S.witness sender = .ok (h₁, true))
    (hwarm : h₁.warmNew S.witness a = .ok h₂) :
    ∃ i, S.witness.accountRow sender = .ok i ∧ (h.content.fields i).nonce ≠ 0xffffffffffffffff ∧
      h₂.content = h.content.write i (.Nonce ((h.content.fields i).nonce + 1)) := by
  obtain ⟨i, hi, ⟨-, hno, -⟩ | ⟨hmax, -, hc⟩⟩ := content_bumpNonce hbump
  · cases hno
  · exact ⟨i, hi, hmax, (content_warmNew hwarm).trans hc⟩

theorem bumped_flow {sender : Address} (hbump : h.bumpNonce S.witness sender = .ok (h₁, true))
    (hwarm : h₁.warmNew S.witness a = .ok h₂) : Flow S.witness false h h₂ :=
  (Flow.single (.BumpNonce sender) rfl (map_eq_ok.mpr ⟨_, hbump, rfl⟩)).trans
    (.single (.WarmNew a) rfl (map_eq_ok.mpr ⟨_, hwarm, rfl⟩))

theorem covered_bumped {i : Nat} {n : UInt64} {v : Word} (hc : h₂.content = h.content.write i (.Nonce n))
    (hcovered : Covered S.witness h a v) : Covered S.witness h₂ a v := by
  intro j hj
  rw [hc]
  by_cases hji : j = i
  · rw [hji, write_self]
    exact hcovered i (hji ▸ hj)
  · rw [write_of_ne hji]
    exact hcovered j hj

theorem initFrame_flow {f : Result} {e₁ : Env World} (hH : (host S call).Bounded) (hflows : call.Flows S)
    (hb : Bounded h) (hgas : 0 ≤ msg.gas) (hstate : 0 ≤ msg.stateGas)
    (hwarm : h.isWarm S.witness (.Account msg.recipient) = true)
    (hinit : h.call S.witness (.InitCreateAccount msg.sender msg.recipient msg.value) = .ok (h₁, .Flag true))
    (hrun : runFrame S call { msg with inputData := [] } msg.inputData (setDb e h₁) = .ok (f, e₁)) :
    Flow S.witness msg.isStatic h₁ e₁.host.db :=
  @runFrame_flow S call { msg with inputData := [] } _ _ _ _ hH hflows (call_bounded hinit hb) hgas hstate
    (call_warm hinit hwarm) hrun

theorem callCreate_flow (hH : (host S call).Bounded) (hflows : call.Flows S) (hready : Ready S msg e.host.db)
    (hkind : msg.kind = .Create ∨ msg.kind = .Create2) (h : callCreate S call msg e = .ok (r, e')) :
    Flow S.witness false e.host.db e'.host.db := by
  obtain ⟨db, -, -, rfl⟩ | ⟨db, db₁, db₂, fresh, hbump, hwarm, hinit, hrest⟩ := callCreate_ok h
  · exact .Refl
  have hbumped := bumped_flow hbump hwarm
  obtain ⟨i, hi, -, hc⟩ := bumped_content hbump hwarm
  have hcovered : Covered S.witness e.host.db msg.sender msg.value := by
    obtain hk | hk := hkind
    · exact hready.covered (by rw [hk]; exact nofun) (by rw [hk]; exact nofun)
    · exact hready.covered (by rw [hk]; exact nofun) (by rw [hk]; exact nofun)
  have hasked : db₁.checkpoint.1.call S.witness (.InitCreateAccount msg.sender msg.recipient msg.value) =
      .ok (db₂, .Flag fresh) := map_eq_ok.mpr ⟨_, hinit, rfl⟩
  have hguard : Guard S.witness false db₁.checkpoint.1 (.InitCreateAccount msg.sender msg.recipient msg.value) :=
    ⟨rfl, covered_bumped hc hcovered⟩
  have hentry := Flow.single _ hguard hasked
  refine hbumped.trans ?_
  obtain ⟨rfl, hrun⟩ | ⟨rfl, -, db₃, hback, rfl⟩ := hrest
  · obtain ⟨f, e₁, hframe, hend⟩ := runInit_ok hrun
    have hb : Bounded db₁ := flow_bounded hbumped hready.bounded
    have hw : db₁.isWarm S.witness (.Account msg.recipient) = true := flow_warm hbumped hready.recipient
    have hinit := initFrame_flow (h := db₁.checkpoint.1) hH hflows hb hready.gas hready.stateGas hw hasked hframe
    have hbody := hentry.trans (hinit.loosen nofun)
    obtain ⟨db₃, -, hback, rfl⟩ | ⟨m, -, hreg, rfl⟩ := hend
    · exact .Frame id hbody (.inr hback) .Refl
    · refine .Frame id (hbody.trans ?_) (.inl rfl) .Refl
      exact .single (.RegisterDeployedCode msg.recipient (S.keccak f.output)) rfl
        (map_eq_ok.mpr ⟨_, register_ok hreg, rfl⟩)
  · exact .Frame id hentry (.inr hback) .Refl

theorem callCreate_bounded (hH : (host S call).Bounded) (hgas : 0 ≤ msg.gas) (hstate : 0 ≤ msg.stateGas)
    (h : callCreate S call msg e = .ok (r, e')) : r.Bounded msg := by
  obtain ⟨db, -, rfl, -⟩ | ⟨db, db₁, db₂, fresh, -, -, -, hrest⟩ := callCreate_ok h
  · exact ⟨hgas, by simp only [failed]; omega, hstate, Int.le_refl 0, by simp only [failed]; omega, fun _ => ⟨rfl, rfl⟩⟩
  obtain ⟨rfl, hrun⟩ | ⟨rfl, rfl, -⟩ := hrest
  · obtain ⟨f, e₁, hframe, hend⟩ := runInit_ok hrun
    have hf : f.Bounded msg := by
      have hb := @runFrame_bounded S call { msg with inputData := [] } _ _ _ _ hH hgas hstate hframe
      exact ⟨hb.gasLeft, hb.gas, hb.left, hb.spilled, hb.charged, hb.failed⟩
    obtain ⟨db₃, hbad, -, -⟩ | ⟨m, hdone, -, -⟩ := hend
    · exact (afterInit_bounded hf hgas hstate).1 r hbad
    · exact (afterInit_bounded hf hgas hstate).2 r hdone
  · exact failed_bounded _ hgas hstate

theorem call_cases {n : Nat} (h : Execution.call S n msg e = .ok (r, e')) :
    ∃ k db, n = k + 1 ∧ e.host.db.balCommitPending = .ok db ∧
      (msg.isDelegated = false ∧ S.witness.isPrecompile msg.codeAddress = true ∧
          callPrecompile S msg (setDb e db) = .ok (r, e') ∨
        (msg.kind = .Create ∨ msg.kind = .Create2) ∧
          callCreate S (Execution.call S k) msg (setDb e db.checkpoint.1) = .ok (r, e') ∨
        msg.kind ≠ .Create ∧ msg.kind ≠ .Create2 ∧ callCode S (Execution.call S k) msg (setDb e db) = .ok (r, e')) := by
  cases n with
  | zero => cases h
  | succ k =>
    simp only [Execution.call] at h
    split at h
    · cases h
    · simp only [bind_eq_ok] at h
      obtain ⟨db, hcommit, hrest⟩ := h
      refine ⟨k, db, rfl, hcommit, ?_⟩
      split at hrest
      · next hpre =>
        simp only [Bool.and_eq_true, Bool.not_eq_eq_eq_not, Bool.not_true] at hpre
        exact .inl ⟨hpre.1, hpre.2, hrest⟩
      · right
        cases hkind : msg.kind with
        | Create => exact .inl ⟨.inl rfl, by simpa only [hkind] using hrest⟩
        | Create2 => exact .inl ⟨.inr rfl, by simpa only [hkind] using hrest⟩
        | Call | Callcode | Delegatecall => exact .inr ⟨nofun, nofun, by simpa only [hkind] using hrest⟩

theorem commit_flow (isStatic : Bool) (hcommit : h.balCommitPending = .ok h') :
    Flow S.witness isStatic h h' ∧ h'.content = h.content :=
  ⟨.single (.EndFrame false) trivial (map_eq_ok.mpr ⟨_, endFrame_commit hcommit, rfl⟩),
    (content_commit hcommit).1⟩

theorem Ready.flow (hready : Ready S msg h) (hflow : Flow S.witness isStatic h h') (hc : h'.content = h.content)
    : Ready S msg h' where
  bounded := flow_bounded hflow hready.bounded
  gas := hready.gas
  stateGas := hready.stateGas
  recipient := flow_warm hflow hready.recipient
  code h₁ h₂ := flow_warm hflow (hready.code h₁ h₂)
  covered h₁ h₂ := by
    have hcovered := hready.covered h₁ h₂
    rw [Covered, ← hc] at hcovered
    exact hcovered
  peaceful := hready.peaceful

theorem call_gas (hS : S.Lawful) (n : Nat) : (host S (Execution.call S n)).Bounded := by
  induction n with
  | zero => exact fun _ _ _ _ _ _ h => nomatch h
  | succ k ih =>
    intro msg e r e' hgas hstate h
    obtain ⟨_, db, heq, -, hway⟩ := call_cases h
    cases heq
    obtain ⟨-, -, hpre⟩ | ⟨-, hcreate⟩ | ⟨-, -, hcode⟩ := hway
    · rw [(callPrecompile_ok hpre).1]
      exact dispatch_bounded hS hgas hstate
    · exact callCreate_bounded ih hgas hstate hcreate
    · obtain ⟨_, _, _, _, _, _, -, -, -, hrun, -, -⟩ := callCode_ok hcode
      exact runFrame_bounded ih hgas hstate hrun

-- Whatever the frames of a call tree do, the tables only go through operations under their guards
-- and frames that are kept or rolled back.
theorem call_flows (hS : S.Lawful) (n : Nat) : (Execution.call S n).Flows S := by
  induction n with
  | zero => exact fun _ _ _ _ _ h => nomatch h
  | succ k ih =>
    intro msg e r e' hready h
    obtain ⟨_, db, heq, hcommit, hway⟩ := call_cases h
    cases heq
    obtain ⟨hflow, hc⟩ := commit_flow (S := S) msg.isStatic hcommit
    have hready' := hready.flow hflow hc
    refine hflow.trans ?_
    obtain ⟨-, -, hpre⟩ | ⟨hkind, hcreate⟩ | ⟨hk₁, hk₂, hcode⟩ := hway
    · exact callPrecompile_flow (e := setDb e db) hready' hpre
    · have hstatic : msg.isStatic = false := by
        by_contra hs
        obtain ⟨h₁, h₂, -⟩ := hready.peaceful (Bool.not_eq_false _ ▸ hs)
        exact hkind.elim h₁ h₂
      rw [hstatic]
      have hmark : Ready S msg db.checkpoint.1 :=
        ⟨hready'.bounded, hready'.gas, hready'.stateGas, hready'.recipient, hready'.code, hready'.covered,
          hready'.peaceful⟩
      exact .Frame id (callCreate_flow (e := setDb e db.checkpoint.1) (call_gas hS k) ih hmark hkind hcreate)
        (.inl rfl) .Refl
    · exact callCode_flow (e := setDb e db) (call_gas hS k) ih hready' ⟨hk₁, hk₂⟩ hcode

end Zeg.Execution
