import Zeg.Memory.Stack
import Zeg.Zevm.Children

-- A frame halts, and its gas is conserved, whatever its code and its host do.
namespace Zeg.Zevm

open Base StateDB Gas Memory Exec

variable {f : Frame} {s s' : EvmState} {keccak : Bytes → Bytes32}

theorem ops_keeps {m : Exec Unit} {cost : Int} (hm : m.Keeps f cost) (hc : 1 ≤ cost) : (ops m).Keeps f 1 :=
  (hm.weaken hc).pays (by decide) fun _ => advance_keeps 1

theorem handler_keeps (op : Opcode) : (handler keccak f op).Keeps f 1 := by
  cases op with
  | Stop => exact halt_keeps _
  | Addmod | Mulmod => exact ops_keeps (ternop_keeps (by decide)) (by decide)
  | Iszero | Not | Clz | Calldataload => exact ops_keeps (unop_keeps (by decide)) (by decide)
  | Exp => exact ops_keeps exp_keeps (by decide)
  | Keccak256 => exact ops_keeps keccak256_keeps (by decide)
  | Address | Caller | Callvalue | Calldatasize | Codesize | Push0 =>
    exact ops_keeps (pushOp_keeps (by decide) (pure_keeps _)) (by decide)
  | Origin | Gasprice | Coinbase | Timestamp | Number | Prevrandao | Gaslimit | Chainid | Basefee
  | Blobbasefee | Slotnum => exact ops_keeps (pushOp_keeps (by decide) (txField_keeps _)) (by decide)
  | Selfbalance => exact ops_keeps (pushOp_keeps (by decide) cachedBalance_keeps) (by decide)
  | Msize => exact ops_keeps (pushOp_keeps (by decide) memSize_keeps) (by decide)
  | Balance => exact ops_keeps (accountOp_keeps (by decide) fun _ => askHost_keeps rfl) (by decide)
  | Extcodehash =>
    exact ops_keeps (accountOp_keeps (by decide) fun _ => (askHost_keeps rfl).free fun _ => pure_keeps _) (by decide)
  | Extcodesize =>
    have hbase := @warm_le_extcodeBase f
    refine ops_keeps ((accountOp_keeps (Int.le_trans (by decide) hbase) fun _ => ?_).weaken hbase) (by decide)
    exact (askHost_keeps rfl).free fun _ => pure_keeps _
  | Calldatacopy | Codecopy => exact ops_keeps (dataCopy_keeps _) (by decide)
  | Extcodecopy => exact ops_keeps extcodecopy_keeps (by decide)
  | Returndatasize => exact ops_keeps returndatasize_keeps (by decide)
  | Returndatacopy => exact ops_keeps returndatacopy_keeps (by decide)
  | Blockhash => exact ops_keeps blockhash_keeps (by decide)
  | Blobhash => exact ops_keeps blobhash_keeps (by decide)
  | Pop => exact ops_keeps opPop_keeps (by decide)
  | Mload => exact ops_keeps mload_keeps (by decide)
  | Mstore => exact ops_keeps mstore_keeps (by decide)
  | Mstore8 => exact ops_keeps mstore8_keeps (by decide)
  | Mcopy => exact ops_keeps mcopy_keeps (by decide)
  | Sload => exact ops_keeps sload_keeps (by decide)
  | Sstore => exact ops_keeps sstore_keeps (by decide)
  | Tload => exact ops_keeps tload_keeps (by decide)
  | Tstore => exact ops_keeps tstore_keeps (by decide)
  | Jump => exact jump_keeps.weaken (by decide)
  | Jumpi => exact jumpi_keeps.weaken (by decide)
  | Pc => exact ops_keeps opPc_keeps (by decide)
  | Gas => exact ops_keeps opGas_keeps (by decide)
  | Jumpdest => exact ops_keeps useGas_keeps (by decide)
  | Dupn => exact (immediateOp_keeps dup_keeps).weaken (by decide)
  | Swapn => exact (immediateOp_keeps fun _ => swap_keeps _ _).weaken (by decide)
  | Exchange => exact (immediateOp_keeps fun _ => swap_keeps _ _).weaken (by decide)
  | Create | Create2 => exact createImpl_keeps.weaken (by decide)
  | Call | Callcode | Delegatecall | Staticcall => exact (callImpl_keeps (by decide)).weaken (by decide)
  | Return | Revert => exact returnImpl_keeps _
  | Invalid => exact halt_keeps _
  | Selfdestruct => exact selfdestruct_keeps
  | Push n => exact (opPush_keeps n).weaken (by decide)
  | Dup n => exact ops_keeps (useGas_keeps.pays (by decide) fun _ => dup_keeps n) (by decide)
  | Swap n => exact ops_keeps (useGas_keeps.pays (by decide) fun _ => swap_keeps 0 n) (by decide)
  | Log n => exact (logImpl_keeps n).weaken (by decide)
  | Add | Mul | Sub | Div | Sdiv | Mod | Smod | Signextend | Lt | Gt | Slt | Sgt | Eq | And | Or | Xor
  | Byte | Shl | Shr | Sar => exact ops_keeps (binop_keeps (by decide)) (by decide)

theorem instruction_within (hs : Ledger f s) :
    (instruction keccak f s).Spec (Allowed f) Answered (Outcome.Within f s 1) := by
  unfold instruction
  split
  · exact handler_keeps _ s hs
  · exact ⟨hs, Int.le_refl _⟩

-- Each instruction takes one off what the frame is worth, so that much fuel is enough.
theorem dispatch_spec (fuel : Nat) (hs : Ledger f s) (hfuel : s.worth < fuel) :
    (dispatch keccak f fuel s).Spec (Allowed f) Answered fun o =>
      ∃ status s', o = some (status, s') ∧ Ledger f s' ∧ s'.worth ≤ s.worth := by
  induction fuel generalizing s with
  | zero =>
    have hgas := hs.gas
    have hspilled := hs.spilled
    simp only [EvmState.worth] at hfuel
    omega
  | succ fuel ih =>
    refine Program.spec_bind.mpr ((instruction_within hs).mono (fun _ h => h) fun o ho => ?_)
    cases o with
    | Halt status s' => exact ⟨status, s', rfl, ho⟩
    | Ok u s' =>
      have hpaid := ho.2
      refine (ih ho.1 (by omega)).mono (fun _ h => h) fun o' ho' => ?_
      obtain ⟨status, s'', heq, hledger, hworth⟩ := ho'
      exact ⟨status, s'', heq, hledger, by omega⟩

theorem ledger_reset (hgas : 0 ≤ f.msg.gas) (hstate : 0 ≤ f.msg.stateGas) :
    Ledger f f.reset ∧ f.reset.worth = f.msg.gas := by
  refine ⟨⟨hgas, hstate, Int.le_refl 0, fun h => absurd h (Int.lt_irrefl 0), ?_, fun _ => ⟨rfl, rfl⟩⟩, ?_⟩
  · simp only [Frame.reset]; omega
  · simp only [Frame.reset, EvmState.worth]; omega

theorem coarse_eq_success {status : StatusCode} : status.coarse = .Success ↔ status = .Success := by
  cases status <;> decide

-- A failed frame reports the reservoir as it got it: from Amsterdam on it is put back, before it
-- never moved.
theorem frameResult_failed {status : Status} (hs : Ledger f s) (hstatus : status ≠ .Success) :
    (frameResult f.rev f.msg.stateGas s.purse s.refund status).left = f.msg.stateGas ∧
      (frameResult f.rev f.msg.stateGas s.purse s.refund status).spilled = 0 := by
  unfold frameResult
  cases hrev : f.rev.atLeast .Amsterdam with
  | true => simp [hstatus]
  | false => simpa using hs.frozen hrev

theorem frameResult_gas {status : Status} (hs : Ledger f s) :
    let r := frameResult f.rev f.msg.stateGas s.purse s.refund status
    0 ≤ r.gasLeft ∧ r.gasLeft + r.spilled ≤ s.worth := by
  have hgas := hs.gas
  have hspilled := hs.spilled
  unfold frameResult
  generalize (f.rev.atLeast .Amsterdam && decide (status ≠ .Success)) = rolledBack
  cases rolledBack <;> simp only [if_true, Bool.false_eq_true, if_false, EvmState.worth] <;> split <;> omega

theorem frameEnd_bounded {status : StatusCode} (output : Bytes) (hs : Ledger f s)
    (hworth : s.worth ≤ f.msg.gas) (hstate : 0 ≤ f.msg.stateGas) :
    (frameEnd f status s output).Bounded f.msg := by
  obtain ⟨hgasLeft, hle⟩ := @frameResult_gas f s status.coarse hs
  by_cases hstatus : status = .Success
  · subst hstatus
    have hcharged := hs.charged
    exact ⟨hgasLeft, Int.le_trans hle hworth, by simpa [frameEnd, frameResult, StatusCode.coarse] using hs.left,
      by simpa [frameEnd, frameResult, StatusCode.coarse] using hs.spilled,
      by simpa [frameEnd, frameResult, StatusCode.coarse] using hcharged.symm, fun h => absurd rfl h⟩
  · obtain ⟨hleft, hspilled⟩ := frameResult_failed hs (mt coarse_eq_success.mp hstatus)
    have hcharged : (frameEnd f status s output).charged = 0 := if_neg hstatus
    refine ⟨hgasLeft, Int.le_trans hle hworth, ?_, ?_, ?_, fun _ => ⟨hleft, hspilled⟩⟩
    · simp only [frameEnd, hleft]; exact hstate
    · simp only [frameEnd, hspilled]; exact Int.le_refl 0
    · rw [hcharged]; simp only [frameEnd, hleft, hspilled]; omega

theorem run_spec (fuel : Nat) (hgas : 0 ≤ f.msg.gas) (hstate : 0 ≤ f.msg.stateGas) (hfuel : f.msg.gas < fuel) :
    (run keccak f fuel).Spec (Allowed f) Answered fun o => ∃ r, o = some r ∧ r.Bounded f.msg := by
  obtain ⟨hledger, hworth⟩ := ledger_reset hgas hstate
  refine ⟨trivial, fun _ _ => ?_⟩
  show ((dispatch keccak f fuel f.reset).bind (finish f)).Spec _ _ _
  refine Program.spec_bind.mpr ((dispatch_spec fuel hledger (by omega)).mono (fun _ h => h) fun o ho => ?_)
  obtain ⟨status, s, rfl, hs, hle⟩ := ho
  refine Program.spec_bind.mpr ?_
  have hend : ∀ output, ((askMem .DestroyMemory).bind fun _ =>
      (.Done (some (frameEnd f status s output)) : Program Request.Answer (Option Result))).Spec (Allowed f) Answered
        fun o => ∃ r, o = some r ∧ r.Bounded f.msg :=
    fun output => ⟨trivial, fun _ _ => ⟨_, rfl, frameEnd_bounded output hs (by omega) hstate⟩⟩
  split
  · exact hend []
  · exact ⟨trivial, fun output _ => hend output⟩

section Host

variable {σ : Type} {H : HostInterface σ} {e e' e'' : Env σ}

-- A host whose call() reports what a frame does.
def HostInterface.Bounded (H : HostInterface σ) : Prop :=
  ∀ msg e r e', 0 ≤ msg.gas → 0 ≤ msg.stateGas → H.call msg e = .ok (r, e') → r.Bounded msg

theorem memCost_mono {a b : Nat} (h : a ≤ b) : memCost a ≤ memCost b := by
  unfold memCost
  have := Nat.div_le_div_right (c := 512) (Nat.mul_le_mul h h)
  omega

theorem ensure_paid (m : EVMMem) (need : Nat) (gas : Int) : MemGas.Paid gas (ensure m need gas).1 := by
  unfold ensure MemGas.Paid
  simp only
  split
  · exact ⟨id, Int.le_refl _⟩
  · next hneed =>
    split
    · exact ⟨id, Int.le_refl _⟩
    · split
      · exact ⟨id, Int.le_refl _⟩
      · split
        · exact ⟨id, Int.le_refl _⟩
        · have hsize : (m.handles m.cur).size ≤ roundUpWord need := by
            have := le_roundUpWord need
            omega
          have := memCost_mono (Nat.div_le_div_right (c := kWord) hsize)
          exact ⟨fun _ => by simp only; omega, by simp only; omega⟩

theorem expand_paid (m : EVMMem) (addr len : Nat) (gas : Int) : MemGas.Paid gas (expand m addr len gas).1 := by
  unfold expand
  split
  · exact ⟨id, Int.le_refl _⟩
  · split
    · exact ⟨id, Int.le_refl _⟩
    · exact ensure_paid m _ gas

theorem serve_answered (q : MemRequest) (m : EVMMem) : Answered (.Mem q) (q.serve m).1 := by
  cases q with
  | Expand addr len gas => exact expand_paid m addr len gas
  | ReadBytes addr len gas => exact expand_paid m addr len gas
  | WriteBytes addr src gas => exact expand_paid m addr src.length gas
  | WriteByte addr value gas =>
    show MemGas.Paid gas (writeByte m addr value gas).1
    unfold writeByte
    split
    · exact ⟨id, Int.le_refl _⟩
    · exact ensure_paid m _ gas
  | CreateMemory | DestroyMemory | Size | Load addr len | Store addr src => trivial

theorem bounded_answers (hH : H.Bounded) {q : Request} {a : q.Answer} (hq : Allowed f q)
    (h : H.serve q e = .ok (a, e')) : Answered q a := by
  cases q with
  | Host q => trivial
  | Mem q =>
    cases h
    exact serve_answered q e.mem
  | Call msg => exact hH msg e a e' hq.1 hq.2.1 h

-- The states in which the dispatch loop fetches an instruction, of a frame started from `e`.
inductive Boundary (keccak : Bytes → Bytes32) (H : HostInterface σ) (f : Frame) (e : Env σ) :
    EvmState → Env σ → Prop where
  | Start : Boundary keccak H f e f.reset { e with mem := (createMemory e.mem).2 }
  | Step {s s' : EvmState} {e₁ e₂ : Env σ} (before : Boundary keccak H f e s e₁)
      (executed : (instruction keccak f s).run H.serve e₁ = .ok (.Ok () s', e₂)) : Boundary keccak H f e s' e₂

theorem instruction_run (hH : H.Bounded) (hs : Ledger f s) {o : Outcome Unit}
    (h : (instruction keccak f s).run H.serve e = .ok (o, e')) : o.Within f s 1 :=
  ((instruction_within hs).run (R := fun _ _ => True) (fun _ => trivial) (fun _ _ => trivial)
    (fun hq hserve => ⟨bounded_answers hH hq hserve, trivial⟩) h).1

theorem frame_run (hH : H.Bounded) (hgas : 0 ≤ f.msg.gas) (hstate : 0 ≤ f.msg.stateGas) {fuel : Nat}
    (hfuel : f.msg.gas < fuel) {o : Option Result} (h : (run keccak f fuel).run H.serve e = .ok (o, e')) :
    ∃ r, o = some r ∧ r.Bounded f.msg :=
  ((run_spec fuel hgas hstate hfuel).run (R := fun _ _ => True) (fun _ => trivial) (fun _ _ => trivial)
    (fun hq hserve => ⟨bounded_answers hH hq hserve, trivial⟩) h).1

theorem Boundary.ledger (hH : H.Bounded) (hgas : 0 ≤ f.msg.gas) (hstate : 0 ≤ f.msg.stateGas)
    (h : Boundary keccak H f e s e') : Ledger f s := by
  induction h with
  | Start => exact (ledger_reset hgas hstate).1
  | Step before executed ih => exact (instruction_run hH ih executed).1

-- A message to the account 0 and a host that knows nothing: every account is missing, every slot
-- new, and every call fails.
def plainMessage (gas stateGas : Int) : Message :=
  { kind := .Call, isStatic := false, isDelegated := false, depth := 0, gas := gas, stateGas := stateGas
    recipient := addressOf 0, sender := addressOf 1, inputData := [], value := 0, codeAddress := addressOf 0 }

def answeringHost : HostInterface Unit where
  answer
    | .AccountExists _, u => .ok (false, u)
    | .GetStorage _, u => .ok (0, u)
    | .SetStorage _ _, u => .ok (.Added, u)
    | .GetBalance _, u => .ok (10, u)
    | .GetNonce _, u => .ok (0, u)
    | .GetCodeSize _, u => .ok (0, u)
    | .GetCodeHash _, u => .ok (digestOf 0, u)
    | .CopyCode _ _ _, u => .ok ([], u)
    | .Selfdestruct _ _, u => .ok (true, u)
    | .GetTxContext, _ => .error "no transaction"
    | .GetBlockHash _, _ => .error "no ancestor"
    | .EmitLog _, u => .ok ((), u)
    | .AccessAccount _, u => .ok (.Cold, u)
    | .AccessStorage _, u => .ok (.Warm, u)
    | .GetTransientStorage _, u => .ok (0, u)
    | .SetTransientStorage _ _, u => .ok ((), u)
  call msg e := .ok (⟨.Revert, msg.gas, 0, msg.stateGas, 0, [0xaa], 0⟩, e)

theorem answeringHost_bounded : answeringHost.Bounded := by
  intro msg e r e' hgas hstate h
  cases h
  exact ⟨hgas, by simp only; omega, hstate, Int.le_refl 0, by simp only; omega, fun _ => ⟨rfl, rfl⟩⟩

-- With more fuel than gas the loop halts, unless the host halts the guest; every boundary has its
-- books in order, each instruction that goes on takes from what the frame is worth, and one that
-- halts the frame adds nothing to it.
theorem frame_halts_and_conserves {σ : Type} (keccak : Bytes → Bytes32) (H : HostInterface σ) (f : Frame)
    (e : Env σ) (hgas : 0 ≤ f.msg.gas) (hstate : 0 ≤ f.msg.stateGas) (hH : H.Bounded) :
    (∀ fuel : Nat, f.msg.gas < fuel → ∀ o e', (run keccak f fuel).run H.serve e = .ok (o, e') →
      ∃ r, o = some r ∧ r.Bounded f.msg) ∧
    (∀ s e₁, Boundary keccak H f e s e₁ →
      0 ≤ s.purse.gas ∧ 0 ≤ s.purse.left ∧ 0 ≤ s.purse.spilled ∧ (0 < s.purse.spilled → s.purse.left = 0)) ∧
    (∀ s e₁ s' e₂, Boundary keccak H f e s e₁ → (instruction keccak f s).run H.serve e₁ = .ok (.Ok () s', e₂) →
      s'.purse.gas + s'.purse.spilled < s.purse.gas + s.purse.spilled) ∧
    (∀ s e₁ status s' e₂, Boundary keccak H f e s e₁ →
      (instruction keccak f s).run H.serve e₁ = .ok (.Halt status s', e₂) →
      s'.purse.gas + s'.purse.spilled ≤ s.purse.gas + s.purse.spilled) := by
  refine ⟨fun fuel hfuel o e' h => frame_run hH hgas hstate hfuel h, fun s e₁ hb => ?_, fun s e₁ s' e₂ hb h => ?_,
    fun s e₁ status s' e₂ hb h => ?_⟩
  · have hs := hb.ledger hH hgas hstate
    exact ⟨hs.gas, hs.left, hs.spilled, hs.exclusive⟩
  · have hpaid := (instruction_run hH (hb.ledger hH hgas hstate) h).2
    simp only [EvmState.worth] at hpaid
    omega
  · exact (instruction_run hH (hb.ledger hH hgas hstate) h).2

end Host

-- A slot is written, and a value is sent to a missing account by a call that fails: the charge for
-- the account, most of which spilled into the regular gas, comes back.
def revertedCall : Frame :=
  ⟨.Amsterdam, plainMessage 400000 100000,
    [0x60, 1, 0x60, 0, 0x55, 0x60, 0, 0x60, 0, 0x60, 0, 0x60, 0, 0x60, 1, 0x60, 5, 0x60, 0, 0xf1, 0x3d]⟩

theorem frame_halts_and_conserves_revertedCall :
    ∃ r e', (run (fun _ => digestOf 0) revertedCall 400001).run answeringHost.serve ⟨(), EVMMem.init⟩ = .ok (some r, e') ∧
      r = ⟨.Success, 377871, 0, 2080, 0, [], 97920⟩ ∧ r.Bounded revertedCall.msg := by
  have hrun : ((run (fun _ => digestOf 0) revertedCall 400001).run answeringHost.serve ⟨(), EVMMem.init⟩).map Prod.fst =
      .ok (some ⟨.Success, 377871, 0, 2080, 0, [], 97920⟩) := by decide +kernel
  obtain ⟨⟨_, e'⟩, h, rfl⟩ := map_eq_ok.mp hrun
  obtain ⟨r, hr, hbounded⟩ := (frame_halts_and_conserves (fun _ => digestOf 0) answeringHost revertedCall
    ⟨(), EVMMem.init⟩ (by decide) (by decide) answeringHost_bounded).1 400001 (by decide) _ e' h
  cases hr
  exact ⟨_, e', h, rfl, hbounded⟩

-- STOP costs nothing: the instruction that ends a frame need not take anything from its worth.
theorem stop_is_free :
    let f : Frame := ⟨.Amsterdam, plainMessage 7 0, [0x00]⟩
    (instruction (fun _ => digestOf 0) f f.reset).run answeringHost.serve ⟨(), EVMMem.init⟩ =
      .ok (.Halt .Success f.reset, ⟨(), EVMMem.init⟩) := rfl

end Zeg.Zevm
