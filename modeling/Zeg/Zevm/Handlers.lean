import Zeg.Zevm.Ledger

-- Every handler keeps the books of its frame and pays for itself.
namespace Zeg.Zevm

open Base StateDB Gas Memory Exec

variable {f : Frame} {cost : Int} {keccak : Bytes → Bytes32}

theorem unop_keeps {op : Word → Word} (hc : 0 ≤ cost) : (unop cost op).Keeps f cost :=
  useGas_keeps.pays hc fun _ => (needs_keeps 1).free fun _ => pop_keeps.free fun a => push_keeps (op a)

theorem binop_keeps {op : Word → Word → Word} (hc : 0 ≤ cost) : (binop cost op).Keeps f cost :=
  useGas_keeps.pays hc fun _ => (needs_keeps 2).free fun _ => pop_keeps.free fun a =>
    pop_keeps.free fun b => push_keeps (op a b)

theorem ternop_keeps {op : Word → Word → Word → Word} (hc : 0 ≤ cost) : (ternop cost op).Keeps f cost :=
  useGas_keeps.pays hc fun _ => (needs_keeps 3).free fun _ => pop_keeps.free fun a =>
    pop_keeps.free fun b => pop_keeps.free fun c => push_keeps (op a b c)

theorem pushOp_keeps {value : Exec Word} (hc : 0 ≤ cost) (hv : value.Keeps f 0) :
    (pushOp cost value).Keeps f cost :=
  useGas_keeps.pays hc fun _ => hv.free fun v => room_keeps.free fun _ => push_keeps v

theorem txField_keeps (field : TxContext → Word) : (txField field).Keeps f 0 :=
  (askHost_keeps rfl).free fun tx => pure_keeps (field tx)

theorem cachedBalance_keeps : (cachedBalance f).Keeps f 0 := by
  refine get_keeps.free fun s => ?_
  cases s.selfBalance with
  | some v => exact pure_keeps v
  | none =>
    refine (askHost_keeps rfl).free fun v => Keeps.free ?_ fun _ => pure_keeps v
    exact modify_keeps (fun _ => rfl) fun _ => rfl

theorem exp_keeps : opExp.Keeps f GAS_EXP := by
  refine (needs_keeps 2).free fun _ => pop_keeps.free fun base => pop_keeps.free fun e => ?_
  have hc : GAS_EXP ≤ GAS_EXP + GAS_EXPBYTE * Alu.byteLen e := by simp only [GAS_EXP, GAS_EXPBYTE]; omega
  exact (useGas_keeps.weaken hc).pays (by decide) fun _ => push_keeps _

theorem words_nonneg {n : Nat} (hc : 0 ≤ cost) : 0 ≤ (numWords n : Int) * cost :=
  Int.mul_nonneg (Int.natCast_nonneg _) hc

theorem copyCost_nonneg (n : Nat) : 0 ≤ copyCost n := words_nonneg (by decide)

theorem keccak256_keeps : (opKeccak256 keccak).Keeps f GAS_KECCAK256 := by
  refine useGas_keeps.pays (by decide) fun _ => (needs_keeps 2).free fun _ => pop_keeps.free fun off =>
    pop_keeps.free fun size => (memExpand_keeps _ _).free fun _ => ?_
  refine (useGas_keeps.weaken (words_nonneg (by decide))).free fun _ => ?_
  exact (memLoad_keeps _ _).free fun data => push_keeps _

theorem dataCopy_keeps (data : Bytes) : (dataCopy data).Keeps f GAS_VERYLOW := by
  refine useGas_keeps.pays (by decide) fun _ => (needs_keeps 3).free fun _ => pop_keeps.free fun dst =>
    pop_keeps.free fun src => pop_keeps.free fun size => (memExpand_keeps _ _).free fun _ => ?_
  exact (useGas_keeps.weaken (copyCost_nonneg _)).free fun _ => memStore_keeps _ _

theorem warm_le_cold (rev : Revision) : WARM_ACCESS ≤ coldAccountAccess rev := by
  unfold coldAccountAccess
  split <;> decide

theorem chargeAccountAccess_keeps (a : Address) : (chargeAccountAccess f a).Keeps f 0 :=
  (askHost_keeps rfl).free fun _ => useGasIf_keeps (Int.sub_nonneg.mpr (warm_le_cold f.rev))

theorem accountOp_keeps {value : Address → Exec Word} (hc : 0 ≤ cost) (hv : ∀ a, (value a).Keeps f 0) :
    (accountOp f cost value).Keeps f cost :=
  useGas_keeps.pays hc fun _ => (needs_keeps 1).free fun _ => pop_keeps.free fun _ =>
    (chargeAccountAccess_keeps _).free fun _ => (hv _).free fun v => push_keeps v

theorem warm_le_extcodeBase : WARM_ACCESS ≤ extcodeBase f := by
  unfold extcodeBase
  split <;> decide

theorem copyCodeToMem_keeps (a : Address) (dst src size : Nat) : (copyCodeToMem a dst src size).Keeps f 0 :=
  ite_keeps (fun _ => pure_keeps ()) fun _ => (askHost_keeps rfl).free fun _ => memStore_keeps _ _

theorem extcodecopy_keeps : (opExtcodecopy f).Keeps f WARM_ACCESS := by
  refine (useGas_keeps.weaken warm_le_extcodeBase).pays (by decide) fun _ => (needs_keeps 4).free fun _ =>
    pop_keeps.free fun a => pop_keeps.free fun dst => pop_keeps.free fun src => pop_keeps.free fun size =>
    (memExpand_keeps _ _).free fun _ => ?_
  exact (useGas_keeps.weaken (copyCost_nonneg _)).free fun _ =>
    (chargeAccountAccess_keeps _).free fun _ => copyCodeToMem_keeps _ _ _ _

theorem blockHash_keeps (v : Word) : (blockHash v).Keeps f 0 :=
  (askHost_keeps rfl).free fun _ =>
    ite_keeps (fun _ => (askHost_keeps rfl).free fun _ => pure_keeps _) fun _ => pure_keeps 0

theorem blockhash_keeps : opBlockhash.Keeps f GAS_BLOCKHASH :=
  useGas_keeps.pays (by decide) fun _ => (needs_keeps 1).free fun _ => pop_keeps.free fun v =>
    (blockHash_keeps v).free fun hash => push_keeps hash

theorem blobhash_keeps : opBlobhash.Keeps f GAS_VERYLOW :=
  useGas_keeps.pays (by decide) fun _ => (needs_keeps 1).free fun _ => pop_keeps.free fun v =>
    ((askHost_keeps rfl).free fun _ => pure_keeps _).free fun hash => push_keeps hash

-- memory

theorem mload_keeps : opMload.Keeps f GAS_VERYLOW :=
  useGas_keeps.pays (by decide) fun _ => (needs_keeps 1).free fun _ => pop_keeps.free fun off =>
    require_keeps fun _ => (memRead_keeps _ _).free fun data => push_keeps _

theorem mstore_keeps : opMstore.Keeps f GAS_VERYLOW :=
  useGas_keeps.pays (by decide) fun _ => (needs_keeps 2).free fun _ => pop_keeps.free fun off =>
    pop_keeps.free fun v => require_keeps fun _ => memWrite_keeps _ _

theorem mstore8_keeps : opMstore8.Keeps f GAS_VERYLOW :=
  useGas_keeps.pays (by decide) fun _ => (needs_keeps 2).free fun _ => pop_keeps.free fun off =>
    pop_keeps.free fun v => require_keeps fun _ => memWriteByte_keeps _ _

theorem mcopy_keeps : opMcopy.Keeps f GAS_VERYLOW := by
  refine useGas_keeps.pays (by decide) fun _ => (needs_keeps 3).free fun _ => pop_keeps.free fun dst =>
    pop_keeps.free fun src => pop_keeps.free fun size => (memExpand_keeps _ _).free fun _ => ?_
  exact (useGas_keeps.weaken (copyCost_nonneg _)).free fun _ =>
    (memLoad_keeps _ _).free fun data => memStore_keeps _ _

-- storage

theorem sload_keeps : (opSload f).Keeps f WARM_ACCESS :=
  useGas_keeps.pays (by decide) fun _ => (needs_keeps 1).free fun _ => pop_keeps.free fun key =>
    (askHost_keeps rfl).free fun _ => (useGasIf_keeps (by decide)).free fun _ =>
    (askHost_keeps rfl).free fun v => push_keeps v

theorem warm_le_sstoreCost (rev : Revision) (status : StorageStatus) : WARM_ACCESS ≤ (sstoreCost rev status).1 := by
  cases rev <;> cases status <;> decide

theorem cold_nonneg (rev : Revision) : 0 ≤ (storageSpec rev).cold := by
  cases rev <;> decide

theorem slotStateGas_keeps (status : StorageStatus) : (slotStateGas f.rev status).Keeps f 0 := by
  refine ite_keeps (fun hrev => ?_) fun _ => pure_keeps ()
  cases status with
  | Added => exact chargeStateGas_keeps hrev (by decide)
  | AddedDeleted => exact refillStateGas_keeps hrev (by decide)
  | Assigned | Deleted | Modified | DeletedAdded | ModifiedDeleted | DeletedRestored | ModifiedRestored =>
    exact pure_keeps ()

theorem mutating_keeps {q : Query} (hstatic : (!f.msg.isStatic) = true) : (askHost q).Keeps f 0 :=
  ask_keeps fun h => by simp [h] at hstatic

theorem sentry_keeps : sentry.Keeps f 0 :=
  get_keeps.free fun _ => ite_keeps (fun _ => pure_keeps ()) fun _ => halt_keeps _

theorem sstore_keeps : (opSstore f).Keeps f WARM_ACCESS := by
  refine (needs_keeps 2).free fun _ => require_keeps fun hstatic => sentry_keeps.free fun _ =>
    pop_keeps.free fun key => pop_keeps.free fun v => (askHost_keeps rfl).free fun access =>
    (mutating_keeps hstatic).free fun status => ?_
  have hc : WARM_ACCESS ≤ (sstoreCost f.rev status).1 + if access = .Cold then (storageSpec f.rev).cold else 0 := by
    have := warm_le_sstoreCost f.rev status
    have := cold_nonneg f.rev
    split <;> omega
  exact (useGas_keeps.weaken hc).pays (by decide) fun _ =>
    (slotStateGas_keeps status).free fun _ => addRefund_keeps _

theorem tload_keeps : (opTload f).Keeps f WARM_ACCESS :=
  useGas_keeps.pays (by decide) fun _ => (needs_keeps 1).free fun _ => pop_keeps.free fun key =>
    (askHost_keeps rfl).free fun v => push_keeps v

theorem tstore_keeps : (opTstore f).Keeps f WARM_ACCESS :=
  useGas_keeps.pays (by decide) fun _ => require_keeps fun hstatic => (needs_keeps 2).free fun _ =>
    pop_keeps.free fun key => pop_keeps.free fun v => mutating_keeps hstatic

-- control

theorem jumpTo_keeps (dest : Nat) : (jumpTo f dest).Keeps f 0 := by
  refine require_keeps fun _ => (useGas_keeps.weaken (by decide)).free fun _ => ?_
  exact modify_keeps (fun _ => rfl) fun _ => rfl

theorem jump_keeps : (opJump f).Keeps f GAS_MID :=
  useGas_keeps.pays (by decide) fun _ => (needs_keeps 1).free fun _ => pop_keeps.free fun d => jumpTo_keeps _

theorem jumpi_keeps : (opJumpi f).Keeps f GAS_HIGH :=
  useGas_keeps.pays (by decide) fun _ => (needs_keeps 2).free fun _ => pop_keeps.free fun d =>
    pop_keeps.free fun cond => ite_keeps (fun _ => jumpTo_keeps _) fun _ => advance_keeps 1

theorem opPop_keeps : opPop.Keeps f GAS_BASE :=
  useGas_keeps.pays (by decide) fun _ => (needs_keeps 1).free fun _ => pop_keeps.free fun _ => pure_keeps ()

theorem opPc_keeps : opPc.Keeps f GAS_BASE :=
  pushOp_keeps (by decide) (get_keeps.free fun _ => pure_keeps _)

theorem opGas_keeps : opGas.Keeps f GAS_BASE :=
  pushOp_keeps (by decide) (get_keeps.free fun _ => pure_keeps _)

theorem memSize_keeps : memSize.Keeps f 0 := askMem_keeps.free fun _ => pure_keeps _

-- log

theorem popTopics_keeps (n : Nat) : (popTopics n).Keeps f 0 := by
  induction n with
  | zero => exact pure_keeps []
  | succ n ih => exact pop_keeps.free fun topic => ih.free fun topics => pure_keeps (topic :: topics)

theorem logImpl_keeps (n : Nat) : (logImpl f n).Keeps f GAS_LOG := by
  have hc : GAS_LOG ≤ GAS_LOG * (1 + n) := by simp only [GAS_LOG]; omega
  refine (useGas_keeps.weaken hc).pays (by decide) fun _ => (needs_keeps _).free fun _ =>
    require_keeps fun hstatic => pop_keeps.free fun off => pop_keeps.free fun size =>
    (memExpand_keeps _ _).free fun _ => ?_
  have hdata : 0 ≤ (memArg size : Int) * GAS_LOGDATA := Int.mul_nonneg (Int.natCast_nonneg _) (by decide)
  exact (useGas_keeps.weaken hdata).free fun _ => (popTopics_keeps n).free fun topics =>
    (memLoad_keeps _ _).free fun data => (mutating_keeps hstatic).free fun _ => advance_keeps 1

-- push and stack

theorem opPush_keeps (n : Nat) : (opPush f n).Keeps f GAS_VERYLOW :=
  useGas_keeps.pays (by decide) fun _ => room_keeps.free fun _ => get_keeps.free fun _ =>
    (push_keeps _).free fun _ => advance_keeps _

theorem dup_keeps (n : Nat) : (dup n).Keeps f 0 :=
  (needs_keeps n).free fun _ => room_keeps.free fun _ => get_keeps.free fun _ => push_keeps _

theorem swap_keeps (n m : Nat) : (swap n m).Keeps f 0 := by
  refine (needs_keeps _).free fun _ => ?_
  exact modify_keeps (fun _ => rfl) fun _ => rfl

theorem immediateOp_keeps {α : Type} {decode : UInt8 → Option α} {op : α → Exec Unit}
    (hop : ∀ x, (op x).Keeps f 0) : (immediateOp f decode op).Keeps f GAS_VERYLOW := by
  refine useGas_keeps.pays (by decide) fun _ => get_keeps.free fun s => ?_
  cases decode (immByte f.code s.pc) with
  | none => exact halt_keeps _
  | some x => exact (hop x).free fun _ => advance_keeps 2

end Zeg.Zevm
