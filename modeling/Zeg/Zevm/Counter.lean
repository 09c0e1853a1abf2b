import Zeg.Zevm.Parts
import Zeg.Zevm.Sweep

-- Where an instruction leaves the program counter.
namespace Zeg.Zevm

open Base StateDB Gas Memory Exec

variable {f : Frame} {α β : Type} {keccak : Bytes → Bytes32} {p : Nat} {Q : Nat → Prop}

def Outcome.At (Q : Nat → Prop) : Outcome α → Prop
  | .Ok _ s => Q s.pc
  | .Halt _ _ => True

namespace Exec

-- Started at the counter `p` the part goes on, if it does, at a counter that satisfies `Q`.
def Lands (p : Nat) (m : Exec α) (Q : Nat → Prop) : Prop :=
  ∀ s, s.pc = p → (m s).Spec (fun _ => True) (fun _ _ => True) (Outcome.At Q)

-- The part leaves the counter alone.
def Stays (m : Exec α) : Prop := ∀ p, m.Lands p (· = p)

variable {m : Exec α} {n : α → Exec β}

theorem Lands.bind {R : Nat → Prop} (hm : m.Lands p Q) (hn : ∀ a q, Q q → (n a).Lands q R) : (m >>= n).Lands p R := by
  intro s hs
  refine Program.spec_bind.mpr ((hm s hs).mono (fun _ h => h) fun o ho => ?_)
  cases o with
  | Halt status s' => trivial
  | Ok a s' => exact hn a s'.pc ho s' rfl

theorem Stays.lands (hm : m.Stays) (hn : ∀ a, (n a).Lands p Q) :
    (m >>= n).Lands p Q :=
  (hm p).bind fun a _ hq => hq ▸ hn a

theorem Stays.bind (hm : m.Stays) (hn : ∀ a, (n a).Stays) : (m >>= n).Stays :=
  fun p => hm.lands fun a => hn a p

theorem halt_lands (status : StatusCode) : (halt status : Exec α).Lands p Q := fun _ _ => trivial

theorem get_lands {n : EvmState → Exec β} (hn : ∀ s, s.pc = p → (n s).Lands p Q) : (get >>= n).Lands p Q :=
  fun s hs => hn s hs s hs

theorem modify_lands {change : EvmState → EvmState} (h : ∀ s, s.pc = p → Q (change s).pc) : (modify change).Lands p Q :=
  fun s hs => h s hs

theorem advance_lands {n : Nat} (h : Q (p + n)) : (advance n).Lands p Q :=
  modify_lands fun s hs => by rw [← hs] at h; exact h

theorem ite_lands {c : Prop} [Decidable c] {m' : Exec α} (hm : c → m.Lands p Q) (hm' : ¬c → m'.Lands p Q) :
    (if c then m else m').Lands p Q := by
  split
  · next h => exact hm h
  · next h => exact hm' h

theorem require_lands {b : Bool} {status : StatusCode} {n : Unit → Exec β} (hn : b = true → (n ()).Lands p Q) :
    (require b status >>= n).Lands p Q := by
  cases b with
  | false => exact fun _ _ => trivial
  | true => exact hn rfl

end Exec

theorem ask_stays (q : Request) : (ask q).Stays := fun _ _ hs => ⟨trivial, fun _ _ => hs⟩

theorem stays_of_done {m : Exec α} (hm : ∀ s, ∃ o, m s = .Done o ∧ o.Calm s) : m.Stays := by
  rintro _ s rfl
  obtain ⟨o, ho, hcalm⟩ := hm s
  rw [ho]
  cases o with
  | Ok a s' => exact hcalm.1
  | Halt status s' => trivial

theorem stays : Reading fun _ m => m.Stays where
  bind hm hn := hm.bind hn
  done := stays_of_done
  mem _ := ask_stays _
  plain _ _ := ask_stays _
  reads _ _ _ := ask_stays _

theorem setBalance_stays (v : Option Word) : (modify fun s => { s with selfBalance := v }).Stays :=
  fun _ => modify_lands fun _ hs => hs

theorem cachedBalance_stays : (cachedBalance f).Stays := by
  refine stays.get.bind fun s => ?_
  cases s.selfBalance with
  | some v => exact stays.pure v
  | none => exact (ask_stays _).bind fun v => (setBalance_stays _).bind fun _ => stays.pure v

theorem ops_lands {m : Exec Unit} (hm : m.Stays) (h : Q (p + 1)) : (ops m).Lands p Q :=
  hm.lands fun _ => advance_lands h

theorem jumpTo_lands (dest : Nat) (h : ∀ q, isJumpdest f.code q = true → Q (q + 1)) : (jumpTo f dest).Lands p Q :=
  require_lands fun hdest => (stays.useGas _).lands fun _ => modify_lands fun _ _ => h dest hdest

theorem jump_lands (h : ∀ q, isJumpdest f.code q = true → Q (q + 1)) : (opJump f).Lands p Q :=
  (stays.useGas _).lands fun _ => (stays.needs 1).lands fun _ => stays.pop.lands fun _ => jumpTo_lands _ h

theorem jumpi_lands (h : ∀ q, isJumpdest f.code q = true → Q (q + 1)) (hnext : Q (p + 1)) : (opJumpi f).Lands p Q :=
  (stays.useGas _).lands fun _ => (stays.needs 2).lands fun _ => stays.pop.lands fun _ => stays.pop.lands fun _ =>
    ite_lands (fun _ => jumpTo_lands _ h) fun _ => advance_lands hnext

theorem opPush_lands {n : Nat} (h : Q (p + (n + 1))) : (opPush f n).Lands p Q :=
  (stays.useGas _).lands fun _ => stays.room.lands fun _ => stays.get.lands fun _ => (stays.push _).lands fun _ =>
    advance_lands h

theorem immediateOp_lands {decode : UInt8 → Option α} {op : α → Exec Unit} (hop : ∀ x, (op x).Stays)
    (h : decode (immByte f.code p) ≠ none → Q (p + 2)) : (immediateOp f decode op).Lands p Q := by
  refine (stays.useGas _).lands fun _ => get_lands fun s hs => ?_
  rw [hs]
  cases hdecode : decode (immByte f.code p) with
  | none => exact halt_lands _
  | some x => exact (hop x).lands fun _ => advance_lands (h (by rw [hdecode]; nofun))

theorem logImpl_lands (n : Nat) (h : Q (p + 1)) : (logImpl f n).Lands p Q :=
  (stays.useGas _).lands fun _ => (stays.needs _).lands fun _ => (stays.require _ _).lands fun _ =>
    stays.pop.lands fun _ => stays.pop.lands fun _ => (stays.memExpand _ _).lands fun _ => (stays.useGas _).lands fun _ =>
    (stays.popTopics n).lands fun _ => (stays.memLoad _ _).lands fun _ => (ask_stays _).lands fun _ => advance_lands h

theorem finishLight_lands (charged : Bool) (h : Q (p + 1)) : (finishLight charged).Lands p Q :=
  (stays.refillStateGasIf _ _).lands fun _ => (stays.push 0).lands fun _ => advance_lands h

theorem runChild_lands {args : CallArgs} {charged : Bool} {message : Bytes → Message} (h : Q (p + 1)) :
    (runChild f args charged message).Lands p Q :=
  (stays.memLoad _ _).lands fun _ => (ask_stays _).lands fun r => (stays.push _).lands fun _ =>
    (stays.memStore _ _).lands fun _ => (stays.setReturnData _).lands fun _ => (stays.reclaim _ _ r).lands fun _ =>
    advance_lands h

variable {kind : CallKind}

theorem callImpl_lands {hasValue staticForced : Bool} (h : Q (p + 1)) :
    (callImpl f kind hasValue staticForced).Lands p Q := by
  refine (setBalance_stays _).lands fun _ => (stays.useGas _).lands fun _ => (stays.needs _).lands fun _ =>
    (stays.popCallArgs _).lands fun _ => (stays.setReturnData _).lands fun _ => (stays.require _ _).lands fun _ =>
    (stays.memExpand _ _).lands fun _ => (stays.memExpand _ _).lands fun _ => (stays.useGasIf _ _).lands fun _ =>
    (stays.chargeAccountAccess _).lands fun _ => (stays.resolveDelegate _).lands fun _ =>
    (stays.chargeNewAccount _ _).lands fun charged => ?_
  refine stays.get.lands fun _ => (stays.giveGas _).lands fun _ => (stays.callFails _).lands fun _ => ?_
  exact ite_lands (fun _ => finishLight_lands charged h) fun _ => runChild_lands h

theorem createChild_lands {value : Word} {init : Bytes} {a : Address} (h : Q (p + 1)) :
    (createChild f kind value init a).Lands p Q :=
  (ask_stays _).lands fun _ => (stays.chargeCreated a).lands fun _ => stays.get.lands fun _ =>
    (ask_stays _).lands fun r => (stays.reclaim _ _ r).lands fun _ => (stays.setReturnData _).lands fun _ =>
    (stays.push _).lands fun _ => advance_lands h

theorem createImpl_lands (h : Q (p + 1)) : (createImpl keccak f kind).Lands p Q := by
  refine (setBalance_stays _).lands fun _ => (stays.useGas _).lands fun _ => (stays.needs _).lands fun _ =>
    (stays.require _ _).lands fun _ => stays.pop.lands fun _ => stays.pop.lands fun _ => stays.pop.lands fun _ =>
    (stays.popIf _).lands fun _ => (stays.setReturnData _).lands fun _ => (stays.memExpand _ _).lands fun _ =>
    (stays.require _ _).lands fun _ => (stays.useGasIf _ _).lands fun _ => (stays.senderNonce _).lands fun nonce => ?_
  cases nonce with
  | none => exact finishLight_lands false h
  | some nonce => exact (stays.memLoad _ _).lands fun _ => createChild_lands h

-- The handlers that end the frame.

theorem returnImpl_lands (status : StatusCode) : (returnImpl status).Lands p Q :=
  (stays.needs 2).lands fun _ => stays.pop.lands fun _ => stays.pop.lands fun _ => (stays.setOutput _ _).lands fun _ =>
    halt_lands status

theorem selfdestruct_lands : (opSelfdestruct f).Lands p Q :=
  (stays.useGas _).lands fun _ => (stays.needs 1).lands fun _ => (stays.require _ _).lands fun _ =>
    stays.pop.lands fun _ => (ask_stays _).lands fun _ => (stays.useGasIf _ _).lands fun _ =>
    (stays.chargeBeneficiary (ask_stays _) _).lands fun _ => (ask_stays _).lands fun _ => (stays.addRefund _).lands fun _ =>
    halt_lands _

end Zeg.Zevm
