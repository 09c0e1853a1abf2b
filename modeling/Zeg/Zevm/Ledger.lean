import Zeg.Zevm.Dispatch

-- The books of a frame: what it has paid, what it may ask, and what its parts keep of both.
namespace Zeg.Zevm

open Base StateDB Gas Memory

-- At every instruction of a frame.
structure Ledger (f : Frame) (s : EvmState) : Prop where
  gas : 0 ≤ s.purse.gas
  left : 0 ≤ s.purse.left
  spilled : 0 ≤ s.purse.spilled
  exclusive : 0 < s.purse.spilled → s.purse.left = 0
  charged : s.charged = f.msg.stateGas - s.purse.left + s.purse.spilled
  frozen : f.rev.atLeast .Amsterdam = false → s.purse.left = f.msg.stateGas ∧ s.purse.spilled = 0

-- What a frame reports.
structure Result.Bounded (msg : Message) (r : Result) : Prop where
  gasLeft : 0 ≤ r.gasLeft
  gas : r.gasLeft + r.spilled ≤ msg.gas
  left : 0 ≤ r.left
  spilled : 0 ≤ r.spilled
  charged : msg.stateGas - r.left + r.spilled = r.charged
  failed : r.status ≠ .Success → r.left = msg.stateGas ∧ r.spilled = 0

-- Regular gas, including what state charges took out of it.
def EvmState.worth (s : EvmState) : Int := s.purse.gas + s.purse.spilled

def Query.mutates : Query → Bool
  | .SetStorage _ _ => true
  | .SetTransientStorage _ _ => true
  | .EmitLog _ => true
  | .Selfdestruct _ _ => true
  | _ => false

-- The requests a frame makes: in static mode none that changes state, and no child that could.
def Allowed (f : Frame) : Request → Prop
  | .Host q => f.msg.isStatic = true → q.mutates = false
  | .Mem _ => True
  | .Call msg =>
    0 ≤ msg.gas ∧ 0 ≤ msg.stateGas ∧ msg.depth = f.msg.depth + 1 ∧ f.msg.depth < kMaxCallDepth ∧
      (f.msg.isStatic = true → msg.isStatic = true ∧ msg.kind ≠ .Create ∧ msg.kind ≠ .Create2 ∧
        (msg.kind = .Call → msg.value = 0))

def MemGas.Paid (gas : Int) (r : MemGas) : Prop := (0 ≤ gas → 0 ≤ r.gas) ∧ r.gas ≤ gas

-- What the books need of an answer.
def Answered : (q : Request) → q.Answer → Prop
  | .Host _, _ => True
  | .Mem (.Expand _ _ gas), r => MemGas.Paid gas r
  | .Mem (.ReadBytes _ _ gas), r => MemGas.Paid gas r.1
  | .Mem (.WriteBytes _ _ gas), r => MemGas.Paid gas r
  | .Mem (.WriteByte _ _ gas), r => MemGas.Paid gas r
  | .Mem _, _ => True
  | .Call msg, r => r.Bounded msg

-- The books are kept, and a part that goes on has paid at least `g`.
def Outcome.Within {α : Type} (f : Frame) (s : EvmState) (g : Int) : Outcome α → Prop
  | .Ok _ s' => Ledger f s' ∧ s'.worth + g ≤ s.worth
  | .Halt _ s' => Ledger f s' ∧ s'.worth ≤ s.worth

def Exec.Keeps {α : Type} (f : Frame) (g : Int) (m : Exec α) : Prop :=
  ∀ s, Ledger f s → (m s).Spec (Allowed f) Answered (Outcome.Within f s g)

variable {f : Frame} {s s' : EvmState} {α β : Type} {g g' cost : Int}

theorem Outcome.Within.after {d : Int} {o : Outcome α} (h : o.Within f s' g') (hpaid : s'.worth + g ≤ s.worth)
    (hg : 0 ≤ g) (hd : d ≤ g + g') : o.Within f s d := by
  cases o with
  | Halt status s'' => exact ⟨h.1, by have := h.2; omega⟩
  | Ok a s'' => exact ⟨h.1, by have := h.2; omega⟩

namespace Exec

section Combine

variable {m : Exec α} {k : α → Exec β}

theorem Keeps.bind (hm : m.Keeps f g) (hg : 0 ≤ g) (hk : ∀ a, (k a).Keeps f g') :
    (m >>= k).Keeps f (g + g') := by
  intro s hs
  refine Program.spec_bind.mpr ((hm s hs).mono (fun _ h => h) fun o ho => ?_)
  cases o with
  | Halt status s' => exact ho
  | Ok a s' => exact (hk a s' ho.1).mono (fun _ h => h) fun _ h => h.after ho.2 hg (Int.le_refl _)

theorem Keeps.pays (hm : m.Keeps f g) (hg : 0 ≤ g) (hk : ∀ a, (k a).Keeps f 0) : (m >>= k).Keeps f g := by
  have h := hm.bind hg hk
  rwa [Int.add_zero] at h

theorem Keeps.free (hm : m.Keeps f 0) (hk : ∀ a, (k a).Keeps f g) : (m >>= k).Keeps f g := by
  have h := hm.bind (Int.le_refl 0) hk
  rwa [Int.zero_add] at h

theorem Keeps.weaken (hm : m.Keeps f g) (hg : g' ≤ g) : m.Keeps f g' :=
  fun s hs => (hm s hs).mono (fun _ h => h) fun _ h => h.after (by omega) (Int.le_refl 0) (by omega)

theorem Keeps.covers (hm : m.Keeps f g) (hg : g' ≤ g) (h0 : 0 ≤ g) (hk : ∀ a, (k a).Keeps f (-g')) :
    (m >>= k).Keeps f 0 :=
  (hm.bind h0 hk).weaken (by omega)

end Combine

-- As `Keeps`, and a value that is returned satisfies `Q`.
def Gives (f : Frame) (Q : α → Prop) (m : Exec α) : Prop :=
  ∀ s, Ledger f s → (m s).Spec (Allowed f) Answered fun o =>
    Outcome.Within f s 0 o ∧ ∀ a s', o = .Ok a s' → Q a

variable {Q : α → Prop} {m : Exec α} {k : α → Exec β}

theorem Gives.free (hm : m.Gives f Q) (hk : ∀ a, Q a → (k a).Keeps f g) : (m >>= k).Keeps f g := by
  intro s hs
  refine Program.spec_bind.mpr ((hm s hs).mono (fun _ h => h) fun o ho => ?_)
  cases o with
  | Halt status s' => exact ho.1
  | Ok a s' =>
    exact (hk a (ho.2 a s' rfl) s' ho.1.1).mono (fun _ h => h) fun _ h => h.after ho.1.2 (Int.le_refl 0) (by omega)

theorem Gives.bind {R : β → Prop} (hm : m.Gives f Q) (hk : ∀ a, Q a → (k a).Gives f R) : (m >>= k).Gives f R := by
  intro s hs
  refine Program.spec_bind.mpr ((hm s hs).mono (fun _ h => h) fun o ho => ?_)
  cases o with
  | Halt status s' => exact ⟨ho.1, nofun⟩
  | Ok a s' =>
    exact (hk a (ho.2 a s' rfl) s' ho.1.1).mono (fun _ h => h) fun _ h =>
      ⟨h.1.after ho.1.2 (Int.le_refl 0) (by omega), h.2⟩

theorem Keeps.gives {Q : β → Prop} (hm : m.Keeps f 0) (hk : ∀ a, (k a).Gives f Q) : (m >>= k).Gives f Q := by
  have htrue : m.Gives f fun _ => True :=
    fun s hs => (hm s hs).mono (fun _ h => h) fun _ ho => ⟨ho, fun _ _ _ => trivial⟩
  exact htrue.bind fun a _ => hk a

theorem pure_gives {a : α} (ha : Q a) : (pure a : Exec α).Gives f Q :=
  fun _ hs => ⟨⟨hs, by omega⟩, fun _ _ h => by cases h; exact ha⟩

theorem ite_gives {c : Prop} [Decidable c] {m' : Exec α} (hm : c → m.Gives f Q) (hm' : ¬ c → m'.Gives f Q)
    : (if c then m else m').Gives f Q := by
  split
  · exact hm ‹_›
  · exact hm' ‹_›

theorem pure_keeps (a : α) : (pure a : Exec α).Keeps f 0 := fun _ hs => ⟨hs, by omega⟩

theorem halt_keeps (status : StatusCode) : (halt status : Exec α).Keeps f g := fun _ hs => ⟨hs, Int.le_refl _⟩

-- The books are not touched.
def Still (s s' : EvmState) : Prop := s'.purse = s.purse ∧ s'.charged = s.charged

theorem ledger_still (hs : Ledger f s) (h : Still s s') : Ledger f s' ∧ s'.worth = s.worth := by
  obtain ⟨hpurse, hcharged⟩ := h
  refine ⟨?_, by simp only [EvmState.worth, hpurse]⟩
  constructor <;> simp only [hpurse, hcharged]
  exacts [hs.gas, hs.left, hs.spilled, hs.exclusive, hs.charged, hs.frozen]

theorem modify_keeps {change : EvmState → EvmState} (hpurse : ∀ s, (change s).purse = s.purse)
    (hcharged : ∀ s, (change s).charged = s.charged) : (modify change).Keeps f 0 := by
  intro s hs
  obtain ⟨hledger, hworth⟩ := ledger_still hs ⟨hpurse s, hcharged s⟩
  exact ⟨hledger, by omega⟩

theorem get_keeps : get.Keeps f 0 := fun _ hs => ⟨hs, by omega⟩

theorem ask_keeps {q : Request} (hq : Allowed f q) : (ask q).Keeps f 0 :=
  fun _ hs => ⟨hq, fun _ _ => ⟨hs, by omega⟩⟩

theorem askHost_keeps {q : Query} (hq : q.mutates = false) : (askHost q).Keeps f 0 :=
  ask_keeps fun _ => hq

theorem askMem_keeps {q : MemRequest} : (ask (.Mem q)).Keeps f 0 := ask_keeps trivial

variable {b : Bool}

theorem require_keeps {status : StatusCode} (hm : b = true → m.Keeps f g) :
    (require b status >>= fun _ => m).Keeps f g := by
  cases b with
  | false => exact fun s hs => ⟨hs, Int.le_refl _⟩
  | true => exact (pure_keeps ()).free fun _ => hm rfl

theorem ite_keeps {c : Prop} [Decidable c] {m' : Exec α} (hm : c → m.Keeps f g) (hm' : ¬ c → m'.Keeps f g) :
    (if c then m else m').Keeps f g := by
  split
  · exact hm ‹_›
  · exact hm' ‹_›

def Ends (f : Frame) (m : Exec α) (s : EvmState) (post : α → EvmState → Prop) : Prop :=
  (m s).Spec (Allowed f) Answered fun o => ∃ a s', o = .Ok a s' ∧ post a s'

theorem Ends.bind {post : α → EvmState → Prop} {R : Outcome β → Prop} (hm : m.Ends f s post)
    (hk : ∀ a s', post a s' → (k a s').Spec (Allowed f) Answered R) :
    ((m >>= k) s).Spec (Allowed f) Answered R := by
  refine Program.spec_bind.mpr (Program.Spec.mono hm (fun _ h => h) fun o ho => ?_)
  obtain ⟨a, s', rfl, ha⟩ := ho
  exact hk a s' ha

theorem pure_still (a : α) : Ends f (pure a : Exec α) s fun _ => Still s := ⟨a, s, rfl, rfl, rfl⟩

theorem askMem_still {q : MemRequest} : Ends f (ask (.Mem q)) s fun _ => Still s :=
  ⟨trivial, fun a _ => ⟨a, s, rfl, rfl, rfl⟩⟩

theorem memLoad_still (addr len : Nat) : Ends f (memLoad addr len) s fun _ => Still s := by
  unfold memLoad
  split
  · exact pure_still []
  · exact askMem_still

theorem memStore_still (addr : Nat) (src : Bytes) : Ends f (memStore addr src) s fun _ => Still s := by
  unfold memStore
  split
  · exact pure_still ()
  · exact askMem_still

-- gas

theorem useGas_keeps : (useGas cost).Keeps f cost := by
  intro s hs
  unfold useGas Purse.spend
  split
  · exact ⟨hs, Int.le_refl _⟩
  · next p hp =>
    split at hp
    · cases hp
    · cases hp
      refine ⟨⟨by simp only; omega, hs.left, hs.spilled, hs.exclusive, hs.charged, hs.frozen⟩, ?_⟩
      simp only [EvmState.worth]
      omega

theorem useGasIf_pays : (useGasIf b cost).Keeps f (if b then cost else 0) := by
  cases b with
  | false => exact pure_keeps ()
  | true => exact useGas_keeps

theorem useGasIf_keeps (hc : 0 ≤ cost) : (useGasIf b cost).Keeps f 0 :=
  useGasIf_pays.weaken (by split <;> omega)

theorem charge_cases {p p' : Purse} (h : p.charge cost = some p') :
    cost ≤ p.left ∧ p' = { p with left := p.left - cost } ∨
      p.left < cost ∧ cost - p.left ≤ p.gas ∧
        p' = ⟨p.gas - (cost - p.left), 0, p.spilled + (cost - p.left)⟩ := by
  unfold Purse.charge at h
  split at h
  · exact .inl ⟨‹_›, (Option.some.inj h).symm⟩
  · split at h
    · cases h
    · exact .inr ⟨by omega, by omega, (Option.some.inj h).symm⟩

theorem chargeStateGas_keeps (hrev : f.rev.atLeast .Amsterdam = true) (hc : 0 ≤ cost) :
    (chargeStateGas cost).Keeps f 0 := by
  intro s hs
  unfold chargeStateGas
  cases hp : s.purse.charge cost with
  | none => exact ⟨hs, Int.le_refl _⟩
  | some p =>
    obtain ⟨hgas, hleft, hspilled, hexclusive, hcharged, _⟩ := hs
    obtain ⟨hle, rfl⟩ | ⟨hlt, hpaid, rfl⟩ := charge_cases hp
    · refine ⟨⟨hgas, ?_, hspilled, ?_, ?_, by simp [hrev]⟩, ?_⟩ <;> simp only [EvmState.worth] <;> omega
    · refine ⟨⟨?_, Int.le_refl 0, ?_, fun _ => rfl, ?_, by simp [hrev]⟩, ?_⟩ <;>
        simp only [EvmState.worth] <;> omega

theorem ledger_refill (hrev : f.rev.atLeast .Amsterdam = true) (hc : 0 ≤ cost) (hs : Ledger f s) :
    Ledger f (s.refill cost) ∧ (s.refill cost).worth = s.worth := by
  obtain ⟨hgas, hleft, hspilled, hexclusive, hcharged, _⟩ := hs
  refine ⟨⟨?_, ?_, ?_, ?_, ?_, by simp [hrev]⟩, ?_⟩ <;>
    simp only [EvmState.refill, EvmState.worth, Purse.refill] <;> omega

theorem refillStateGas_keeps (hrev : f.rev.atLeast .Amsterdam = true) (hc : 0 ≤ cost) :
    (refillStateGas cost).Keeps f 0 := by
  intro s hs
  obtain ⟨hledger, hworth⟩ := ledger_refill hrev hc hs
  exact ⟨hledger, by simp only [hworth]; omega⟩

theorem addRefund_keeps (amount : Int) : (addRefund amount).Keeps f 0 :=
  modify_keeps (fun _ => rfl) fun _ => rfl

-- stack

theorem needs_keeps (n : Nat) : (needs n).Keeps f 0 := by
  intro s hs
  unfold needs
  split <;> exact ⟨hs, by omega⟩

theorem room_keeps : room.Keeps f 0 := by
  intro s hs
  unfold room
  split <;> exact ⟨hs, by omega⟩

theorem pop_keeps : pop.Keeps f 0 := by
  intro s hs
  unfold pop
  split
  · exact ⟨hs, Int.le_refl _⟩
  · exact ⟨⟨hs.gas, hs.left, hs.spilled, hs.exclusive, hs.charged, hs.frozen⟩, by simp only [EvmState.worth]; omega⟩

theorem popIf_keeps (b : Bool) : (popIf b).Keeps f 0 := ite_keeps (fun _ => pop_keeps) fun _ => pure_keeps 0

theorem push_keeps (v : Word) : (push v).Keeps f 0 := modify_keeps (fun _ => rfl) fun _ => rfl

theorem advance_keeps (n : Nat) : (advance n).Keeps f 0 := modify_keeps (fun _ => rfl) fun _ => rfl

-- memory

theorem settle_within {r : MemGas} (hs : Ledger f s) (hr : MemGas.Paid s.purse.gas r) :
    (settle r s).Spec (Allowed f) Answered (Outcome.Within f s 0) := by
  obtain ⟨hgas, hle⟩ := hr
  have hledger : Ledger f { s with purse := { s.purse with gas := r.gas } } :=
    ⟨hgas hs.gas, hs.left, hs.spilled, hs.exclusive, hs.charged, hs.frozen⟩
  unfold settle
  simp only
  split <;> exact ⟨hledger, by simp only [EvmState.worth]; omega⟩

theorem memExpand_keeps (addr len : Nat) : (memExpand addr len).Keeps f 0 :=
  fun _ hs => ⟨trivial, fun _ hr => settle_within hs hr⟩

theorem memWrite_keeps (addr : Nat) (src : Bytes) : (memWrite addr src).Keeps f 0 :=
  fun _ hs => ⟨trivial, fun _ hr => settle_within hs hr⟩

theorem memWriteByte_keeps (addr : Nat) (value : UInt8) : (memWriteByte addr value).Keeps f 0 :=
  fun _ hs => ⟨trivial, fun _ hr => settle_within hs hr⟩

theorem memRead_keeps (addr len : Nat) : (memRead addr len).Keeps f 0 := by
  intro s hs
  refine ⟨trivial, fun ⟨r, data⟩ hr => ?_⟩
  show ((settle r >>= fun _ => (pure data : Exec Bytes)) s).Spec _ _ _
  exact Program.spec_bind.mpr ((settle_within hs hr).mono (fun _ h => h) fun o ho => by cases o <;> exact ho)

theorem memLoad_keeps (addr len : Nat) : (memLoad addr len).Keeps f 0 :=
  ite_keeps (fun _ => pure_keeps []) fun _ => askMem_keeps

theorem memStore_keeps (addr : Nat) (src : Bytes) : (memStore addr src).Keeps f 0 :=
  ite_keeps (fun _ => pure_keeps ()) fun _ => askMem_keeps

end Exec

end Zeg.Zevm
