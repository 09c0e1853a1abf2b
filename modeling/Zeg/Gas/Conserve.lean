import Zeg.Base.Total
import Zeg.Gas

-- What a frame conserves: regular gas only falls, the reservoir pays for every slot that is
-- allocated, and the refund counter covers every slot that is cleared.
namespace Zeg.Gas

open Base StateDB

variable {rev : Revision} {p p' q : Purse} {g g' u u' cost : Int}

structure Purse.Sound (p : Purse) : Prop where
  gas : 0 ≤ p.gas
  left : 0 ≤ p.left
  spilled : 0 ≤ p.spilled

-- From `p` to `p'` at least `g` regular gas and `u` state gas were paid. State gas that spilled is
-- not gone: it comes back when the charge is undone.
structure Pays (rev : Revision) (p p' : Purse) (g u : Int) : Prop extends Purse.Sound p' where
  paid : p'.gas + p'.spilled + g ≤ p.gas + p.spilled
  used : u ≤ p'.spilled - p'.left - (p.spilled - p.left)
  frozen : rev.atLeast .Amsterdam = false → p'.left = p.left ∧ p'.spilled = p.spilled

namespace Pays

theorem refl (hp : p.Sound) : Pays rev p p 0 0 :=
  { toSound := hp, paid := by omega, used := by omega, frozen := fun _ => ⟨rfl, rfl⟩ }

theorem trans (h : Pays rev p q g u) (h' : Pays rev q p' g' u') : Pays rev p p' (g + g') (u + u') where
  toSound := h'.toSound
  paid := by have := h.paid; have := h'.paid; omega
  used := by have := h.used; have := h'.used; omega
  frozen := by
    intro hrev
    have hq := h.frozen hrev
    have hp' := h'.frozen hrev
    omega

theorem mono (h : Pays rev p p' g u) (hg : g' ≤ g) (hu : u' ≤ u) : Pays rev p p' g' u' where
  toSound := h.toSound
  paid := by have := h.paid; omega
  used := by have := h.used; omega
  frozen := h.frozen

theorem give (h : Pays rev p p' g u) (hc : 0 ≤ cost) :
    Pays rev p { p' with gas := p'.gas + cost } (g - cost) u where
  gas := by have := h.gas; simp only; omega
  left := h.left
  spilled := h.spilled
  paid := by have := h.paid; simp only; omega
  used := h.used
  frozen := h.frozen

end Pays

theorem Purse.spend_pays (hp : p.Sound) (h : p.spend cost = some p') : Pays rev p p' cost 0 := by
  unfold Purse.spend at h
  split at h
  · cases h
  · next hgas =>
    obtain rfl := Option.some.inj h
    exact ⟨⟨by simp only; omega, hp.left, hp.spilled⟩, by simp only; omega, by simp only; omega,
      fun _ => ⟨rfl, rfl⟩⟩

theorem Purse.spendIf_pays {b : Bool} (hp : p.Sound) (h : p.spendIf b cost = some p') :
    Pays rev p p' (if b then cost else 0) 0 := by
  cases b with
  | false =>
    obtain rfl := Option.some.inj h
    exact Pays.refl hp
  | true => exact p.spend_pays hp h

theorem Purse.charge_pays (hrev : rev.atLeast .Amsterdam = true) (hp : p.Sound)
    (h : p.charge cost = some p') : Pays rev p p' 0 cost := by
  have hgas := hp.gas
  have hspilled := hp.spilled
  unfold Purse.charge at h
  split at h
  · obtain rfl := Option.some.inj h
    exact ⟨⟨hgas, by simp only; omega, hspilled⟩, by simp only; omega, by simp only; omega,
      by simp [hrev]⟩
  · split at h
    · cases h
    · obtain rfl := Option.some.inj h
      exact ⟨⟨by simp only; omega, by simp only; omega, by simp only; omega⟩, by simp only; omega,
        by simp only; omega, by simp [hrev]⟩

theorem Purse.refill_pays (hrev : rev.atLeast .Amsterdam = true) (hp : p.Sound) (hc : 0 ≤ cost) :
    Pays rev p (p.refill cost) 0 (-cost) := by
  have hgas := hp.gas
  have hleft := hp.left
  have hspilled := hp.spilled
  unfold Purse.refill
  exact ⟨⟨by simp only; omega, by simp only; omega, by simp only; omega⟩, by simp only; omega,
    by simp only; omega, by simp [hrev]⟩

theorem Purse.allButOne64th_le (p : Purse) (hgas : 0 ≤ p.gas) :
    0 ≤ p.allButOne64th ∧ p.allButOne64th ≤ p.gas := by
  unfold Purse.allButOne64th
  omega

theorem new_account_nonneg : 0 ≤ NEW_ACCOUNT_STATE_GAS := by decide

theorem storage_set_nonneg : 0 ≤ STORAGE_SET_STATE_GAS := by decide

theorem Purse.chargeIf_pays {b : Bool} (hb : b = true → rev.atLeast .Amsterdam = true) (hp : p.Sound)
    (h : p.chargeIf b cost = some p') :
    Pays rev p p' 0 (if b then cost else 0) := by
  cases b with
  | false =>
    obtain rfl := Option.some.inj h
    exact Pays.refl hp
  | true => exact p.charge_pays (hb rfl) hp h

theorem Purse.refillIf_pays {b : Bool} (hb : b = true → rev.atLeast .Amsterdam = true) (hp : p.Sound) :
    Pays rev p (p.refillIf b) 0 (-if b then NEW_ACCOUNT_STATE_GAS else 0) := by
  cases b with
  | false => exact (Pays.refl hp).mono (by omega) (by simp)
  | true => exact p.refill_pays (hb rfl) hp new_account_nonneg

-- The charges of the opcodes.

theorem warm_le : WARM_ACCESS ≤ coldAccountAccess rev := by cases rev <;> decide

theorem stipend_le : CALL_STIPEND ≤ callValueCost rev := by cases rev <;> decide

theorem callCharges_pays {c : Call} {charged : Bool} (hp : p.Sound)
    (h : callCharges rev c p = some (p', charged)) :
    Pays rev p p' c.stipend (if charged then NEW_ACCOUNT_STATE_GAS else 0) ∧
      (charged = true → rev.atLeast .Amsterdam = true) := by
  simp only [callCharges, Option.bind_eq_bind, Option.bind_eq_some_iff] at h
  obtain ⟨p₁, h₁, p₂, h₂, p₃, h₃, p₄, h₄, p₅, h₅, hlast⟩ := h
  have w₁ : Pays rev p p₁ _ 0 := p.spend_pays hp h₁
  have w₂ : Pays rev p₁ p₂ _ 0 := p₁.spend_pays w₁.toSound h₂
  have w₃ : Pays rev p₂ p₃ _ 0 := p₂.spendIf_pays w₂.toSound h₃
  have w₄ : Pays rev p₃ p₄ _ 0 := p₃.spendIf_pays w₃.toSound h₄
  have w₅ : Pays rev p₄ p₅ _ 0 := p₄.spendIf_pays w₄.toSound h₅
  have hwarm : 0 ≤ WARM_ACCESS := by decide
  have hcost : CALL_STIPEND ≤ callValueCost rev := stipend_le
  have haccess : WARM_ACCESS ≤ coldAccountAccess rev := warm_le
  have hvalue : c.stipend ≤ if c.value then callValueCost rev else 0 := by
    unfold Call.stipend
    split <;> omega
  have hpaid : Pays rev p p₅ c.stipend 0 :=
    ((((w₁.trans w₂).trans w₃).trans w₄).trans w₅).mono (by omega) (by omega)
  split at hlast
  · split at hlast
    · next hrev =>
      obtain ⟨p₆, h₆, heq⟩ := Option.map_eq_some_iff.mp hlast
      obtain ⟨rfl, rfl⟩ := Prod.mk.inj heq
      exact ⟨(hpaid.trans (p₅.charge_pays hrev hpaid.toSound h₆)).mono (by omega) (by simp),
        fun _ => hrev⟩
    · obtain ⟨p₆, h₆, heq⟩ := Option.map_eq_some_iff.mp hlast
      obtain ⟨rfl, rfl⟩ := Prod.mk.inj heq
      have hcreate : 0 ≤ ACCOUNT_CREATION := by decide
      exact ⟨(hpaid.trans (p₅.spend_pays hpaid.toSound h₆)).mono (by omega) (by simp), by simp⟩
  · obtain ⟨rfl, rfl⟩ := Prod.mk.inj (Option.some.inj hlast)
    exact ⟨hpaid, by simp⟩

theorem createCharges_pays {c : Create} (hp : p.Sound) (h : createCharges rev c p = some p') :
    Pays rev p p' 0 0 := by
  simp only [createCharges, Option.bind_eq_bind, Option.bind_eq_some_iff] at h
  obtain ⟨p₁, h₁, p₂, h₂, h₃⟩ := h
  have w₁ : Pays rev p p₁ _ 0 := p.spend_pays hp h₁
  have w₂ : Pays rev p₁ p₂ _ 0 := p₁.spend_pays w₁.toSound h₂
  have w₃ : Pays rev p₂ p' _ 0 := p₂.spend_pays w₂.toSound h₃
  have hbase : 0 ≤ if rev.atLeast .Amsterdam then CREATE_ACCESS else 32000 := by
    split <;> decide
  exact ((w₁.trans w₂).trans w₃).mono (by omega) (by omega)

theorem selfdestructCharges_pays {cold newAccount : Bool} (hp : p.Sound)
    (h : selfdestructCharges rev cold newAccount p = some p') : Pays rev p p' 0 0 := by
  simp only [selfdestructCharges, Option.bind_eq_bind, Option.bind_eq_some_iff] at h
  obtain ⟨p₁, h₁, p₂, h₂, h₃⟩ := h
  have w₁ : Pays rev p p₁ _ 0 := p.spend_pays hp h₁
  have w₂ : Pays rev p₁ p₂ _ 0 := p₁.spendIf_pays w₁.toSound h₂
  have hwarm : 0 ≤ WARM_ACCESS := by decide
  have haccess : WARM_ACCESS ≤ coldAccountAccess rev := warm_le
  have hbase : 0 ≤ SELFDESTRUCT_GAS := by decide
  have hpaid : Pays rev p p₂ 0 0 := (w₁.trans w₂).mono (by omega) (by omega)
  split at h₃
  · split at h₃
    · next hrev =>
      obtain ⟨p₃, hwrite, hcharge⟩ := Option.bind_eq_some_iff.mp h₃
      have w₃ : Pays rev p₂ p₃ _ 0 := p₂.spend_pays hpaid.toSound hwrite
      have w₄ := p₃.charge_pays hrev w₃.toSound hcharge
      have hcost : 0 ≤ ACCOUNT_WRITE := by decide
      have := new_account_nonneg
      exact (hpaid.trans (w₃.trans w₄)).mono (by omega) (by omega)
    · have hcost : 0 ≤ ACCOUNT_CREATION := by decide
      exact (hpaid.trans (p₂.spend_pays hpaid.toSound h₃)).mono (by omega) (by omega)
  · obtain rfl := Option.some.inj h₃
    exact hpaid

-- What a write to a slot owes in state gas: a slot allocated in the transaction holds its charge.
def slotDue (rev : Revision) (o v : Word) : Int :=
  if rev.atLeast .Amsterdam && o = 0 && v ≠ 0 then STORAGE_SET_STATE_GAS else 0

-- What the refund counter holds for a slot that the transaction has cleared.
def slotRefund (rev : Revision) (o v : Word) : Int :=
  if o ≠ 0 && v = 0 then (storageSpec rev).clear else 0

theorem slotDue_nonneg (o v : Word) : 0 ≤ slotDue rev o v := by
  unfold slotDue
  split <;> decide

theorem clear_nonneg : 0 ≤ (storageSpec rev).clear := by cases rev <;> decide

theorem slotRefund_nonneg (o v : Word) : 0 ≤ slotRefund rev o v := by
  unfold slotRefund
  split
  · exact clear_nonneg
  · decide

-- The refund of a write moves the counter by at least the change of the slot's own refund.
theorem sstoreCost_refund (rev : Revision) (o c v : Word) :
    slotRefund rev o v - slotRefund rev o c ≤ (sstoreCost rev (computeStorageStatus o c v)).2 := by
  have hset : (storageSpec rev).warm ≤ (storageSpec rev).set := by cases rev <;> decide
  have hreset : (storageSpec rev).warm ≤ (storageSpec rev).reset := by cases rev <;> decide
  unfold computeStorageStatus slotRefund sstoreCost
  grind

theorem sstoreCost_nonneg (status : StorageStatus) : 0 ≤ (sstoreCost rev status).1 := by
  cases rev <;> cases status <;> decide

-- Only the two statuses that move state gas change whether a slot is allocated.
theorem slotDue_step (hrev : rev.atLeast .Amsterdam = true) (o c v : Word) :
    (slotDue rev o v - slotDue rev o c ≤ match computeStorageStatus o c v with
      | .Added => STORAGE_SET_STATE_GAS
      | .AddedDeleted => -STORAGE_SET_STATE_GAS
      | _ => 0) := by
  unfold computeStorageStatus slotDue
  grind

theorem sstoreCharge_pays {o c v : Word} {cold : Bool} (hp : p.Sound)
    (h : sstoreCharge rev (computeStorageStatus o c v) cold p = some p') :
    Pays rev p p' 0 (slotDue rev o v - slotDue rev o c) := by
  simp only [sstoreCharge, Option.bind_eq_bind, Option.bind_eq_some_iff] at h
  obtain ⟨p₁, h₁, h₂⟩ := h
  have w₁ : Pays rev p p₁ _ 0 := p.spend_pays hp h₁
  have hcost : 0 ≤ (sstoreCost rev (computeStorageStatus o c v)).1 := sstoreCost_nonneg _
  have hcold : 0 ≤ if cold then (storageSpec rev).cold else 0 := by
    split
    · cases rev <;> decide
    · decide
  have hpaid : Pays rev p p₁ 0 0 := w₁.mono (by omega) (by omega)
  split at h₂
  · next hrev =>
    have hdue := slotDue_step hrev o c v
    split at h₂
    · next hstatus =>
      simp only [hstatus] at hdue
      exact (hpaid.trans (p₁.charge_pays hrev hpaid.toSound h₂)).mono (by omega) (by simpa using hdue)
    · next hstatus =>
      simp only [hstatus] at hdue
      obtain rfl := Option.some.inj h₂
      exact (hpaid.trans (p₁.refill_pays hrev hpaid.toSound storage_set_nonneg)).mono (by omega)
        (by simpa using hdue)
    · next hadded hdeleted =>
      obtain rfl := Option.some.inj h₂
      simp only at hdue
      exact hpaid.mono (by omega) hdue
  · next hrev =>
    obtain rfl := Option.some.inj h₂
    apply hpaid.mono (by omega)
    simp [slotDue, hrev]

-- What a result may report of a frame that was given `gas` and `stateGas` and whose writes that
-- stand owe `u` in state gas and `f` of refund.
structure Result.Within (rev : Revision) (gas stateGas u f : Int) (r : Result) : Prop where
  gasLeft : 0 ≤ r.gasLeft
  le : r.gasLeft ≤ gas
  refund : f ≤ r.refund
  flat : rev.atLeast .Amsterdam = false → u ≤ 0
  sound : rev.atLeast .Amsterdam = true → Purse.Sound ⟨r.gasLeft, r.left, r.spilled⟩
  paid : rev.atLeast .Amsterdam = true → r.gasLeft + r.spilled ≤ gas
  used : rev.atLeast .Amsterdam = true → u ≤ r.spilled - r.left + stateGas
  frozen : rev.atLeast .Amsterdam = false → r.status = .Success → r.left = stateGas ∧ r.spilled = 0

variable {gas stateGas f : Int} {r r' : Result}

theorem Result.Within.mono {f' : Int} (h : r.Within rev gas stateGas u f) (hu : u' ≤ u) (hf : f' ≤ f) :
    r.Within rev gas stateGas u' f' :=
  { h with
    refund := by have := h.refund; omega
    flat := fun hrev => by have := h.flat hrev; omega
    used := fun hrev => by have := h.used hrev; omega }

theorem burned_within (hgas : 0 ≤ gas) (hstate : 0 ≤ stateGas) :
    (burned stateGas).Within rev gas stateGas 0 0 where
  gasLeft := Int.le_refl 0
  le := hgas
  refund := Int.le_refl 0
  flat := fun _ => by omega
  sound := fun _ => ⟨Int.le_refl 0, hstate, Int.le_refl 0⟩
  paid := fun _ => by simp only [burned]; omega
  used := fun _ => by simp only [burned]; omega
  frozen := fun _ => nofun

theorem frameResult_success (h : Pays rev ⟨gas, stateGas, 0⟩ p 0 u)
    {refund : Int} (hf : f ≤ refund) (hflat : rev.atLeast .Amsterdam = false → u ≤ 0) :
    (frameResult rev stateGas p refund .Success).Within rev gas stateGas u f := by
  have hpaid := h.paid
  have hspilled := h.spilled
  have hused := h.used
  simp only [frameResult, ne_eq, not_true_eq_false, decide_false, Bool.and_false, Bool.false_eq_true,
    if_false, if_true, reduceCtorEq]
  exact
    { gasLeft := h.gas
      le := by simp only at hpaid ⊢; omega
      refund := hf
      flat := hflat
      sound := fun _ => h.toSound
      paid := fun _ => by simp only at hpaid ⊢; omega
      used := fun _ => by simp only at hused ⊢; omega
      frozen := fun hrev _ => h.frozen hrev }

-- A frame that did not succeed leaves no write and no refund; a revert keeps its regular gas.
theorem frameResult_failed (hgas : 0 ≤ gas) (hstate : 0 ≤ stateGas) {refund : Int} {status : Status}
    (hs : status ≠ .Success) (h : status ≠ .Failure → Pays rev ⟨gas, stateGas, 0⟩ p 0 u) :
    (frameResult rev stateGas p refund status).Within rev gas stateGas 0 0 := by
  cases status with
  | Success => exact absurd rfl hs
  | Failure =>
    simp only [frameResult, if_true, reduceCtorEq, if_false]
    refine ⟨Int.le_refl 0, hgas, Int.le_refl 0, fun _ => by omega, ?_, ?_, ?_, fun _ => nofun⟩ <;> intro hrev
    · simp only [hrev, ne_eq, reduceCtorEq, not_false_eq_true, decide_true, Bool.and_true, if_true]
      exact ⟨Int.le_refl 0, hstate, Int.le_refl 0⟩
    · simpa [hrev] using hgas
    · simp [hrev]
  | Revert =>
    have hp := h (by decide)
    have hpaid := hp.paid
    have hpgas := hp.gas
    have hspilled := hp.spilled
    simp only at hpaid
    simp only [frameResult, reduceCtorEq, if_false, ne_eq, not_false_eq_true, decide_true,
      Bool.and_true]
    cases hrev : rev.atLeast .Amsterdam with
    | true =>
      simp only [if_true]
      exact ⟨by simp only; omega, by simp only; omega, Int.le_refl 0, fun _ => by omega,
        fun _ => ⟨by simp only; omega, hstate, Int.le_refl 0⟩, fun _ => by simp only; omega,
        fun _ => by simp only; omega, fun _ => nofun⟩
    | false =>
      simp only [Bool.false_eq_true, if_false]
      exact ⟨hpgas, by simp only; omega, Int.le_refl 0, fun _ => by omega, by simp [hrev],
        by simp [hrev], by simp [hrev], fun _ => nofun⟩

theorem chargeCodeDeposit_within {size : Nat} (h : r.Within rev gas stateGas u f)
    (hcharge : chargeCodeDeposit rev size r = some r') :
    r'.Within rev gas stateGas u f ∧ r'.status = r.status := by
  have hle := h.le
  unfold chargeCodeDeposit at hcharge
  split at hcharge
  · next hrev =>
    simp only [Option.bind_eq_bind, Option.bind_eq_some_iff, Option.pure_def] at hcharge
    obtain ⟨p₁, h₁, p₂, h₂, heq⟩ := hcharge
    obtain rfl := Option.some.inj heq
    have w₁ : Pays rev _ p₁ _ 0 := Purse.spend_pays (h.sound hrev) h₁
    have w₂ := p₁.charge_pays hrev w₁.toSound h₂
    have hpay := w₁.trans w₂
    have hcost : 0 ≤ (size : Int) * COST_PER_STATE_BYTE :=
      Int.mul_nonneg (Int.natCast_nonneg _) (by decide)
    have hpaid := hpay.paid
    have hused := hpay.used
    have hspilled := hpay.spilled
    have hpaid' := h.paid hrev
    have hused' := h.used hrev
    simp only at hpaid hused
    exact ⟨⟨hpay.gas, by simp only; omega, h.refund, h.flat, fun _ => hpay.toSound,
      fun _ => by simp only; omega, fun _ => by simp only; omega, by simp [hrev]⟩, rfl⟩
  · next hrev =>
    split at hcharge
    · cases hcharge
    · obtain rfl := Option.some.inj hcharge
      exact ⟨⟨by simp only; omega, by simp only; omega, h.refund, h.flat,
        fun hrev' => absurd hrev' hrev, fun hrev' => absurd hrev' hrev, fun hrev' => absurd hrev' hrev,
        h.frozen⟩, rfl⟩

theorem Purse.afterCall_pays {msgGas : Int} {charged : Bool} (hp : p.Sound) (hle : msgGas ≤ p.gas)
    (hcharged : charged = true → rev.atLeast .Amsterdam = true) (h : r.Within rev msgGas p.left u f) :
    Pays rev p (p.afterCall rev msgGas r charged) 0
      (u - if charged && r.status ≠ .Success then NEW_ACCOUNT_STATE_GAS else 0) := by
  have hspilled := hp.spilled
  have hback := h.gasLeft
  have hlow := h.le
  cases hrev : rev.atLeast .Amsterdam with
  | false =>
    have hcharged' : charged = false := by
      cases charged with
      | false => rfl
      | true => simp [hrev] at hcharged
    have hflat := h.flat hrev
    simp only [Purse.afterCall, hrev, hcharged', Bool.false_eq_true, if_false, Bool.false_and]
    exact ⟨⟨by simp only; omega, hp.left, hspilled⟩, by simp only; omega, by simp only; omega,
      fun _ => ⟨rfl, rfl⟩⟩
  | true =>
    have hsound := h.sound hrev
    have hpaid := h.paid hrev
    have hused := h.used hrev
    have hrleft := hsound.left
    have hrspilled := hsound.spilled
    simp only at hrleft hrspilled
    have habsorb : Pays rev p (({ p with gas := p.gas - (msgGas - r.gasLeft) } : Purse).absorb r) 0 u := by
      unfold Purse.absorb Purse.refill
      exact ⟨⟨by simp only; omega, by simp only; omega, by simp only; omega⟩, by simp only; omega,
        by simp only; omega, by simp [hrev]⟩
    simp only [Purse.afterCall, hrev, if_true]
    split
    · exact (habsorb.trans (Purse.refill_pays hrev habsorb.toSound new_account_nonneg)).mono
        (by omega) (by omega)
    · exact habsorb.mono (by omega) (by omega)

section Run

variable {K : Type} [Fintype K] [DecidableEq K] {orig start : K → Word} {m m' : Machine K}
  {status : Status}

def due (rev : Revision) (orig σ : K → Word) : Int := total (fun k v => slotDue rev (orig k) v) σ

def refunds (rev : Revision) (orig σ : K → Word) : Int := total (fun k v => slotRefund rev (orig k) v) σ

omit [DecidableEq K] in
theorem due_flat (hrev : rev.atLeast .Amsterdam = false) (σ : K → Word) : due rev orig σ = 0 := by
  apply total_eq_zero
  intro k
  simp [slotDue, hrev]

omit [DecidableEq K] in
theorem due_nonneg (σ : K → Word) : 0 ≤ due rev orig σ := total_nonneg σ fun k v => slotDue_nonneg (orig k) v

omit [DecidableEq K] in
theorem refunds_nonneg (σ : K → Word) : 0 ≤ refunds rev orig σ :=
  total_nonneg σ fun k v => slotRefund_nonneg (orig k) v

omit [DecidableEq K] in
theorem due_start : due rev orig orig = 0 := by
  apply total_eq_zero
  intro k
  simp only [slotDue]
  grind

omit [DecidableEq K] in
theorem refunds_start : refunds rev orig orig = 0 := by
  apply total_eq_zero
  intro k
  simp only [slotRefund]
  grind

-- The step invariant of a frame.
structure Keeps (rev : Revision) (orig : K → Word) (m m' : Machine K) : Prop
    extends Pays rev m.purse m'.purse 0 (due rev orig m'.storage - due rev orig m.storage) where
  refund : refunds rev orig m'.storage - refunds rev orig m.storage ≤ m'.refund - m.refund

omit [DecidableEq K] in
theorem Keeps.trans {m'' : Machine K} (h : Keeps rev orig m m') (h' : Keeps rev orig m' m'') :
    Keeps rev orig m m'' where
  toPays := (h.toPays.trans h'.toPays).mono (by omega) (by omega)
  refund := by have := h.refund; have := h'.refund; omega

omit [DecidableEq K] in
theorem Keeps.of_pays {refund : Int} (h : Pays rev m.purse p 0 0) (hr : m.refund ≤ refund) :
    Keeps rev orig m ⟨p, refund, m.storage⟩ where
  toPays := h.mono (by omega) (by simp)
  refund := by simp only; omega

theorem Keeps.sstore {key : K} {v : Word} {cold : Bool} (hm : m.purse.Sound)
    (h : sstoreCharge rev (computeStorageStatus (orig key) (m.storage key) v) cold m.purse = some p) :
    Keeps rev orig m ⟨p, m.refund + (sstoreCost rev (computeStorageStatus (orig key) (m.storage key) v)).2,
      Function.update m.storage key v⟩ where
  toPays := by
    apply (sstoreCharge_pays hm h).mono (by omega)
    simp only [due, total_update]
    omega
  refund := by
    have := sstoreCost_refund rev (orig key) (m.storage key) v
    simp only [refunds, total_update]
    omega

omit [DecidableEq K] in
theorem hostCall_within (hgas : 0 ≤ gas) (hstate : 0 ≤ stateGas)
    (h : status ≠ .Failure → Keeps rev orig ⟨⟨gas, stateGas, 0⟩, 0, start⟩ m) :
    (hostCall rev stateGas start m status).1.Within rev gas stateGas
      (due rev orig (hostCall rev stateGas start m status).2 - due rev orig start)
      (refunds rev orig (hostCall rev stateGas start m status).2 - refunds rev orig start) := by
  unfold hostCall
  by_cases hs : status = .Success
  · subst hs
    have hk := h (by decide)
    have hrefund := hk.refund
    apply frameResult_success hk.toPays
    · simpa using hrefund
    · intro hrev
      simp [due_flat hrev]
  · simp only [hs, if_false, Int.sub_self]
    exact frameResult_failed hgas hstate hs fun hf => (h hf).toPays

omit [DecidableEq K] in
theorem hostCreate_within (c : Deploy) (hgas : 0 ≤ gas) (hstate : 0 ≤ stateGas)
    (h : status ≠ .Failure → Keeps rev orig ⟨⟨gas, stateGas, 0⟩, 0, start⟩ m) :
    (hostCreate rev stateGas c start m status).1.Within rev gas stateGas
      (due rev orig (hostCreate rev stateGas c start m status).2 - due rev orig start)
      (refunds rev orig (hostCreate rev stateGas c start m status).2 - refunds rev orig start) := by
  have hburned : (burned stateGas).Within rev gas stateGas 0 0 := burned_within hgas hstate
  have hcall := hostCall_within hgas hstate h
  unfold hostCall at hcall
  unfold hostCreate
  split
  · simpa using hburned
  · have hstatus : (frameResult rev stateGas m.purse m.refund status).status = status := rfl
    simp only [deployed, hstatus]
    by_cases hs : status = .Success
    · subst hs
      simp only [ne_eq, not_true_eq_false, if_false, if_true] at hcall ⊢
      split
      · simpa [burned] using hburned
      · cases hcharge : chargeCodeDeposit rev c.codeSize (frameResult rev stateGas m.purse m.refund .Success) with
        | none => simpa [burned] using hburned
        | some r =>
          obtain ⟨hr, hok⟩ := chargeCodeDeposit_within hcall hcharge
          simp only [Option.getD_some, hok, hstatus, if_true]
          exact hr
    · simp only [ne_eq, hs, not_false_eq_true, if_true, hstatus, if_false] at hcall ⊢
      exact hcall

-- A child that was given `msgGas` and the reservoir, and whose result `r` and storage `σ` the
-- caller takes over.
omit [DecidableEq K] in
theorem Keeps.child {msgGas refund : Int} {σ : K → Word} {charged : Bool}
    (hcharge : Pays rev m.purse p 0 (if charged then NEW_ACCOUNT_STATE_GAS else 0))
    (hcharged : charged = true → rev.atLeast .Amsterdam = true) (hle : msgGas ≤ p.gas)
    (hr : r.Within rev msgGas p.left (due rev orig σ - due rev orig m.storage) refund)
    (hrefund : refund = refunds rev orig σ - refunds rev orig m.storage) :
    Keeps rev orig m ⟨p.afterCall rev msgGas r charged, m.refund + r.refund, σ⟩ where
  toPays := by
    apply (hcharge.trans (p.afterCall_pays hcharge.toSound hle hcharged hr)).mono (by omega)
    have := new_account_nonneg
    cases charged <;> simp only [Bool.false_and, Bool.true_and, Bool.false_eq_true, if_false, if_true]
    · omega
    · split <;> omega
  refund := by
    have := hr.refund
    simp only
    omega

-- Every frame that does not fail keeps the invariant, by induction on its events: the child of a
-- call is a frame of its own.
theorem exec_keeps (rev : Revision) (orig : K → Word) (code : Code K) (depth : Nat) (m : Machine K) {m' : Machine K} (hm : m.purse.Sound)
    (h : exec rev orig code depth m = (m', status)) (hs : status ≠ .Failure) : Keeps rev orig m m' := by
  induction code generalizing depth m m' status with
  | Halt s =>
    obtain ⟨rfl, rfl⟩ := Prod.mk.inj h
    exact Keeps.of_pays (Pays.refl hm) (Int.le_refl _)
  | Spend cost next ih =>
    simp only [exec] at h
    split at h
    · exact absurd (Prod.mk.inj h).2.symm hs
    · next p hp =>
      have hpay : Pays rev m.purse p cost 0 := m.purse.spend_pays hm hp
      have hstep : Keeps rev orig m { m with purse := p } :=
        Keeps.of_pays (hpay.mono (by omega) (by omega)) (Int.le_refl _)
      exact hstep.trans (ih _ _ hstep.toSound h hs)
  | SStore key v cold next ih =>
    simp only [exec] at h
    split at h
    · exact absurd (Prod.mk.inj h).2.symm hs
    · split at h
      · exact absurd (Prod.mk.inj h).2.symm hs
      · next p hp =>
        have hstep := Keeps.sstore hm hp
        exact hstep.trans (ih _ _ hstep.toSound h hs)
  | Call c child next ihChild ihNext =>
    simp only [exec] at h
    split at h
    · exact absurd (Prod.mk.inj h).2.symm hs
    · next p charged hp =>
      obtain ⟨hpay, hcharged⟩ := callCharges_pays hm hp
      have hstipend : 0 ≤ c.stipend := by
        unfold Call.stipend
        split <;> decide
      have hcharge := (hpay.give hstipend).mono (Int.le_of_eq (Int.sub_self _).symm) (Int.le_refl _)
      have hgas := hpay.gas
      have hleft := hpay.left
      split at h
      · have hback := hcharge.trans (Purse.refillIf_pays hcharged hcharge.toSound)
        have hstep : Keeps rev orig m ⟨_, m.refund, m.storage⟩ :=
          Keeps.of_pays (hback.mono (by omega) (by omega)) (Int.le_refl _)
        exact hstep.trans (ihNext _ _ hstep.toSound h hs)
      · have hcap := p.allButOne64th_le hgas
        have hmsgGas : 0 ≤ min (c.reqGas : Int) p.allButOne64th + c.stipend := by omega
        have hchild := hostCall_within hmsgGas hleft
          (ihChild (depth + 1) ⟨_, 0, m.storage⟩ ⟨hmsgGas, hleft, Int.le_refl 0⟩ Prod.mk.eta.symm)
        have hstep := Keeps.child hcharge hcharged (by simp only; omega) hchild rfl
        exact hstep.trans (ihNext _ _ hstep.toSound h hs)
  | Create c init next ihInit ihNext =>
    simp only [exec] at h
    split at h
    · exact absurd (Prod.mk.inj h).2.symm hs
    · next p hp =>
      have hpay : Pays rev m.purse p 0 0 := createCharges_pays hm hp
      split at h
      · have hstep : Keeps rev orig m { m with purse := p } := Keeps.of_pays hpay (Int.le_refl _)
        exact hstep.trans (ihNext _ _ hstep.toSound h hs)
      · split at h
        · exact absurd (Prod.mk.inj h).2.symm hs
        · next q hq =>
          have hcharged : (rev.atLeast .Amsterdam && c.newAccount) = true →
              rev.atLeast .Amsterdam = true := fun hc => (Bool.and_eq_true _ _ ▸ hc).1
          have hnew := Purse.chargeIf_pays hcharged hpay.toSound hq
          have hcharge := (hpay.trans hnew).mono (Int.le_refl 0) (Int.le_of_eq (Int.zero_add _).symm)
          have hleft := hcharge.left
          have hcap := q.allButOne64th_le hcharge.gas
          have hchild := hostCreate_within c.toDeploy hcap.1 hleft
            (ihInit (depth + 1) ⟨_, 0, m.storage⟩ ⟨hcap.1, hleft, Int.le_refl 0⟩ Prod.mk.eta.symm)
          have hstep := Keeps.child hcharge hcharged hcap.2 hchild rfl
          exact hstep.trans (ihNext _ _ hstep.toSound h hs)
  | Selfdestruct cold newAccount first =>
    simp only [exec] at h
    split at h
    · exact absurd (Prod.mk.inj h).2.symm hs
    · next p hp =>
      obtain ⟨rfl, rfl⟩ := Prod.mk.inj h
      apply Keeps.of_pays (selfdestructCharges_pays hm hp)
      split <;> simp [SELFDESTRUCT_REFUND]

end Run

end Zeg.Gas
