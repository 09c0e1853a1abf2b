import Zeg.Gas.Conserve

-- What the SSTOREs of a transaction cost, slot by slot, whatever order they come in.
namespace Zeg.Gas

open Base StateDB Function

-- The revisions with net metering: Istanbul, then the guest's own.
inductive NetRevision where
  | Istanbul
  | Since (rev : Revision)

namespace NetRevision

variable (rev : NetRevision)

def spec : StorageCostSpec :=
  match rev with
  | .Istanbul => { warm := 800, set := 20000, reset := 5000, clear := 15000, cold := 0 }
  | .Since rev => storageSpec rev

def isAmsterdam : Bool :=
  match rev with
  | .Istanbul => false
  | .Since rev => rev.atLeast .Amsterdam

def sstoreCost (status : StorageStatus) : Int × Int :=
  let c := rev.spec
  match status with
  | .Assigned => (c.warm, 0)
  | .Added => (c.set, 0)
  | .Deleted => (c.reset, c.clear)
  | .Modified => (c.reset, 0)
  | .DeletedAdded => (c.warm, -c.clear)
  | .ModifiedDeleted => (c.warm, c.clear)
  | .DeletedRestored => (c.warm, c.reset - c.warm - c.clear)
  | .AddedDeleted => (c.warm, c.set - c.warm)
  | .ModifiedRestored => (c.warm, c.reset - c.warm)

theorem sstoreCost_since (rev : Revision) (status : StorageStatus) :
    (NetRevision.Since rev).sstoreCost status = Gas.sstoreCost rev status := rfl

-- The state gas of a write, negative when it is given back.
def slotStateGas (status : StorageStatus) : Int :=
  if rev.isAmsterdam then
    match status with
    | .Added => STORAGE_SET_STATE_GAS
    | .AddedDeleted => -STORAGE_SET_STATE_GAS
    | _ => 0
  else 0

end NetRevision

-- The storage events of one frame. A write is an SSTORE that has been paid for; one that runs out
-- of gas ends its frame.
inductive Events (K : Type) where
  | End (kept : Bool)
  | Load (key : K) (next : Events K)
  | Write (key : K) (v : Word) (next : Events K)
  | Call (child next : Events K)

-- What a frame has paid for one slot.
structure Tally where
  writes : Nat
  charged : Int
  surcharge : Int
  refunded : Int

def Tally.add (s t : Tally) : Tally :=
  ⟨s.writes + t.writes, s.charged + t.charged, s.surcharge + t.surcharge, s.refunded + t.refunded⟩

-- `refund` is the frame's gas_refund, `stateGas` what its writes have charged of state gas.
structure Meter (K : Type) where
  storage : K → Word
  warm : K → Bool
  refund : Int
  stateGas : Int
  slots : K → Tally

section

variable {K : Type} [DecidableEq K]

namespace Meter

def enter (storage : K → Word) (warm : K → Bool) : Meter K := ⟨storage, warm, 0, 0, fun _ => ⟨0, 0, 0, 0⟩⟩

variable (m : Meter K)

def load (key : K) : Meter K := { m with warm := Function.update m.warm key true }

-- access_storage, set_storage and the gas of op_sstore
def write (rev : NetRevision) (orig : K → Word) (key : K) (v : Word) : Meter K :=
  let surcharge := if m.warm key then 0 else rev.spec.cold
  let status := computeStorageStatus (orig key) (m.storage key) v
  let (cost, refund) := rev.sstoreCost status
  { storage := Function.update m.storage key v
    warm := Function.update m.warm key true
    refund := m.refund + refund
    stateGas := m.stateGas + rev.slotStateGas status
    slots := Function.update m.slots key ((m.slots key).add ⟨1, cost + surcharge, surcharge, refund⟩) }

-- A child that succeeded hands its counters to its caller.
def absorb (child : Meter K) : Meter K :=
  { child with
    refund := m.refund + child.refund
    stateGas := m.stateGas + child.stateGas
    slots := fun k => (m.slots k).add (child.slots k) }

end Meter

-- A frame that fails is rolled back with its refunds and its state gas; the regular gas it was
-- charged stays spent.
def Events.run (rev : NetRevision) (orig : K → Word) : Events K → Meter K → Meter K × Bool
  | .End kept, m => (m, kept)
  | .Load key next, m => next.run rev orig (m.load key)
  | .Write key v next, m => next.run rev orig (m.write rev orig key v)
  | .Call child next, m =>
    let (c, kept) := child.run rev orig (.enter m.storage m.warm)
    next.run rev orig (if kept then m.absorb c else m)

-- The transaction's own frame, from the slots it starts with.
def Events.transaction (rev : NetRevision) (orig : K → Word) (warm : K → Bool) (events : Events K) : Meter K :=
  let (m, kept) := events.run rev orig (.enter orig warm)
  if kept then m else .enter orig warm

end

-- The price of a slot that held `o` at the start of the transaction and holds `v` now, over the
-- warm cost of each write.
def slotPrice (c : StorageCostSpec) (o v : Word) : Int :=
  if v = o then 0
  else if o = 0 then c.set - c.warm
  else if v = 0 then c.reset - c.warm - c.clear
  else c.reset - c.warm

-- What a cleared slot has added to the refund counter, and an allocated one to the state gas.
def clearRefund (c : StorageCostSpec) (o v : Word) : Int := if o ≠ 0 ∧ v = 0 then c.clear else 0

def allocated (o v : Word) : Int := if o = 0 ∧ v ≠ 0 then STORAGE_SET_STATE_GAS else 0

section

variable {rev : NetRevision}

theorem slotPrice_self (c : StorageCostSpec) (o : Word) : slotPrice c o o = 0 := if_pos rfl

theorem sstoreCost_net (o c v : Word) :
    (rev.sstoreCost (computeStorageStatus o c v)).1 - (rev.sstoreCost (computeStorageStatus o c v)).2 =
      rev.spec.warm + slotPrice rev.spec o v - slotPrice rev.spec o c := by
  unfold computeStorageStatus slotPrice NetRevision.sstoreCost
  grind

theorem spec_ordered : 0 ≤ rev.spec.clear ∧ rev.spec.warm ≤ rev.spec.set ∧ rev.spec.warm ≤ rev.spec.reset := by
  cases rev with
  | Istanbul => decide
  | Since rev => cases rev <;> decide

theorem clearRefund_step (o c v : Word) :
    clearRefund rev.spec o v - clearRefund rev.spec o c ≤ (rev.sstoreCost (computeStorageStatus o c v)).2 := by
  obtain ⟨hclear, hset, hreset⟩ := @spec_ordered rev
  unfold computeStorageStatus clearRefund NetRevision.sstoreCost
  grind

theorem clearRefund_self (c : StorageCostSpec) (o : Word) : clearRefund c o o = 0 := if_neg fun h => h.1 h.2

theorem clearRefund_nonneg (o v : Word) : 0 ≤ clearRefund rev.spec o v := by
  unfold clearRefund
  split
  · exact spec_ordered.1
  · exact Int.le_refl 0

theorem slotStateGas_step (hrev : rev.isAmsterdam = true) (o c v : Word) :
    rev.slotStateGas (computeStorageStatus o c v) = allocated o v - allocated o c := by
  unfold computeStorageStatus allocated NetRevision.slotStateGas
  grind

section

variable {K : Type} [Fintype K] [DecidableEq K] {orig storage : K → Word} {warm : K → Bool} {m : Meter K}

def allocatedTotal (orig storage : K → Word) : Int := total (fun k v => allocated (orig k) v) storage

-- What the counters of a frame say once it has taken the slots from `storage` and `warm` to its own.
structure Metered (rev : NetRevision) (orig storage : K → Word) (warm : K → Bool) (m : Meter K) : Prop where
  net : ∀ k, (m.slots k).charged - (m.slots k).surcharge - (m.slots k).refunded =
    (m.slots k).writes * rev.spec.warm + slotPrice rev.spec (orig k) (m.storage k) -
      slotPrice rev.spec (orig k) (storage k)
  refunded : ∀ k, clearRefund rev.spec (orig k) (m.storage k) - clearRefund rev.spec (orig k) (storage k) ≤
    (m.slots k).refunded
  refund : m.refund = total (fun _ t => t.refunded) m.slots
  stateGas : rev.isAmsterdam = true → m.stateGas = allocatedTotal orig m.storage - allocatedTotal orig storage
  surcharge : ∀ k, (m.slots k).surcharge = 0 ∨
    (m.slots k).surcharge = rev.spec.cold ∧ warm k = false ∧ m.warm k = true
  warm : ∀ k, warm k = true → m.warm k = true

omit [DecidableEq K] in
theorem metered_enter (storage : K → Word) (warm : K → Bool) :
    Metered rev orig storage warm (.enter storage warm) where
  net k := by simp [Meter.enter]
  refunded k := by simp [Meter.enter]
  refund := (total_eq_zero fun _ => rfl).symm
  stateGas _ := (Int.sub_self _).symm
  surcharge k := .inl rfl
  warm k hk := hk

theorem Metered.load (h : Metered rev orig storage warm m) (key : K) :
    Metered rev orig storage warm (m.load key) where
  net := h.net
  refunded := h.refunded
  refund := h.refund
  stateGas := h.stateGas
  surcharge k := by
    obtain hzero | ⟨hcold, hstart, hwarm⟩ := h.surcharge k
    · exact .inl hzero
    · refine .inr ⟨hcold, hstart, ?_⟩
      simp only [Meter.load, update_apply]
      split
      · rfl
      · exact hwarm
  warm k hk := by
    simp only [Meter.load, update_apply]
    split
    · rfl
    · exact h.warm k hk

theorem Metered.write (h : Metered rev orig storage warm m) (key : K) (v : Word) :
    Metered rev orig storage warm (m.write rev orig key v) where
  net k := by
    have hk := h.net k
    have hstep := @sstoreCost_net rev (orig key) (m.storage key) v
    by_cases heq : k = key
    · subst heq
      simp only [Meter.write, update_self, Tally.add]
      push_cast
      rw [Int.add_mul, Int.one_mul]
      omega
    · simpa only [Meter.write, update_of_ne heq] using hk
  refunded k := by
    have hk := h.refunded k
    have hstep := @clearRefund_step rev (orig key) (m.storage key) v
    by_cases heq : k = key
    · subst heq
      simp only [Meter.write, update_self, Tally.add]
      omega
    · simpa only [Meter.write, update_of_ne heq] using hk
  refund := by
    simp only [Meter.write, total_update, Tally.add, h.refund]
    omega
  stateGas hrev := by
    simp only [Meter.write, allocatedTotal, total_update, slotStateGas_step hrev, h.stateGas hrev]
    omega
  surcharge k := by
    have hk := h.surcharge k
    by_cases heq : k = key
    · subst heq
      simp only [Meter.write, update_self, Tally.add]
      cases hwarm : m.warm k with
      | true => simpa [hwarm] using hk
      | false =>
        have hstart : warm k = false := by
          by_contra hne
          have := h.warm k (by simpa using hne)
          simp [hwarm] at this
        have hzero : (m.slots k).surcharge = 0 := by
          obtain hzero | ⟨-, -, hm⟩ := hk
          · exact hzero
          · simp [hwarm] at hm
        exact .inr ⟨by simp [hzero], hstart, trivial⟩
    · simpa only [Meter.write, update_of_ne heq] using hk
  warm k hk := by
    simp only [Meter.write, update_apply]
    split
    · rfl
    · exact h.warm k hk

omit [DecidableEq K] in
theorem Metered.absorb {c : Meter K} (h : Metered rev orig storage warm m)
    (hc : Metered rev orig m.storage m.warm c) : Metered rev orig storage warm (m.absorb c) where
  net k := by
    have hk := h.net k
    have hck := hc.net k
    simp only [Meter.absorb, Tally.add]
    push_cast
    rw [Int.add_mul]
    omega
  refunded k := by
    have hk := h.refunded k
    have hck := hc.refunded k
    simp only [Meter.absorb, Tally.add]
    omega
  refund := by
    simp only [Meter.absorb, Tally.add, h.refund, hc.refund, total, Finset.sum_add_distrib]
  stateGas hrev := by
    simp only [Meter.absorb, h.stateGas hrev, hc.stateGas hrev]
    omega
  surcharge k := by
    simp only [Meter.absorb, Tally.add]
    obtain hzero | ⟨hcold, hstart, hwarm⟩ := h.surcharge k
    · rw [hzero, Int.zero_add]
      obtain hczero | ⟨hccold, hm, hcwarm⟩ := hc.surcharge k
      · exact .inl hczero
      · refine .inr ⟨hccold, ?_, hcwarm⟩
        by_contra hne
        simp [h.warm k (by simpa using hne)] at hm
    · obtain hczero | ⟨-, hm, -⟩ := hc.surcharge k
      · rw [hczero, Int.add_zero]
        exact .inr ⟨hcold, hstart, hc.warm k hwarm⟩
      · simp [hwarm] at hm
  warm k hk := hc.warm k (h.warm k hk)

-- By induction on the events; a child is a frame of its own.
theorem metered_run (events : Events K) (h : Metered rev orig storage warm m) :
    Metered rev orig storage warm (events.run rev orig m).1 := by
  induction events generalizing m storage warm with
  | End kept => exact h
  | Load key next ih => exact ih (h.load key)
  | Write key v next ih => exact ih (h.write key v)
  | Call child next ihChild ihNext =>
    have hchild := ihChild (@metered_enter rev _ _ orig m.storage m.warm)
    simp only [Events.run]
    split
    · exact ihNext (h.absorb hchild)
    · exact ihNext h

theorem metered_transaction (rev : NetRevision) (orig : K → Word) (warm : K → Bool) (events : Events K) :
    Metered rev orig orig warm (events.transaction rev orig warm) := by
  have hstart : Metered rev orig orig warm (.enter orig warm) := metered_enter orig warm
  simp only [Events.transaction]
  split
  · exact metered_run events hstart
  · exact hstart

omit [DecidableEq K] in
theorem allocatedTotal_eq (orig storage : K → Word) :
    allocatedTotal orig storage =
      64 * 1530 * (Finset.univ.filter fun k => orig k = 0 ∧ storage k ≠ 0).card := by
  have hprice : STORAGE_SET_STATE_GAS = 64 * 1530 := by decide
  unfold allocatedTotal total allocated
  rw [← Finset.sum_filter, Finset.sum_const, hprice]
  simp [Int.mul_comm]

end

-- The storage events of a frame of the gas model.
section

variable {K : Type} [DecidableEq K] (rev : Revision) (orig : K → Word)

def eventsOf : Code K → Nat → Machine K → Events K
  | .Halt status, _, _ => .End (status = .Success)
  | .Spend cost next, depth, m =>
    match m.purse.spend cost with
    | none => .End false
    | some p => eventsOf next depth { m with purse := p }
  | .SStore key v cold next, depth, m =>
    if m.purse.gas ≤ SSTORE_SENTRY_GAS then .End false
    else
      let status := computeStorageStatus (orig key) (m.storage key) v
      match sstoreCharge rev status cold m.purse with
      | none => .End false
      | some p =>
        .Write key v (eventsOf next depth
          ⟨p, m.refund + (sstoreCost rev status).2, Function.update m.storage key v⟩)
  | .Call c child next, depth, m =>
    match callCharges rev c m.purse with
    | none => .End false
    | some (p, charged) =>
      let msgGas := min (c.reqGas : Int) p.allButOne64th + c.stipend
      let p := { p with gas := p.gas + c.stipend }
      if c.value && c.poor || 1024 ≤ depth then eventsOf next depth { m with purse := p.refillIf charged }
      else
        let inner : Machine K := ⟨⟨msgGas, p.left, 0⟩, 0, m.storage⟩
        let (m', status) := exec rev orig child (depth + 1) inner
        let (r, storage) := hostCall rev p.left m.storage m' status
        .Call (eventsOf child (depth + 1) inner)
          (eventsOf next depth ⟨p.afterCall rev msgGas r charged, m.refund + r.refund, storage⟩)
  | .Create c init next, depth, m =>
    match createCharges rev c m.purse with
    | none => .End false
    | some p =>
      if 1024 ≤ depth || c.light then eventsOf next depth { m with purse := p }
      else
        let charged := rev.atLeast .Amsterdam && c.newAccount
        match p.chargeIf charged NEW_ACCOUNT_STATE_GAS with
        | none => .End false
        | some p =>
          let msgGas := p.allButOne64th
          let inner : Machine K := ⟨⟨msgGas, p.left, 0⟩, 0, m.storage⟩
          let (m', status) := exec rev orig init (depth + 1) inner
          let (r, storage) := hostCreate rev p.left c.toDeploy m.storage m' status
          -- The host may still reject the code of a frame that succeeded.
          .Call (.Call (eventsOf init (depth + 1) inner) (.End (r.status = .Success)))
            (eventsOf next depth ⟨p.afterCall rev msgGas r charged, m.refund + r.refund, storage⟩)
  | .Selfdestruct cold newAccount _, _, m => .End (selfdestructCharges rev cold newAccount m.purse).isSome

-- A frame that succeeds leaves the storage its events leave and at least their refund; only
-- SELFDESTRUCT adds to it, before London.
structure Agrees (m m' : Machine K) (t t' : Meter K) : Prop where
  storage : t'.storage = m'.storage
  refund : t'.refund - t.refund ≤ m'.refund - m.refund
  london : rev.atLeast .London = true → t'.refund - t.refund = m'.refund - m.refund

def Follows (m : Machine K) (r : Machine K × Status) (t : Meter K) (r' : Meter K × Bool) : Prop :=
  r'.2 = decide (r.2 = .Success) ∧ (r.2 = .Success → Agrees rev m r.1 t r'.1)

variable {rev orig}

omit [DecidableEq K] in
theorem follows_failure {m m' : Machine K} {t t' : Meter K} : Follows rev m (m', .Failure) t (t', false) :=
  ⟨rfl, nofun⟩

omit [DecidableEq K] in
theorem Follows.step {m m₁ : Machine K} {t t₁ : Meter K} {r : Machine K × Status} {r' : Meter K × Bool}
    (h : Follows rev m₁ r t₁ r') (hle : t₁.refund - t.refund ≤ m₁.refund - m.refund)
    (heq : rev.atLeast .London = true → t₁.refund - t.refund = m₁.refund - m.refund) : Follows rev m r t r' := by
  refine ⟨h.1, fun hs => ?_⟩
  obtain ⟨hstorage, hrefund, hlondon⟩ := h.2 hs
  refine ⟨hstorage, by omega, fun hrev => ?_⟩
  have := hlondon hrev
  have := heq hrev
  omega

omit [DecidableEq K] in
theorem Follows.same {m m₁ : Machine K} {t : Meter K} {r : Machine K × Status} {r' : Meter K × Bool}
    (h : Follows rev m₁ r t r') (heq : m₁.refund = m.refund) : Follows rev m r t r' :=
  h.step (by omega) fun _ => by omega

omit [DecidableEq K] in
theorem Follows.wrapped {inner : Machine K} {t c : Meter K} {r : Machine K × Status} {kept : Bool}
    (h : Follows rev inner r (.enter t.storage t.warm) (c, kept)) :
    Follows rev inner r (.enter t.storage t.warm)
      (if kept then (Meter.enter t.storage t.warm).absorb c else .enter t.storage t.warm, kept) := by
  refine ⟨h.1, fun hs => ?_⟩
  have hkept : kept = true := by rw [show kept = decide (r.2 = .Success) from h.1]; exact decide_eq_true hs
  obtain ⟨hstorage, hrefund, hlondon⟩ := h.2 hs
  subst hkept
  simp only [if_true]
  refine ⟨hstorage, ?_, fun hrev => ?_⟩
  · simp only [Meter.absorb, Meter.enter] at hrefund ⊢
    omega
  · have := hlondon hrev
    simp only [Meter.absorb, Meter.enter] at this ⊢
    omega

-- What the caller sees of a child: nothing, unless it succeeded.
structure Handed (m : Machine K) (r : Machine K × Status) (ok : Bool) (refund : Int) (storage : K → Word) :
    Prop where
  success : ok = true → r.2 = .Success
  refund : refund = if ok then r.1.refund else 0
  storage : storage = if ok then r.1.storage else m.storage

omit [DecidableEq K] in
theorem hostCall_handed (stateGas : Int) (m : Machine K) (r : Machine K × Status) :
    Handed m r (r.2 = .Success) (hostCall rev stateGas m.storage r.1 r.2).1.refund
      (hostCall rev stateGas m.storage r.1 r.2).2 := by
  refine ⟨of_decide_eq_true, ?_, ?_⟩
  · simp only [hostCall, frameResult, decide_eq_true_eq]
  · simp only [hostCall, decide_eq_true_eq]

theorem deployed_cases (stateGas : Int) (d : Deploy) (r : Result) (hr : r.status ≠ .Success → r.refund = 0) :
    (deployed rev stateGas d r).refund = (if (deployed rev stateGas d r).status = .Success then r.refund else 0) ∧
      ((deployed rev stateGas d r).status = .Success → r.status = .Success) := by
  unfold deployed
  split
  · next h => exact ⟨hr h, fun hs => absurd hs h⟩
  · next h =>
    have hs : r.status = .Success := not_not.1 h
    split
    · exact ⟨rfl, nofun⟩
    · cases hdeposit : chargeCodeDeposit rev d.codeSize r with
      | none => exact ⟨rfl, nofun⟩
      | some r' =>
        have hkeep : r'.status = r.status ∧ r'.refund = r.refund := by
          simp only [chargeCodeDeposit] at hdeposit
          split at hdeposit
          · simp only [Option.bind_eq_bind, Option.bind_eq_some_iff] at hdeposit
            obtain ⟨_, -, _, -, hr'⟩ := hdeposit
            cases hr'
            exact ⟨rfl, rfl⟩
          · split at hdeposit
            · cases hdeposit
            · cases hdeposit
              exact ⟨rfl, rfl⟩
        rw [Option.getD_some, hkeep.1, hkeep.2, if_pos hs]
        exact ⟨rfl, fun _ => hs⟩

omit [DecidableEq K] in
theorem hostCreate_handed (stateGas : Int) (d : Deploy) (m : Machine K) (r : Machine K × Status) :
    Handed m r ((hostCreate rev stateGas d m.storage r.1 r.2).1.status = .Success)
      (hostCreate rev stateGas d m.storage r.1 r.2).1.refund (hostCreate rev stateGas d m.storage r.1 r.2).2 := by
  unfold hostCreate
  split
  · exact ⟨nofun, rfl, rfl⟩
  · have hframe : ∀ status, (frameResult rev stateGas r.1.purse r.1.refund status).status = status := fun _ => rfl
    obtain ⟨hrefund, hstatus⟩ := @deployed_cases rev stateGas d
      (frameResult rev stateGas r.1.purse r.1.refund r.2) (fun h => by
        rw [hframe] at h
        simp only [frameResult, if_neg h])
    rw [hframe] at hstatus
    refine ⟨fun h => hstatus (of_decide_eq_true h), ?_, ?_⟩
    · simp only [decide_eq_true_eq]
      rw [hrefund]
      split
      · next h => simp only [frameResult, if_pos (hstatus h)]
      · rfl
    · simp only [decide_eq_true_eq]

omit [DecidableEq K] in
theorem Handed.follows {m inner : Machine K} {r : Machine K × Status} {ok : Bool} {t c : Meter K} {kept : Bool}
    {refund : Int} {storage : K → Word} (h : Handed m r ok refund storage) (ht : t.storage = m.storage)
    (hinner : inner.refund = 0) (hchild : Follows rev inner r (.enter t.storage t.warm) (c, kept)) (p : Purse) :
    Agrees rev m ⟨p, m.refund + refund, storage⟩ t (if ok then t.absorb c else t) := by
  rw [h.refund, h.storage]
  cases ok with
  | false => exact ⟨ht, by simp, fun _ => by simp⟩
  | true =>
    obtain ⟨hstorage, hrefund, hlondon⟩ := hchild.2 (h.success rfl)
    simp only [if_true, Meter.enter, Meter.absorb, hinner] at hrefund hlondon ⊢
    refine ⟨hstorage, ?_, fun hrev => ?_⟩
    · simp only
      omega
    · have := hlondon hrev
      simp only
      omega

theorem exec_eventsOf (code : Code K) (depth : Nat) (m : Machine K) (t : Meter K) (ht : t.storage = m.storage) :
    Follows rev m (exec rev orig code depth m) t ((eventsOf rev orig code depth m).run (.Since rev) orig t) := by
  induction code generalizing depth m t with
  | Halt status =>
    refine ⟨rfl, fun _ => ⟨ht, ?_, fun _ => ?_⟩⟩
    · simp [eventsOf, exec, Events.run]
    · simp [eventsOf, exec, Events.run]
  | Spend cost next ih =>
    simp only [exec, eventsOf]
    cases m.purse.spend cost with
    | none => exact follows_failure
    | some p => exact (ih depth { m with purse := p } t ht).same rfl
  | SStore key v cold next ih =>
    simp only [exec, eventsOf]
    by_cases hsentry : m.purse.gas ≤ SSTORE_SENTRY_GAS
    · rw [if_pos hsentry, if_pos hsentry]
      exact follows_failure
    · rw [if_neg hsentry, if_neg hsentry]
      cases sstoreCharge rev (computeStorageStatus (orig key) (m.storage key) v) cold m.purse with
      | none => exact follows_failure
      | some p =>
        have hwrite : (t.write (.Since rev) orig key v).refund - t.refund =
            (sstoreCost rev (computeStorageStatus (orig key) (m.storage key) v)).2 := by
          simp only [Meter.write, NetRevision.sstoreCost_since, ht]
          omega
        exact (ih depth _ (t.write (.Since rev) orig key v) (by simp only [Meter.write, ht])).step
          (by simp only; omega) fun _ => by simp only; omega
  | Call c child next ihChild ihNext =>
    simp only [exec, eventsOf]
    cases callCharges rev c m.purse with
    | none => exact follows_failure
    | some paid =>
      obtain ⟨p, charged⟩ := paid
      simp only
      split
      · exact Follows.same (ihNext depth ⟨_, m.refund, m.storage⟩ t ht) rfl
      · have hchild := ihChild (depth + 1)
          ⟨⟨min (c.reqGas : Int) p.allButOne64th + c.stipend, p.left, 0⟩, 0, m.storage⟩
          (.enter t.storage t.warm) ht
        simp only [Events.run]
        rw [hchild.1]
        have hagrees := (@hostCall_handed K rev p.left m _).follows ht rfl hchild
        exact (ihNext depth _ _ (hagrees _).storage).step (hagrees _).refund (hagrees _).london
  | Create c init next ihInit ihNext =>
    simp only [exec, eventsOf]
    cases createCharges rev c m.purse with
    | none => exact follows_failure
    | some p =>
      simp only
      split
      · exact (ihNext depth { m with purse := p } t ht).same rfl
      · cases p.chargeIf (rev.atLeast .Amsterdam && c.newAccount) NEW_ACCOUNT_STATE_GAS with
        | none => exact follows_failure
        | some q =>
          have hinit := (ihInit (depth + 1) ⟨⟨q.allButOne64th, q.left, 0⟩, 0, m.storage⟩
            (.enter t.storage t.warm) ht).wrapped
          have hagrees := (@hostCreate_handed K rev q.left c.toDeploy m _).follows ht rfl hinit
          exact (ihNext depth _ _ (hagrees _).storage).step (hagrees _).refund (hagrees _).london
  | Selfdestruct cold newAccount first =>
    simp only [exec, eventsOf]
    cases selfdestructCharges rev cold newAccount m.purse with
    | none => exact follows_failure
    | some p =>
      refine ⟨rfl, fun _ => ⟨ht, ?_, fun hrev => ?_⟩⟩
      · simp only [Events.run]
        split <;> simp [SELFDESTRUCT_REFUND]
      · simp [Events.run, hrev]

end

end

end Zeg.Gas
