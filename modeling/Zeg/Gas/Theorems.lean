import Zeg.Gas.Conserve
import Zeg.Gas.Transaction

-- The block's gas counters stay within the block's gas limit.
namespace Zeg.Gas

open Base StateDB

variable {rev : Revision} {p p' : Purse}

-- The runtime phase pays like an opcode.

theorem AuthCharges.process_pays {c c' : AuthCharges} {a : Auth} (hrev : rev.atLeast .Amsterdam = true)
    (hc : c.purse.Sound) (h : c.process a = some c') : Pays rev c.purse c'.purse 0 0 := by
  unfold AuthCharges.process at h
  split at h
  · obtain rfl := Option.some.inj h
    exact Pays.refl hc
  · have hnote : (c.noteStart a).purse = c.purse := by
      unfold AuthCharges.noteStart
      split <;> rfl
    simp only [hnote] at h
    split at h
    · obtain rfl := Option.some.inj h
      rw [hnote]
      exact Pays.refl hc
    · simp only [Option.bind_eq_bind, Option.bind_eq_some_iff, Option.pure_def] at h
      obtain ⟨p₁, h₁, p₂, h₂, p₃, h₃, heq⟩ := h
      obtain rfl := Option.some.inj heq
      have w₁ := Purse.chargeIf_pays (fun _ => hrev) hc h₁
      have w₂ : Pays rev p₁ p₂ _ 0 := p₁.spendIf_pays w₁.toSound h₂
      have w₃ := Purse.chargeIf_pays (fun _ => hrev) w₂.toSound h₃
      have hwrite : 0 ≤ ACCOUNT_WRITE := by decide
      have hbytes : 0 ≤ DELEGATION_BYTES_STATE_GAS := by decide
      have hnew := new_account_nonneg
      apply (w₁.trans (w₂.trans w₃)).mono
      · split <;> omega
      · split <;> split <;> omega

theorem AuthCharges.processAll_pays {auths : List Auth} {c c' : AuthCharges}
    (hrev : rev.atLeast .Amsterdam = true) (hc : c.purse.Sound)
    (h : auths.foldlM AuthCharges.process c = some c') : Pays rev c.purse c'.purse 0 0 := by
  induction auths generalizing c with
  | nil =>
    obtain rfl := Option.some.inj h
    exact Pays.refl hc
  | cons a rest ih =>
    obtain ⟨c₁, h₁, hrest⟩ := Option.bind_eq_some_iff.mp h
    have hfirst := AuthCharges.process_pays hrev hc h₁
    exact (hfirst.trans (ih hfirst.toSound hrest)).mono (by omega) (by omega)

section Frame

variable {K : Type} {tx : Tx} {run : Run K}

theorem applyAuthorizationList_pays {g : Purse} {refund : Int} (hg : g.Sound)
    (h : applyAuthorizationList rev tx run g = some (p, refund)) :
    Pays rev g p 0 0 ∧ 0 ≤ refund := by
  unfold applyAuthorizationList at h
  split at h
  · obtain ⟨rfl, rfl⟩ := Prod.mk.inj (Option.some.inj h)
    exact ⟨Pays.refl hg, by omega⟩
  · split at h
    · next hrev =>
      obtain ⟨c, hc, heq⟩ := Option.map_eq_some_iff.mp h
      obtain ⟨rfl, rfl⟩ := Prod.mk.inj heq
      exact ⟨AuthCharges.processAll_pays hrev hg hc, by omega⟩
    · obtain ⟨rfl, rfl⟩ := Prod.mk.inj (Option.some.inj h)
      refine ⟨Pays.refl hg, List.sum_nonneg ?_⟩
      intro x hx
      obtain ⟨a, -, rfl⟩ := List.mem_map.mp hx
      unfold Auth.refund
      split <;> decide

theorem topLevelCharges_pays {g : Purse} {charged : Bool} (hg : g.Sound)
    (h : topLevelCharges rev tx run g = some (p, charged)) :
    Pays rev g p 0 (if charged then NEW_ACCOUNT_STATE_GAS else 0) ∧
      (charged = true → rev.atLeast .Amsterdam = true) := by
  unfold topLevelCharges at h
  split at h
  · next hrev =>
    simp only [Option.bind_eq_bind, Option.bind_eq_some_iff, Option.pure_def] at h
    obtain ⟨p₁, h₁, p₂, h₂, p₃, h₃, heq⟩ := h
    obtain ⟨rfl, rfl⟩ := Prod.mk.inj (Option.some.inj heq)
    have w₁ := Purse.chargeIf_pays (fun _ => hrev) hg h₁
    have w₂ : Pays rev p₁ p₂ _ 0 := p₁.spendIf_pays w₁.toSound h₂
    have w₃ : Pays rev p₂ p₃ _ 0 := p₂.spendIf_pays w₂.toSound h₃
    refine ⟨(w₁.trans (w₂.trans w₃)).mono ?_ (by omega), fun _ => hrev⟩
    have hwarm : 0 ≤ WARM_ACCESS := by decide
    have hcold : 0 ≤ 3000 - WARM_ACCESS := by decide
    split <;> split <;> omega
  · obtain ⟨rfl, rfl⟩ := Prod.mk.inj (Option.some.inj h)
    exact ⟨Pays.refl hg, by simp⟩

variable [Fintype K] [DecidableEq K]

-- The frame starts from the storage that its writes are classified by, so whatever it allocated it
-- has paid for, and whatever it cleared is covered by the refund counter.
theorem executeTopLevelMessage_within {gas stateGas : Int} (hgas : 0 ≤ gas) (hstate : 0 ≤ stateGas) :
    (executeTopLevelMessage rev tx run gas stateGas).Within rev gas stateGas 0 0 := by
  have hframe := exec_keeps rev run.storage run.code 0
    ⟨⟨gas, stateGas, 0⟩, 0, run.storage⟩ ⟨hgas, hstate, Int.le_refl 0⟩ Prod.mk.eta.symm
  unfold executeTopLevelMessage
  dsimp only
  split
  · have h := hostCreate_within run.deploy hgas hstate hframe
    rw [due_start, refunds_start] at h
    exact h.mono (by simpa using due_nonneg _) (by simpa using refunds_nonneg _)
  · have h := hostCall_within hgas hstate hframe
    rw [due_start, refunds_start] at h
    exact h.mono (by simpa using due_nonneg _) (by simpa using refunds_nonneg _)

-- The result of the first frame, of a transaction that started with `regular` gas and `limit` in
-- the reservoir.
structure Outcome (regular limit : Int) (r : Result) : Prop where
  gasLeft : 0 ≤ r.gasLeft
  left : 0 ≤ r.left
  spilled : 0 ≤ r.spilled
  refund : 0 ≤ r.refund
  paid : r.gasLeft + r.spilled ≤ regular
  used : 0 ≤ limit - r.left + r.spilled

theorem burned_outcome {regular limit : Int} (hregular : 0 ≤ regular) (hlimit : 0 ≤ limit) :
    Outcome regular limit (burned limit) where
  gasLeft := Int.le_refl 0
  left := hlimit
  spilled := Int.le_refl 0
  refund := Int.le_refl 0
  paid := by simp only [burned]; omega
  used := by simp only [burned]; omega

omit [Fintype K] [DecidableEq K] in
theorem topLevelResult_outcome {regular limit : Int} {charged : Bool} {r : Result}
    (hpay : Pays rev ⟨regular, limit, 0⟩ p 0 (if charged then NEW_ACCOUNT_STATE_GAS else 0))
    (hcharged : charged = true → rev.atLeast .Amsterdam = true) (hr : r.Within rev p.gas p.left 0 0) :
    Outcome regular limit (topLevelResult p charged r) := by
  have hpaid := hpay.paid
  have hused := hpay.used
  have hleft := hpay.left
  have hspilled := hpay.spilled
  have hrgas := hr.gasLeft
  have hrle := hr.le
  have hnew := new_account_nonneg
  simp only at hpaid hused
  unfold topLevelResult
  split
  · next hs =>
    cases hrev : rev.atLeast .Amsterdam with
    | true =>
      have hrpaid := hr.paid hrev
      have hrused := hr.used hrev
      have hrspilled := (hr.sound hrev).spilled
      simp only at hrspilled
      exact ⟨hrgas, (hr.sound hrev).left, by simp only; omega, hr.refund, by simp only; omega,
        by simp only; omega⟩
    | false =>
      obtain ⟨hrleft, hrspilled⟩ := hr.frozen hrev hs
      exact ⟨hrgas, by simp only; omega, by simp only; omega, hr.refund, by simp only; omega,
        by simp only; omega⟩
  · have hback : Pays rev ⟨0, p.left, p.spilled⟩ _ 0 _ :=
      Purse.refillIf_pays hcharged ⟨Int.le_refl 0, hleft, hspilled⟩
    have hbpaid := hback.paid
    have hbused := hback.used
    have hbgas := hback.gas
    have hbspilled := hback.spilled
    simp only at hbpaid hbused
    refine ⟨?_, hback.left, hbspilled, hr.refund, ?_, by simp only; omega⟩
    · simp only
      split <;> omega
    · simp only
      split <;> omega

theorem executeTopLevelFrame_outcome {regular limit : Int} {g : Option Purse} (hregular : 0 ≤ regular)
    (hlimit : 0 ≤ limit) (hg : ∀ p, g = some p → Pays rev ⟨regular, limit, 0⟩ p 0 0) :
    Outcome regular limit (executeTopLevelFrame rev tx run limit g) := by
  unfold executeTopLevelFrame
  split
  · exact burned_outcome hregular hlimit
  · next p charged hp =>
    obtain ⟨p₀, hp₀, hcharges⟩ := Option.bind_eq_some_iff.mp hp
    have hauths := hg p₀ hp₀
    obtain ⟨hpay, hcharged⟩ := topLevelCharges_pays hauths.toSound hcharges
    have hstart := (hauths.trans hpay).mono (Int.le_refl 0) (Int.le_of_eq (Int.zero_add _).symm)
    exact topLevelResult_outcome hstart hcharged
      (executeTopLevelMessage_within hstart.gas hstart.left)

end Frame

-- Settlement.

section Settle

variable {tx : Tx} {checked : Checked} {r : Result} {authRefund : Int}

-- What check_transaction has established of a transaction's gas limit.
structure Checked.Covered (rev : Revision) (tx : Tx) (checked : Checked) : Prop where
  positive : 0 < checked.intrinsicGas
  limit : checked.stateGasLimit = txStateGasLimit rev tx.gasLimit
  intrinsic : checked.intrinsicGas ≤ tx.gasLimit - checked.stateGasLimit
  floor : rev.atLeast .Prague = true → checked.floorGas ≤ tx.gasLimit - checked.stateGasLimit

theorem txStateGasLimit_le (rev : Revision) (n : Nat) : txStateGasLimit rev n ≤ n := by
  unfold txStateGasLimit
  split <;> omega

-- A transaction's own accounting.
structure Accounted (rev : Revision) (tx : Tx) (checked : Checked) (s : Settlement) : Prop where
  gasLeft : 0 ≤ s.gasLeft ∧ s.gasLeft ≤ tx.gasLimit
  gasUsed_le : s.gasUsed ≤ tx.gasLimit
  gasUsed_pos : 0 < s.gasUsed
  floor : rev.atLeast .Prague = true → checked.floorGas ≤ s.gasUsed
  stateUsed : rev.atLeast .Amsterdam = true → 0 ≤ s.stateUsed
  dimensions : checked.floorGas ≤ s.gasUsedPre - s.stateUsed →
    s.blockRegular + s.blockState ≤ tx.gasLimit

structure Shares (tx : Tx) (checked : Checked) (s : Settlement) : Prop where
  regular : 0 ≤ s.blockRegular ∧ s.blockRegular ≤ tx.gasLimit - checked.stateGasLimit
  state : 0 ≤ s.blockState ∧ s.blockState ≤ tx.gasLimit

-- The refund never exceeds half of the gas used, so something is left to pay.
theorem cappedRefund_bounds (rev : Revision) {used refund : Int} (hused : 0 < used) (hrefund : 0 ≤ refund) :
    0 ≤ cappedRefund rev used refund ∧ cappedRefund rev used refund < used := by
  unfold cappedRefund
  rw [Int.tdiv_eq_ediv_of_nonneg (Int.le_of_lt hused)]
  split <;> omega

theorem atLeast_amsterdam_prague (h : rev.atLeast .Amsterdam = true) : rev.atLeast .Prague = true := by
  revert h
  cases rev <;> decide

theorem settleTxGas_accounted (hcov : checked.Covered rev tx) (hauth : 0 ≤ authRefund)
    (hr : Outcome (tx.gasLimit - checked.intrinsicGas - checked.stateGasLimit) checked.stateGasLimit r) :
    Accounted rev tx checked (settleTxGas rev tx checked r authRefund) ∧
      Shares tx checked (settleTxGas rev tx checked r authRefund) := by
  have hlimit := hcov.limit
  have hpos := hcov.positive
  have hgas := hr.gasLeft
  have hleft := hr.left
  have hspilled := hr.spilled
  have hpaid := hr.paid
  have hused := hr.used
  have hrefund := hr.refund
  have hpre : 0 < (tx.gasLimit : Int) - (r.gasLeft + r.left) := by omega
  obtain ⟨hlow, hhigh⟩ := cappedRefund_bounds rev hpre (by omega : 0 ≤ r.refund + authRefund)
  have hfloor := hcov.floor
  simp only [settleTxGas]
  cases hams : rev.atLeast .Amsterdam with
  | true =>
    have hprague := atLeast_amsterdam_prague hams
    have hcovered := hfloor hprague
    have hclamp : max 0 (checked.stateGasLimit - r.left + r.spilled) =
        checked.stateGasLimit - r.left + r.spilled := Int.max_eq_right hused
    simp only [hprague, if_true, hclamp]
    refine ⟨⟨⟨?_, ?_⟩, ?_, ?_, fun _ => ?_, fun _ => hused, ?_⟩, ⟨⟨?_, ?_⟩, ⟨hused, ?_⟩⟩⟩
    all_goals simp only
    all_goals omega
  | false =>
    have hnone : checked.stateGasLimit = 0 := by rw [hlimit, txStateGasLimit, hams]; rfl
    simp only [Bool.false_eq_true, if_false]
    generalize hgas : (if rev.atLeast .Prague then _ else _ : Int) = gasUsed
    have hpaid : 0 < gasUsed ∧ gasUsed ≤ tx.gasLimit ∧
        (rev.atLeast .Prague = true → checked.floorGas ≤ gasUsed) := by
      cases hprague : rev.atLeast .Prague with
      | true =>
        have hcovered := hfloor hprague
        simp only [hprague, if_true] at hgas
        omega
      | false =>
        simp only [hprague, Bool.false_eq_true, if_false] at hgas
        exact ⟨by omega, by omega, nofun⟩
    refine ⟨⟨⟨?_, ?_⟩, hpaid.2.1, hpaid.1, hpaid.2.2, by simp [hams], fun _ => ?_⟩,
      ⟨⟨?_, ?_⟩, ⟨Int.le_refl 0, ?_⟩⟩⟩
    all_goals simp only
    all_goals omega

end Settle

-- What an accepted transaction brings.

theorem fatalIf_eq_ok {b : Bool} {message : String} {u : Unit} (h : fatalIf b message = .ok u) :
    b = false := by
  cases b with
  | false => rfl
  | true => cases h

theorem computeIntrinsicGas_pos {tx : Tx} {gas floor : Nat}
    (h : computeIntrinsicGas tx rev = .ok (gas, floor)) : 0 < gas := by
  obtain ⟨⟨addresses, keys⟩, -, h⟩ := bind_eq_ok.mp h
  obtain ⟨rfl, -⟩ := Prod.mk.inj (Except.ok.inj h)
  have hbase : 0 < if rev.atLeast .Amsterdam then eip2780Base tx else 21000 := by
    split
    · unfold eip2780Base
      split
      · decide
      · split <;> omega
    · decide
  omega

-- The gas limit of a checked transaction fits the block's remaining gas, as the unsigned
-- differences give it.
structure Fits (rev : Revision) (c : Consensus) (b : BlockGas) (tx : Tx) : Prop where
  regular : rev.atLeast .Amsterdam = true →
    min tx.gasLimit kMaxTxGasLimit ≤ sub64 c.gasLimit b.regularGasUsed
  state : rev.atLeast .Amsterdam = true → tx.gasLimit ≤ sub64 c.gasLimit b.stateGasUsed
  cumulative : rev.atLeast .Amsterdam = false → tx.gasLimit ≤ sub64 c.gasLimit b.cumulativeGasUsed

theorem checkGasLimit_covered {c : Consensus} {b : BlockGas} {tx : Tx} {checked : Checked}
    (h : checkGasLimit rev c b tx = .ok checked) : checked.Covered rev tx ∧ Fits rev c b tx := by
  obtain ⟨⟨gas, floor⟩, hgas, h⟩ := bind_eq_ok.mp h
  obtain ⟨_, hmin, h⟩ := bind_eq_ok.mp h
  obtain ⟨_, -, h⟩ := bind_eq_ok.mp h
  obtain ⟨_, -, h⟩ := bind_eq_ok.mp h
  obtain ⟨_, -, h⟩ := bind_eq_ok.mp h
  obtain ⟨_, hfits, h⟩ := bind_eq_ok.mp h
  obtain rfl := Except.ok.inj h
  have hmin := fatalIf_eq_ok hmin
  have hfits := fatalIf_eq_ok hfits
  simp only [decide_eq_false_iff_not, Nat.not_lt] at hmin
  constructor
  · refine ⟨computeIntrinsicGas_pos hgas, rfl, ?_, ?_⟩
    · simp only
      split at hmin <;> omega
    · intro hprague
      simp only [hprague, if_true] at hmin
      simp only
      omega
  · cases hrev : rev.atLeast .Amsterdam with
    | true =>
      simp only [hrev, if_true, Bool.or_eq_false_iff, decide_eq_false_iff_not, Nat.not_lt] at hfits
      exact ⟨fun _ => hfits.1, fun _ => hfits.2, by simp [hrev]⟩
    | false =>
      simp only [hrev, Bool.false_eq_true, if_false, decide_eq_false_iff_not, Nat.not_lt] at hfits
      exact ⟨by simp [hrev], by simp [hrev], fun _ => hfits⟩

theorem checkTransaction_covered {c : Consensus} {b : BlockGas} {tx : Tx} {sender : Sender}
    {checked : Checked} (h : checkTransaction rev c b sender tx = .ok checked) :
    checked.Covered rev tx ∧ Fits rev c b tx := by
  obtain ⟨_, -, h⟩ := bind_eq_ok.mp h
  obtain ⟨_, -, h⟩ := bind_eq_ok.mp h
  obtain ⟨checked', hcheck, h⟩ := bind_eq_ok.mp h
  obtain ⟨_, -, h⟩ := bind_eq_ok.mp h
  obtain ⟨_, -, h⟩ := bind_eq_ok.mp h
  obtain ⟨_, -, h⟩ := bind_eq_ok.mp h
  obtain ⟨_, -, h⟩ := bind_eq_ok.mp h
  obtain ⟨_, -, h⟩ := bind_eq_ok.mp h
  obtain ⟨_, -, h⟩ := bind_eq_ok.mp h
  obtain rfl := Except.ok.inj h
  exact checkGasLimit_covered hcheck

section Block

variable {K : Type} [Fintype K] [DecidableEq K] {c : Consensus} {b b' : BlockGas} {e : Entry K}
  {checked : Checked}

theorem settleEntry_accounted (e : Entry K) (hcov : checked.Covered rev e.tx) :
    Accounted rev e.tx checked (settleEntry rev e checked) ∧
      Shares e.tx checked (settleEntry rev e checked) := by
  have hle := txStateGasLimit_le rev e.tx.gasLimit
  have hlimit := hcov.limit
  have hintrinsic := hcov.intrinsic
  have hregular : 0 ≤ (e.tx.gasLimit : Int) - checked.intrinsicGas - checked.stateGasLimit := by omega
  have hstate : (0 : Int) ≤ checked.stateGasLimit := Int.natCast_nonneg _
  have hstart : Purse.Sound ⟨e.tx.gasLimit - checked.intrinsicGas - checked.stateGasLimit,
    checked.stateGasLimit, 0⟩ := ⟨hregular, hstate, Int.le_refl 0⟩
  simp only [settleEntry]
  cases hauths : applyAuthorizationList rev e.tx e.run
      ⟨e.tx.gasLimit - checked.intrinsicGas - checked.stateGasLimit, checked.stateGasLimit, 0⟩ with
  | none =>
    apply settleTxGas_accounted hcov (Int.le_refl 0)
    apply executeTopLevelFrame_outcome hregular hstate
    intro q hq
    cases hq
  | some res =>
    obtain ⟨hpay, hrefund⟩ := applyAuthorizationList_pays hstart hauths
    apply settleTxGas_accounted hcov hrefund
    apply executeTopLevelFrame_outcome hregular hstate
    intro q hq
    obtain rfl := Option.some.inj hq
    exact hpay

-- The counters that check_transaction subtracts from the block's gas limit.
structure BlockGas.Bounded (rev : Revision) (c : Consensus) (b : BlockGas) : Prop where
  regular : rev.atLeast .Amsterdam = true → b.regularGasUsed ≤ c.gasLimit
  state : rev.atLeast .Amsterdam = true → b.stateGasUsed ≤ c.gasLimit
  cumulative : rev.atLeast .Amsterdam = false → b.cumulativeGasUsed ≤ c.gasLimit

theorem sub64_of_le {a n : Nat} (hle : n ≤ a) (ha : a ≤ 2 ^ 63 - 1) : sub64 a n = a - n := by
  unfold sub64
  omega

theorem add64_le {a n : Nat} {i : Int} (hle : n ≤ a) (ha : a ≤ 2 ^ 63 - 1) (hpos : 0 ≤ i)
    (hi : i ≤ sub64 a n) : add64 n (toU64 i) ≤ a := by
  rw [sub64_of_le hle ha] at hi
  unfold add64 toU64
  omega

theorem countBlobs_counters (b : BlockGas) (tx : Tx) :
    (countBlobs b tx).regularGasUsed = b.regularGasUsed ∧
      (countBlobs b tx).stateGasUsed = b.stateGasUsed ∧
      (countBlobs b tx).cumulativeGasUsed = b.cumulativeGasUsed := by
  unfold countBlobs
  split <;> exact ⟨rfl, rfl, rfl⟩

theorem processTransaction_bounded (hb : b.Bounded rev c)
    (h : processTransaction rev c b e = .ok (b', checked)) :
    b'.Bounded rev c ∧ Accounted rev e.tx checked (settleEntry rev e checked) := by
  obtain ⟨checked', hcheck, h⟩ := bind_eq_ok.mp h
  obtain ⟨rfl, rfl⟩ := Prod.mk.inj (Except.ok.inj h)
  obtain ⟨hcov, hfits⟩ := checkTransaction_covered hcheck
  obtain ⟨hacc, hshare⟩ := settleEntry_accounted e hcov
  obtain ⟨hregular, hstate, hcumulative⟩ := countBlobs_counters b e.tx
  have hlimit := hcov.limit
  have hmax := c.gasLimit_le
  refine ⟨⟨fun hrev => ?_, fun hrev => ?_, fun hrev => ?_⟩, hacc⟩
  · have hfit := hfits.regular hrev
    rw [hregular] at hfit
    simp only [finalizeReceipt, hregular]
    apply add64_le (hb.regular hrev) hmax hshare.regular.1
    have hcap : e.tx.gasLimit - txStateGasLimit rev e.tx.gasLimit = min e.tx.gasLimit kMaxTxGasLimit := by
      unfold txStateGasLimit
      simp only [hrev, Bool.true_and, decide_eq_true_eq]
      split <;> omega
    have hle' := hshare.regular.2
    omega
  · have hfit := hfits.state hrev
    rw [hstate] at hfit
    simp only [finalizeReceipt, hstate]
    apply add64_le (hb.state hrev) hmax hshare.state.1
    have hle' := hshare.state.2
    omega
  · have hfit := hfits.cumulative hrev
    rw [hcumulative] at hfit
    simp only [finalizeReceipt, hcumulative]
    apply add64_le (hb.cumulative hrev) hmax (Int.le_of_lt hacc.gasUsed_pos)
    have hle' := hacc.gasUsed_le
    omega

theorem processTransactions_bounded {entries : List (Entry K)}
    (h : processTransactions rev c entries = .ok b) : b.Bounded rev c := by
  have hrun : ∀ {entries : List (Entry K)} {b₀ : BlockGas}, b₀.Bounded rev c →
      entries.foldlM (fun b e => (processTransaction rev c b e).map Prod.fst) b₀ = .ok b →
      b.Bounded rev c := by
    intro entries
    induction entries with
    | nil =>
      intro b₀ hb₀ h
      obtain rfl := Except.ok.inj h
      exact hb₀
    | cons e rest ih =>
      intro b₀ hb₀ h
      obtain ⟨b₁, hstep, hrest⟩ := bind_eq_ok.mp h
      obtain ⟨⟨b₁', checked⟩, hproc, rfl⟩ := map_eq_ok.mp hstep
      exact ih (processTransaction_bounded hb₀ hproc).1 hrest
  exact hrun ⟨fun _ => Nat.zero_le _, fun _ => Nat.zero_le _, fun _ => Nat.zero_le _⟩ h

-- After any transactions of a block, the counters have not passed the block's gas limit, so the
-- next check subtracts without a wrap; and every transaction it then accepts is accounted for.
theorem block_gas_never_wraps {entries : List (Entry K)} (h : processTransactions rev c entries = .ok b) :
    b.Bounded rev c ∧
    (rev.atLeast .Amsterdam = true →
      sub64 c.gasLimit b.regularGasUsed = c.gasLimit - b.regularGasUsed ∧
      sub64 c.gasLimit b.stateGasUsed = c.gasLimit - b.stateGasUsed) ∧
    (rev.atLeast .Amsterdam = false →
      sub64 c.gasLimit b.cumulativeGasUsed = c.gasLimit - b.cumulativeGasUsed) ∧
    ∀ (e : Entry K) (b' : BlockGas) (checked : Checked), processTransaction rev c b e = .ok (b', checked) →
      Accounted rev e.tx checked (settleEntry rev e checked) := by
  have hb := processTransactions_bounded h
  have hmax := c.gasLimit_le
  exact ⟨hb, fun hrev => ⟨sub64_of_le (hb.regular hrev) hmax, sub64_of_le (hb.state hrev) hmax⟩,
    fun hrev => sub64_of_le (hb.cumulative hrev) hmax,
    fun e b' checked he => (processTransaction_bounded hb he).2⟩

end Block

def sampleHeader : Consensus where
  chainId := 1
  gasLimit := 60000000
  baseFeePerGas := 7
  blobBaseFee := 1
  maxBlobGasPerBlock := 0
  gasLimit_le := by decide

-- A slot is allocated, cleared by a callee that ran on the caller's storage, and allocated again;
-- the reservoir covers about half of its state gas.
def sampleEntry (nonce : Nat) : Entry (Fin 1) where
  tx :=
    { type := .DynamicFee, chainId := 1, vOrYParity := 0, gasLimit := kMaxTxGasLimit + 50000, nonce
      sender := ⟨List.replicate 20 1, rfl⟩, toAddr := some ⟨List.replicate 20 2, rfl⟩, value := 0
      data := [1, 0], accessList := .Lst [], numAuthorizations := 0, gasPrice := 0, maxFeePerGas := 7
      maxPriorityFeePerGas := 0, maxFeePerBlobGas := 0, blobHashes := [] }
  sender := ⟨nonce, 10 ^ 18, none⟩
  run :=
    { senderRow := 0, recipientRow := 1, auths := [], recipientAlive := true, delegate := none
      deploy := ⟨false, false, 0⟩, storage := fun _ => 0
      code := .SStore 0 5 true (.Call ⟨1000000, 3, false, true, none, false, false⟩
        (.SStore 0 0 false (.Halt .Success)) (.SStore 0 7 false (.Halt .Success))) }

theorem block_gas_never_wraps_slotRewritten :
    processTransactions .Amsterdam sampleHeader [sampleEntry 0] = .ok ⟨128243, 40323, 97920, 0⟩ ∧
    BlockGas.Bounded .Amsterdam sampleHeader ⟨128243, 40323, 97920, 0⟩ ∧
    ∃ b' checked,
      processTransaction .Amsterdam sampleHeader ⟨128243, 40323, 97920, 0⟩ (sampleEntry 1) = .ok (b', checked) ∧
      Accounted .Amsterdam (sampleEntry 1).tx checked (settleEntry .Amsterdam (sampleEntry 1) checked) := by
  have hrun : processTransactions .Amsterdam sampleHeader [sampleEntry 0] =
      .ok ⟨128243, 40323, 97920, 0⟩ := rfl
  have h := block_gas_never_wraps hrun
  exact ⟨hrun, h.1, _, _, rfl, h.2.2.2 (sampleEntry 1) _ _ rfl⟩

end Zeg.Gas
