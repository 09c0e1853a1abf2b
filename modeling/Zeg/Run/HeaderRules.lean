import Zeg.Run.FakeExponential

-- The header rules of the EIPs over the natural numbers, and the checks that evaluate them in 64 and
-- 256 bits.
namespace Zeg.Run

open Base Fork Header Consensus BitVec UInt64

-- get_base_fee_per_blob_gas
def BlobBaseFee (excess fraction fee : Nat) : Prop :=
  ∃ output, Series excess fraction 1 fraction 0 output ∧ fee = output / fraction

-- calc_excess_blob_gas of EIP-4844; `reserve` is the branch of EIP-7918.
structure BlobSchedule where
  target : Nat
  max : Nat
  fraction : Nat

def ExcessRule (reserve : Bool) (schedule : BlobSchedule) (excess used baseFee next : Nat) : Prop :=
  if excess + used < schedule.target then next = 0
  else if reserve then
    ∃ fee, BlobBaseFee excess schedule.fraction fee ∧
      next = if 8192 * baseFee > 131072 * fee then excess + used * (schedule.max - schedule.target) / schedule.max
        else excess + used - schedule.target
  else next = excess + used - schedule.target

-- EIP-1559
def nextBaseFee (gasLimit gasUsed baseFee : Nat) : Nat :=
  if baseFee = 0 then 1000000000
  else
    let target := gasLimit / 2
    if gasUsed = target then baseFee
    else if target < gasUsed then baseFee + max (baseFee * (gasUsed - target) / target / 8) 1
    else baseFee - baseFee * (target - gasUsed) / target / 8

def GasLimitRule (parentLimit gasLimit : Nat) : Prop :=
  5000 ≤ gasLimit ∧ gasLimit ≤ 2 ^ 63 - 1 ∧ gasLimit < parentLimit + parentLimit / 1024 ∧
    parentLimit - parentLimit / 1024 < gasLimit

theorem ofNat_lt {a b : Nat} (ha : a < 2 ^ 256) (hb : b < 2 ^ 256) :
    BitVec.ofNat 256 a < BitVec.ofNat 256 b ↔ a < b := by
  rw [lt_def, toNat_ofNat_of_lt ha, toNat_ofNat_of_lt hb]

theorem ofNat_toNat (w : Word) : BitVec.ofNat 256 w.toNat = w := eq_of_toNat_eq (toNat_ofNat_of_lt w.isLt)

theorem toNat_add_of_lt {a b : UInt64} (h : a.toNat + b.toNat < 2 ^ 64) : (a + b).toNat = a.toNat + b.toNat := by
  rw [UInt64.toNat_add, Nat.mod_eq_of_lt h]

theorem toNat_sub_of_le {a b : UInt64} (h : b.toNat ≤ a.toNat) : (a - b).toNat = a.toNat - b.toNat :=
  UInt64.toNat_sub_of_le a b (UInt64.le_iff_toNat_le.mpr h)

theorem requireThat_ok {condition : Bool} {message : String} : requireThat condition message = .ok () ↔ condition := by
  cases condition with
  | false => exact ⟨nofun, nofun⟩
  | true => exact ⟨fun _ => rfl, fun _ => rfl⟩

theorem seq_eq_ok {x y : Except String Unit} : (x >>= fun _ => y) = .ok () ↔ x = .ok () ∧ y = .ok () := by
  rw [bind_eq_ok]
  exact ⟨fun ⟨_, hx, hy⟩ => ⟨hx, hy⟩, fun ⟨hx, hy⟩ => ⟨(), hx, hy⟩⟩

-- What the verdicts need of a parent. The last two are the room fake_exponential leaves.
structure Plausible (build : Build) (c : ConsensusInfo) (parent : BlockHeader) : Prop where
  limitLow : 2 ≤ parent.gasLimit.toNat
  limitHigh : parent.gasLimit.toNat < 2 ^ 63
  baseFee : parent.baseFeePerGas.toNat < 2 ^ 192
  blobGas : (c.forkId build).atLeast .Cancun → parent.excessBlobGas.toNat + parent.blobGasUsed.toNat < 2 ^ 64
  schedule : build.forkFromInput → (c.forkId build).atLeast .Osaka →
    c.targetBlobGasPerBlock build ≤ c.maxBlobGasPerBlock build ∧ 0 < c.maxBlobGasPerBlock build
  series : (c.forkId build).atLeast .Osaka →
    Fits parent.excessBlobGas.toNat (c.blobBaseFeeUpdateFraction build).toNat 1 (c.blobBaseFeeUpdateFraction build).toNat 0
  blobFee : (c.forkId build).atLeast .Osaka → ∀ fee,
    BlobBaseFee parent.excessBlobGas.toNat (c.blobBaseFeeUpdateFraction build).toNat fee → 131072 * fee < 2 ^ 256

-- The schedules of the chains never ask for more.
theorem schedule_row {chain : Chain} : ∀ row ∈ kForkSchedule chain, row.params.targetBlobGas ≤ row.params.maxBlobGas ∧
    0 < row.params.maxBlobGas ∧ 0 < row.params.blobBaseFeeUpdateFraction := by
  cases chain <;> decide

theorem forkParamsAt_valid (chain : Chain) (timestamp : UInt64) :
    (forkParamsAt chain timestamp).fork = .Unknown ∨ ∃ row ∈ kForkSchedule chain, forkParamsAt chain timestamp = row.params := by
  rw [forkParamsAt]
  cases h : (kForkSchedule chain).find? fun row => row.activation ≤ timestamp with
  | none => exact .inl rfl
  | some row => exact .inr ⟨row, List.mem_of_find?_eq_some h, rfl⟩

section

variable {build : Build} {c : ConsensusInfo} {parent : BlockHeader}

theorem Plausible.schedule_valid (h : Plausible build c parent) (hfork : (c.forkId build).atLeast .Osaka) :
    (c.targetBlobGasPerBlock build).toNat ≤ (c.maxBlobGasPerBlock build).toNat ∧
      0 < (c.maxBlobGasPerBlock build).toNat ∧ 0 < (c.blobBaseFeeUpdateFraction build).toNat := by
  cases hbuild : build.forkFromInput with
  | true =>
    obtain ⟨htarget, hmax⟩ := h.schedule hbuild hfork
    refine ⟨le_iff_toNat_le.mp htarget, lt_iff_toNat_lt.mp hmax, ?_⟩
    rw [ConsensusInfo.blobBaseFeeUpdateFraction, if_pos hbuild]
    split
    · next hne => exact Nat.pos_of_ne_zero fun h => hne (UInt64.toNat_inj.mp h)
    · decide
  | false =>
    rw [ConsensusInfo.forkId, hbuild] at hfork
    rw [ConsensusInfo.targetBlobGasPerBlock, ConsensusInfo.maxBlobGasPerBlock,
      ConsensusInfo.blobBaseFeeUpdateFraction, hbuild]
    obtain hnone | ⟨row, hrow, heq⟩ := forkParamsAt_valid build.chain c.timestamp
    · exact absurd (show (forkParamsAt build.chain c.timestamp).fork.atLeast .Osaka from hfork) (by rw [hnone]; decide)
    · obtain ⟨htarget, hmax, hfraction⟩ := schedule_row row hrow
      simp only [Bool.false_eq_true, ↓reduceIte, heq]
      exact ⟨le_iff_toNat_le.mp htarget, lt_iff_toNat_lt.mp hmax, lt_iff_toNat_lt.mp hfraction⟩

theorem fakeExponential_fee (h : Plausible build c parent) (hfork : (c.forkId build).atLeast .Osaka) :
    ∃ fee < 2 ^ 256, BlobBaseFee parent.excessBlobGas.toNat (c.blobBaseFeeUpdateFraction build).toNat fee ∧
      fakeExponential kMinBaseFeePerBlobGas parent.excessBlobGas (c.blobBaseFeeUpdateFraction build) =
        BitVec.ofNat 256 fee := by
  obtain ⟨-, -, hpos⟩ := h.schedule_valid hfork
  obtain ⟨fee, hlt, ⟨output, hseries, hfee⟩, heq⟩ := fakeExponential_series hpos (h.series hfork)
  rw [Nat.one_mul] at hseries
  exact ⟨fee, hlt, ⟨output, hseries, hfee⟩, heq⟩

theorem Series.unique {numerator denominator i accum output a b : Nat}
    (ha : Series numerator denominator i accum output a) (hb : Series numerator denominator i accum output b) : a = b := by
  induction ha with
  | Stop =>
    cases hb with
    | Stop => rfl
    | Step hpos _ => exact absurd hpos (Nat.lt_irrefl 0)
  | Step hpos _ ih =>
    cases hb with
    | Stop => exact absurd hpos (Nat.lt_irrefl 0)
    | Step _ rest => exact ih rest

theorem BlobBaseFee.unique {excess fraction a b : Nat} (ha : BlobBaseFee excess fraction a)
    (hb : BlobBaseFee excess fraction b) : a = b := by
  obtain ⟨out, hout, rfl⟩ := ha
  obtain ⟨out', hout', rfl⟩ := hb
  rw [hout.unique hout']

theorem scaled_toNat {used target max : UInt64} (hle : target.toNat ≤ max.toNat) (hmax : 0 < max.toNat) :
    (word used * word (max - target) / word max).toNat = used.toNat * (max.toNat - target.toNat) / max.toNat ∧
      used.toNat * (max.toNat - target.toNat) / max.toNat ≤ used.toNat := by
  have hused := used.toNat_lt
  have hmax64 := max.toNat_lt
  have hproduct : used.toNat * (max.toNat - target.toNat) < 2 ^ 64 * 2 ^ 64 := Nat.mul_lt_mul'' hused (by omega)
  constructor
  · rw [word, word, word, toNat_sub_of_le hle, ofNat_mul, ofNat_div (by omega) (by omega), toNat_ofNat_of_lt]
    exact Nat.lt_of_le_of_lt (Nat.div_le_self _ _) (by omega)
  · apply Nat.div_le_of_le_mul
    rw [Nat.mul_comm]
    exact Nat.mul_le_mul_right _ (Nat.sub_le _ _)

def scheduleOf (build : Build) (c : ConsensusInfo) : BlobSchedule where
  target := (c.targetBlobGasPerBlock build).toNat
  max := (c.maxBlobGasPerBlock build).toNat
  fraction := (c.blobBaseFeeUpdateFraction build).toNat

-- EIP-7918 compares the two prices of a blob.
theorem reserve_price (h : Plausible build c parent) (hfork : (c.forkId build).atLeast .Osaka) {fee : Nat}
    (hfee : BlobBaseFee parent.excessBlobGas.toNat (c.blobBaseFeeUpdateFraction build).toNat fee) :
    BitVec.ofNat 256 kBlobBaseCost * parent.baseFeePerGas > word kGasPerBlob * BitVec.ofNat 256 fee ↔
      8192 * parent.baseFeePerGas.toNat > 131072 * fee := by
  have hroom := h.blobFee hfork fee hfee
  have hbase := h.baseFee
  rw [← ofNat_toNat parent.baseFeePerGas, word, ofNat_mul, ofNat_mul, ofNat_toNat]
  exact ofNat_lt hroom (show 8192 * parent.baseFeePerGas.toNat < 2 ^ 256 by omega)

theorem excess_exact (h : Plausible build c parent) (hfork : (c.forkId build).atLeast .Cancun) (next : Nat) :
    ExcessRule ((c.forkId build).atLeast .Osaka) (scheduleOf build c) parent.excessBlobGas.toNat
      parent.blobGasUsed.toNat parent.baseFeePerGas.toNat next ↔ next = (expectedExcessBlobGas build c parent).toNat := by
  have hgas := h.blobGas hfork
  have hsum := toNat_add_of_lt hgas
  rw [ExcessRule, expectedExcessBlobGas]
  by_cases hlow : parent.excessBlobGas.toNat + parent.blobGasUsed.toNat < (scheduleOf build c).target
  · have hless : parent.excessBlobGas + parent.blobGasUsed < c.targetBlobGasPerBlock build := by
      rw [lt_iff_toNat_lt, hsum]
      exact hlow
    rw [if_pos hlow, if_pos hless]
    rfl
  · have hle : (scheduleOf build c).target ≤ (parent.excessBlobGas + parent.blobGasUsed).toNat := by omega
    have hsub : (parent.excessBlobGas + parent.blobGasUsed - c.targetBlobGasPerBlock build).toNat =
        parent.excessBlobGas.toNat + parent.blobGasUsed.toNat - (scheduleOf build c).target := by
      rw [toNat_sub_of_le hle, hsum]
      rfl
    rw [if_neg hlow, if_neg (UInt64.not_lt.mpr (UInt64.le_iff_toNat_le.mpr hle))]
    by_cases hosaka : (c.forkId build).atLeast .Osaka = true
    · obtain ⟨fee, hlt, hfee, heq⟩ := fakeExponential_fee h hosaka
      obtain ⟨htarget, hmax, -⟩ := h.schedule_valid hosaka
      obtain ⟨hscaled, hused⟩ := @scaled_toNat parent.blobGasUsed _ _ htarget hmax
      have hunique : ∀ rule : Nat → Nat, (∃ fee, BlobBaseFee parent.excessBlobGas.toNat (scheduleOf build c).fraction fee ∧
          next = rule fee) ↔ next = rule fee := fun rule =>
        ⟨fun ⟨_, hfee', hnext⟩ => hfee'.unique hfee ▸ hnext, fun hnext => ⟨fee, hfee, hnext⟩⟩
      rw [if_pos hosaka, if_pos hosaka, heq, if_congr (reserve_price h hosaka hfee) rfl rfl]
      refine (hunique _).trans ?_
      split
      · have hcast : (UInt64.ofNat (word parent.blobGasUsed * word (c.maxBlobGasPerBlock build -
            c.targetBlobGasPerBlock build) / word (c.maxBlobGasPerBlock build)).toNat).toNat =
              parent.blobGasUsed.toNat * ((scheduleOf build c).max - (scheduleOf build c).target) /
                (scheduleOf build c).max := by
          rw [hscaled, toNat_ofNat_of_lt' (Nat.lt_of_le_of_lt hused parent.blobGasUsed.toNat_lt)]
          rfl
        rw [toNat_add_of_lt (by rw [hcast]; exact Nat.lt_of_le_of_lt (Nat.add_le_add_left hused _) hgas), hcast]
      · rw [hsub]
    · rw [if_neg hosaka, if_neg hosaka, hsub]

theorem fee_delta {fee : Word} (hfee : fee.toNat < 2 ^ 192) (distance target : UInt64) :
    (fee * word distance / word target / 8).toNat = fee.toNat * distance.toNat / target.toNat / 8 ∧
      fee.toNat * distance.toNat < 2 ^ 256 := by
  have hproduct : fee.toNat * distance.toNat < 2 ^ 192 * 2 ^ 64 := Nat.mul_lt_mul'' hfee distance.toNat_lt
  have htarget : target.toNat < 2 ^ 256 := Nat.lt_trans target.toNat_lt (by decide)
  have hbound : fee.toNat * distance.toNat < 2 ^ 256 := by omega
  have hquotient : fee.toNat * distance.toNat / target.toNat < 2 ^ 256 :=
    Nat.lt_of_le_of_lt (Nat.div_le_self _ _) hbound
  refine ⟨?_, hbound⟩
  rw [← ofNat_toNat fee, word, word, ofNat_mul, ofNat_div hbound htarget, ofNat_toNat,
    show (8 : Word) = BitVec.ofNat 256 8 from rfl, ofNat_div hquotient (by decide), toNat_ofNat_of_lt]
  exact Nat.lt_of_le_of_lt (Nat.div_le_self _ _) hquotient

theorem fee_fall (fee : Nat) {distance target : Nat} (h : distance ≤ target) : fee * distance / target / 8 ≤ fee / 8 := by
  apply Nat.div_le_div_right
  apply Nat.div_le_of_le_mul
  rw [Nat.mul_comm]
  exact Nat.mul_le_mul_right _ h

theorem baseFee_exact (h : Plausible build c parent) :
    (expectedBaseFee parent).toNat =
      nextBaseFee parent.gasLimit.toNat parent.gasUsed.toNat parent.baseFeePerGas.toNat := by
  have hfee := h.baseFee
  have htarget : (parent.gasLimit / 2).toNat = parent.gasLimit.toNat / 2 := by rw [UInt64.toNat_div]; rfl
  have hzero : parent.baseFeePerGas = 0 ↔ parent.baseFeePerGas.toNat = 0 :=
    ⟨fun h => by rw [h]; rfl, fun h => eq_of_toNat_eq h⟩
  rw [expectedBaseFee, nextBaseFee, ← htarget]
  by_cases hnone : parent.baseFeePerGas = 0
  · rw [if_pos hnone, if_pos (hzero.mp hnone)]
    rfl
  rw [if_neg hnone, if_neg (mt hzero.mpr hnone)]
  simp only [← UInt64.toNat_inj, UInt64.lt_iff_toNat_lt]
  split
  · rfl
  split
  · next habove =>
    obtain ⟨hdelta, hproduct⟩ := fee_delta hfee (parent.gasUsed - parent.gasLimit / 2) (parent.gasLimit / 2)
    rw [toNat_sub_of_le (Nat.le_of_lt habove)] at hdelta hproduct
    generalize parent.baseFeePerGas * word (parent.gasUsed - parent.gasLimit / 2) / word (parent.gasLimit / 2) / 8 =
      delta at hdelta ⊢
    rw [← hdelta]
    have hsmall : delta.toNat ≤ parent.baseFeePerGas.toNat * (parent.gasUsed.toNat - (parent.gasLimit / 2).toNat) / 8 := by
      rw [hdelta]
      exact Nat.div_le_div_right (Nat.div_le_self _ _)
    by_cases hpos : 0 < delta
    · have : 0 < delta.toNat := hpos
      rw [if_pos hpos, toNat_add, Nat.mod_eq_of_lt (by omega), Nat.max_eq_left this]
    · have : ¬0 < delta.toNat := hpos
      rw [if_neg hpos, toNat_add, Nat.max_eq_right (by omega)]
      exact Nat.mod_eq_of_lt (show parent.baseFeePerGas.toNat + 1 < 2 ^ 256 by omega)
  · next hne habove =>
    obtain ⟨hdelta, hproduct⟩ := fee_delta hfee (parent.gasLimit / 2 - parent.gasUsed) (parent.gasLimit / 2)
    rw [toNat_sub_of_le (Nat.le_of_not_lt habove)] at hdelta
    have hfall := @fee_fall parent.baseFeePerGas.toNat _ _ (Nat.sub_le (parent.gasLimit / 2).toNat parent.gasUsed.toNat)
    generalize parent.baseFeePerGas * word (parent.gasLimit / 2 - parent.gasUsed) / word (parent.gasLimit / 2) / 8 =
      delta at hdelta ⊢
    rw [← hdelta] at hfall ⊢
    have hpos := mt hzero.mpr hnone
    have hless : delta < parent.baseFeePerGas := show delta.toNat < parent.baseFeePerGas.toNat by omega
    rw [if_pos hless, BitVec.toNat_sub_of_le (show delta.toNat ≤ parent.baseFeePerGas.toNat by omega)]

theorem nextBaseFee_pos (gasLimit gasUsed baseFee : Nat) : 0 < nextBaseFee gasLimit gasUsed baseFee := by
  rw [nextBaseFee]
  split
  · decide
  · have hfall := fee_fall baseFee (Nat.sub_le (gasLimit / 2) gasUsed)
    dsimp only
    split
    · omega
    · split <;> omega

-- The bound above may wrap only for limits that the bound below refuses.
theorem gasLimit_exact (h : Plausible build c parent) :
    (checkGasLimitRange c = .ok () ∧ c.gasLimit < elasticGasLimit build c parent + elasticGasLimit build c parent / 1024 ∧
      elasticGasLimit build c parent - elasticGasLimit build c parent / 1024 < c.gasLimit) ↔
    GasLimitRule (if (c.forkId build).atLeast .London ∧ parent.baseFeePerGas = 0 then 2 * parent.gasLimit.toNat
      else parent.gasLimit.toNat) c.gasLimit.toNat := by
  have hlimit : (if (c.forkId build).atLeast .London ∧ parent.baseFeePerGas = 0 then 2 * parent.gasLimit.toNat
      else parent.gasLimit.toNat) = (elasticGasLimit build c parent).toNat := by
    have hhigh := h.limitHigh
    rw [elasticGasLimit]
    split
    · rw [UInt64.toNat_mul, show (2 : UInt64).toNat = 2 from rfl, Nat.mod_eq_of_lt (by omega), Nat.mul_comm]
    · rfl
  rw [hlimit]
  generalize elasticGasLimit build c parent = limit
  have hlt := limit.toNat_lt
  have hshare : (limit / 1024).toNat = limit.toNat / 1024 := by rw [UInt64.toNat_div]; rfl
  have hsub : (limit - limit / 1024).toNat = limit.toNat - limit.toNat / 1024 := by
    rw [toNat_sub_of_le (by omega), hshare]
  rw [checkGasLimitRange, seq_eq_ok, requireThat_ok, requireThat_ok, decide_eq_true_iff, decide_eq_true_iff,
    UInt64.le_iff_toNat_le, UInt64.lt_iff_toNat_lt, UInt64.lt_iff_toNat_lt, UInt64.toNat_add, hshare, hsub, GasLimitRule,
    show kMinGasLimit.toNat = 5000 from rfl]
  omega

theorem gated_ok {fork rule : Bool} {message : String} :
    requireThat (!fork || rule) message = .ok () ↔ (fork = true → rule = true) := by
  rw [requireThat_ok]
  cases fork with
  | false => exact ⟨nofun, fun _ => rfl⟩
  | true => exact ⟨fun h _ => h, fun h => h rfl⟩

theorem checkExcessBlobGas_ok (h : Plausible build c parent) :
    checkExcessBlobGas build c parent = .ok () ↔ ((c.forkId build).atLeast .Cancun →
      ExcessRule ((c.forkId build).atLeast .Osaka) (scheduleOf build c) parent.excessBlobGas.toNat
        parent.blobGasUsed.toNat parent.baseFeePerGas.toNat c.excessBlobGas.toNat) := by
  rw [checkExcessBlobGas, gated_ok, beq_iff_eq, ← UInt64.toNat_inj]
  exact forall_congr' fun hfork => (excess_exact h hfork _).symm

theorem checkBaseFee_ok (h : Plausible build c parent) :
    checkBaseFee build c parent = .ok () ↔ ((c.forkId build).atLeast .London → c.baseFeePerGas.toNat =
      nextBaseFee parent.gasLimit.toNat parent.gasUsed.toNat parent.baseFeePerGas.toNat) := by
  rw [checkBaseFee, gated_ok, beq_iff_eq, ← baseFee_exact h, toNat_inj]

theorem checkHeader_ok : checkHeader build c parent = .ok () ↔
    parent.stateRoot = c.parentHash ∧ checkExcessBlobGas build c parent = .ok () ∧
    checkBaseFee build c parent = .ok () ∧
    (checkGasLimitRange c = .ok () ∧ c.gasLimit < elasticGasLimit build c parent + elasticGasLimit build c parent / 1024 ∧
      elasticGasLimit build c parent - elasticGasLimit build c parent / 1024 < c.gasLimit) ∧
    c.number = parent.number + 1 ∧ parent.timestamp < c.timestamp ∧ checkPostMerge build c = .ok () := by
  rw [checkHeader, seq_eq_ok, seq_eq_ok, seq_eq_ok, seq_eq_ok, seq_eq_ok, checkLineage, seq_eq_ok, seq_eq_ok]
  simp only [requireThat_ok, beq_iff_eq, decide_eq_true_iff]
  tauto

end

-- An Osaka block over a cheap blob market.

def inputBuild : Build := ⟨.Mainnet, true⟩

def reserveParent : BlockHeader :=
  { Ancestors.view [] with
    number := 1, timestamp := 1, gasLimit := 30000000, gasUsed := 15000000, baseFeePerGas := 1000
    blobGasUsed := 18 * kGasPerBlob }

def reserveBlock : ConsensusInfo :=
  { ConsensusInfo.ofPrefix [] with
    number := 2, timestamp := 2, gasLimit := 30000000, baseFeePerGas := 1000, excessBlobGas := 6 * kGasPerBlob
    forkIdField := 7, targetBlobGasPerBlockField := 14 * kGasPerBlob, maxBlobGasPerBlockField := 21 * kGasPerBlob
    ommersHash := kEmptyOmmersHash }

theorem plausible_reserve : Plausible inputBuild reserveBlock reserveParent where
  limitLow := by decide
  limitHigh := by decide
  baseFee := by decide
  blobGas := fun _ => by decide
  schedule := fun _ _ => by decide
  series := fun _ => fits_hundred (by decide) (by decide) (Nat.zero_le _)
  blobFee := by
    rintro - fee ⟨output, hseries, rfl⟩
    have hone : output = (reserveBlock.blobBaseFeeUpdateFraction inputBuild).toNat :=
      hseries.unique (.Step (by decide) .Stop)
    rw [hone]
    decide

def wrappedParent : BlockHeader :=
  { reserveParent with excessBlobGas := 0xffffffffffffffff, blobGasUsed := 1 }

def wrappedBlock : ConsensusInfo := { reserveBlock with excessBlobGas := 0 }

end Zeg.Run
