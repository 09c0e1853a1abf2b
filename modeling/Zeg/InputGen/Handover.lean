import Zeg.Ancestors
import Zeg.Base.BigEndian
import Zeg.Header.Binding
import Zeg.InputGen.Sections

-- What the input generator writes of a block's consensus data and ancestors is what the guest reads.
namespace Zeg.InputGen

open Base Zeg.Stream Fork Consensus Ancestors List UInt64
open Base.Rlp (beBytes)

-- Records

theorem leNat_bytes (width n : Nat) :
    leNat ((List.range width).map fun i => UInt8.ofNat (n / 256 ^ i)) = n % 256 ^ width := by
  induction width generalizing n with
  | zero => simp [leNat, Nat.mod_one]
  | succ width ih =>
    have hshift : (fun i => UInt8.ofNat (n / 256 ^ i)) ∘ Nat.succ = fun i => UInt8.ofNat (n / 256 / 256 ^ i) := by
      funext i
      simp [Nat.pow_succ', Nat.div_div_eq_div_mul]
    rw [range_succ_eq_map, map_cons, map_map, hshift, leNat, ih, Nat.pow_succ', Nat.mod_mul]
    simp

@[simp]
theorem length_putU64 (n : Nat) : (putU64 n).length = 8 := by simp [putU64]

@[simp]
theorem length_putU32 (n : Nat) : (putU32 n).length = 4 := by simp [putU32]

@[simp]
theorem length_toBytes (w : Word) : (Word.toBytes w).length = 32 := by simp [Word.toBytes]

@[simp]
theorem length_u64Field (n : Option UInt64) : (u64Field n).length = 8 := length_putU64 _

@[simp]
theorem length_feeField (h : Header) : (feeField h).length = 32 := length_toBytes _

@[simp]
theorem length_hashField (hash : Option Bytes32) : (hashField hash).length = 32 := by cases hash <;> simp [hashField]

@[simp]
theorem length_extraField (h : Header) : (extraField h).length = 32 := by
  have hle : extraLen h ≤ 32 := Nat.min_le_right _ _
  have hlen : extraLen h ≤ h.extraData.length := Nat.min_le_left _ _
  simp only [extraField, length_append, length_take, length_replicate]
  omega

section

variable {fields : List Bytes} {lens : List Nat} (hlens : fields.map List.length = lens)

include hlens

theorem take_field {k : Nat} {f : Bytes} (hk : fields[k]? = some f) :
    (fields.flatten.drop (lens.take k).sum).take f.length = f := by
  obtain ⟨hlt, rfl⟩ := List.getElem?_eq_some_iff.mp hk
  have hsplit : fields.flatten = (fields.take k).flatten ++ (fields.drop k).flatten := by
    rw [← flatten_append, take_append_drop]
  rw [← hlens, ← map_take, ← length_flatten, hsplit, drop_left, drop_eq_getElem_cons hlt,
    flatten_cons, take_left]

theorem u64At_field (k : Nat) {n : Nat} (hk : fields[k]? = some (putU64 n)) :
    u64At fields.flatten (lens.take k).sum = UInt64.ofNat n := by
  have hfield := take_field hlens hk
  rw [length_putU64] at hfield
  rw [u64At, hfield, putU64, leNat_bytes]
  exact ofNat_mod_size

theorem u64At_value (k : Nat) {n : UInt64} (hk : fields[k]? = some (putU64 n.toNat)) :
    u64At fields.flatten (lens.take k).sum = n :=
  (u64At_field hlens k hk).trans UInt64.ofNat_toNat

theorem bytesAt_field (k : Nat) {n : Nat} {v : List.Vector UInt8 n} (hk : fields[k]? = some v.toList) :
    bytesAt n fields.flatten (lens.take k).sum = v := by
  have hfield := take_field hlens hk
  rw [List.Vector.toList_length] at hfield
  generalize fields.flatten = record at hfield ⊢
  generalize (lens.take k).sum = offset at hfield ⊢
  have hlen : n ≤ record.length - offset := by
    have h := congrArg List.length hfield
    rw [length_take, length_drop, List.Vector.toList_length] at h
    omega
  refine Subtype.ext (Eq.trans (ext_getElem ?_ fun i hi hi' => ?_) hfield)
  · simp [bytesAt, hlen]
  · have hin : i < n := by simpa [bytesAt] using hi
    simp [bytesAt, List.getElem?_eq_getElem (show offset + i < record.length by omega)]

end

-- Forks

def chainId : Chain → UInt64
  | .Mainnet => 1
  | .Sepolia => 11155111

def cancunTime : Chain → UInt64
  | .Mainnet => 1710338135
  | .Sepolia => 1706655072

def Approximated (chain : Chain) (timestamp : UInt64) : Prop :=
  chain = .Mainnet ∧ 1764798551 ≤ timestamp ∧ timestamp < 1767747671

theorem forkParams_eq {chain : Chain} {t : UInt64} (hcancun : cancunTime chain ≤ t) :
    ∃ isOsaka, forkParams (chainId chain) t = .ok (isOsaka, (forkParamsAt chain t).blobBaseFeeUpdateFraction,
        (forkParamsAt chain t).targetBlobGas, (forkParamsAt chain t).maxBlobGas) ∧
      (isOsaka = true ↔ (forkParamsAt chain t).fork.atLeast .Osaka = true ∧ ¬Approximated chain t) ∧
      (Approximated chain t → (forkParamsAt chain t).fork = .Osaka) ∧
      (forkParamsAt chain t).fork.atLeast .Cancun = true := by
  cases chain with
  | Mainnet =>
    change 1710338135 ≤ t at hcancun
    have hprague (h : 1764798551 ≤ t) : 1746612311 ≤ t := UInt64.le_trans (by decide) h
    have hosaka (h : 1765290071 ≤ t) : 1764798551 ≤ t := UInt64.le_trans (by decide) h
    simp only [forkParams, chainId, schedule, forkParamsAt, kForkSchedule, Approximated, List.find?, if_true, hcancun]
    by_cases hbpo2 : 1767747671 ≤ t
    · simp +decide [hbpo2]
    by_cases hbpo1 : 1765290071 ≤ t
    · simp +decide [hbpo2, hbpo1, hosaka hbpo1]
    by_cases hosaka : 1764798551 ≤ t
    · simp +decide [hbpo2, hbpo1, hosaka, hprague hosaka]
    by_cases hprague : 1746612311 ≤ t
    · simp +decide [hbpo2, hbpo1, hosaka, hprague]
    · simp +decide [hbpo2, hbpo1, hosaka, hprague]
  | Sepolia =>
    change 1706655072 ≤ t at hcancun
    have hne : (11155111 : UInt64) ≠ 1 := by decide
    have hprague (h : 1760427360 ≤ t) : 1741159776 ≤ t := UInt64.le_trans (by decide) h
    have hosaka {b : UInt64} (hb : 1760427360 ≤ b) (h : b ≤ t) : 1760427360 ≤ t := UInt64.le_trans hb h
    simp only [forkParams, chainId, schedule, forkParamsAt, kForkSchedule, Approximated, List.find?, if_true, if_neg hne,
      hcancun]
    by_cases hamsterdam : 1791294816 ≤ t
    · simp +decide [hamsterdam, hosaka _ hamsterdam]
    by_cases hbpo2 : 1761607008 ≤ t
    · simp +decide [hamsterdam, hbpo2, hosaka _ hbpo2]
    by_cases hbpo1 : 1761017184 ≤ t
    · simp +decide [hamsterdam, hbpo2, hbpo1, hosaka _ hbpo1]
    by_cases hosaka : 1760427360 ≤ t
    · simp +decide [hamsterdam, hbpo2, hbpo1, hosaka, hprague hosaka]
    by_cases hprague : 1741159776 ≤ t
    · simp +decide [hamsterdam, hbpo2, hbpo1, hosaka, hprague]
    · simp +decide [hamsterdam, hbpo2, hbpo1, hosaka, hprague]
structure Header.Carries (h : Header) (fork : ForkId) : Prop where
  baseFeePerGas : h.baseFeePerGas.isSome = fork.atLeast .London
  withdrawalsRoot : h.withdrawalsRoot.isSome = fork.atLeast .Shanghai
  blobGasUsed : h.blobGasUsed.isSome = fork.atLeast .Cancun
  excessBlobGas : h.excessBlobGas.isSome = fork.atLeast .Cancun
  parentBeaconBlockRoot : h.parentBeaconBlockRoot.isSome = fork.atLeast .Cancun
  requestsHash : h.requestsHash.isSome = fork.atLeast .Prague
  blockAccessListHash : h.blockAccessListHash.isSome = fork.atLeast .Amsterdam
  slotNumber : h.slotNumber.isSome = fork.atLeast .Amsterdam

theorem forkId_eq {h : Header} {fork : ForkId} (hcarries : h.Carries fork) (hcancun : fork.atLeast .Cancun = true)
    (isOsaka : Bool) : forkId h isOsaka = fork.ctorIdx ↔ fork = .Amsterdam ∨ isOsaka = fork.atLeast .Osaka := by
  simp only [forkId, hcarries.blockAccessListHash, hcarries.requestsHash, hcarries.parentBeaconBlockRoot, hcancun,
    if_true]
  revert hcancun
  cases fork <;> cases isOsaka <;> decide

section

variable (chain : Chain) (current : Block) (parent : Header) (rest : Bytes)

-- The constructor takes the section, and the written fork and blob parameters are those of its own schedule.
def Agreed : Prop :=
  let scheduled := forkParamsAt chain current.header.timestamp
  ∃ params c, forkParams (chainId chain) current.header.timestamp = .ok params ∧
    readConsensusInfo ⟨chain, false⟩ (writeConsensusInfo current parent params ++ rest) = .ok (c, rest) ∧
    c.timestamp = current.header.timestamp ∧
    c.forkIdField.toNat = scheduled.fork.ctorIdx ∧ c.targetBlobGasPerBlockField = scheduled.targetBlobGas ∧
    c.maxBlobGasPerBlockField = scheduled.maxBlobGas ∧
    c.blobBaseFeeUpdateFractionField = scheduled.blobBaseFeeUpdateFraction

end

section

variable {chain : Chain} {current : Block} {parent : Header} {params : Bool × UInt64 × UInt64 × UInt64} {rest : Bytes}

theorem lens_consensusFields : (consensusFields current parent params).map List.length =
    [32, 20, 4, 8, 8, 8, 8, 32, 32, 32, 32, 8, 8, 32, 32, 8, 32, 8, 8, 8, 8, 8] := by
  simp [consensusFields]

theorem lens_withdrawalFields (w : Withdrawal) : (withdrawalFields w).map List.length = [8, 8, 20, 4, 8] := by
  simp [withdrawalFields]

theorem length_records {α : Type} {f : α → List Bytes} {n : Nat} (hf : ∀ a, (f a).flatten.length = n) (l : List α) :
    ((l.map fun a => (f a).flatten).flatten).length = l.length * n := by
  have hsame : (List.length ∘ fun a => (f a).flatten) = fun _ => n := funext hf
  rw [length_flatten, map_map, hsame, map_const', sum_replicate_nat]

theorem length_of_lens {fields : List Bytes} {lens : List Nat} (hlens : fields.map List.length = lens) :
    fields.flatten.length = lens.sum := by
  rw [length_flatten, hlens]

theorem readWithdrawals_write (withdrawals : List Withdrawal) :
    readWithdrawals withdrawals.length
      ((withdrawals.map fun w => (withdrawalFields w).flatten).flatten ++ rest) = .ok (withdrawals, rest) := by
  induction withdrawals with
  | nil => rfl
  | cons w withdrawals ih =>
    have hlens := lens_withdrawalFields w
    have hlen : (withdrawalFields w).flatten.length = kWithdrawalRecordSize := length_of_lens hlens
    have hview : Withdrawal.view (withdrawalFields w).flatten = w :=
      Withdrawal.ext (u64At_value hlens 0 rfl) (u64At_value hlens 1 rfl) (bytesAt_field hlens 2 rfl)
        (u64At_value hlens 4 rfl)
    rw [map_cons, flatten_cons, append_assoc, length_cons, readWithdrawals, advanceChecked,
      if_neg (by rw [length_append]; omega), drop_left' hlen, take_left' hlen, hview]
    exact bind_eq_ok.2 ⟨_, rfl, bind_eq_ok.2 ⟨_, ih, rfl⟩⟩

theorem ofPrefix_write :
    let c := ConsensusInfo.ofPrefix (consensusFields current parent params).flatten
    c.timestamp = current.header.timestamp ∧ c.extraDataLen = UInt64.ofNat (extraLen current.header) ∧
      c.withdrawalsCount = UInt64.ofNat (withdrawalsOf current).length ∧
      c.forkIdField = UInt64.ofNat (forkId current.header params.1) ∧ c.blobBaseFeeUpdateFractionField = params.2.1 ∧
      c.targetBlobGasPerBlockField = params.2.2.1 ∧ c.maxBlobGasPerBlockField = params.2.2.2 ∧
      c.slotNumberField = current.header.slotNumber.getD 0 := by
  have hlens := @lens_consensusFields current parent params
  exact ⟨u64At_value hlens 5 rfl, u64At_field hlens 6 rfl, u64At_field hlens 11 rfl, u64At_field hlens 17 rfl,
    u64At_value hlens 18 rfl, u64At_value hlens 19 rfl, u64At_value hlens 20 rfl, u64At_value hlens 21 rfl⟩

theorem readConsensusInfo_write (build : Build) :
    let c := ConsensusInfo.ofPrefix (consensusFields current parent params).flatten
    readConsensusInfo build (writeConsensusInfo current parent params ++ rest) =
      (c.check build).map fun _ => ({ c with withdrawals := withdrawalsOf current }, rest) := by
  intro c
  have hcount : c.withdrawalsCount.toNat = (withdrawalsOf current).length := by
    have hbound : (withdrawalsOf current).length < 2 ^ 64 := by
      unfold withdrawalsOf
      cases current.withdrawals with
      | none => decide
      | some records => exact records.2
    rw [(@ofPrefix_write current parent params).2.2.1]
    exact toNat_ofNat_of_lt' hbound
  have hlen : (consensusFields current parent params).flatten.length = kFixedPrefixSize :=
    length_of_lens lens_consensusFields
  rw [readConsensusInfo, writeConsensusInfo, append_assoc, advanceChecked,
    if_neg (by rw [length_append, hlen]; omega), drop_left' hlen, take_left' hlen]
  change (c.check build >>= fun _ => _) = _
  cases c.check build with
  | error message => rfl
  | ok _ =>
    have hroom : ¬(((withdrawalsOf current).map fun w => (withdrawalFields w).flatten).flatten ++ rest).length /
        kWithdrawalRecordSize < c.withdrawalsCount.toNat := by
      have hlen := length_records (fun w => length_of_lens (lens_withdrawalFields w)) (withdrawalsOf current)
      rw [hcount, length_append, hlen, Nat.not_lt, Nat.le_div_iff_mul_le (by decide)]
      exact Nat.le_add_right _ _
    change (if _ then _ else _) = _
    rw [if_neg hroom, hcount]
    exact bind_eq_ok.2 ⟨_, readWithdrawals_write _, rfl⟩

theorem forkId_le (h : Header) (isOsaka : Bool) : forkId h isOsaka ≤ 8 := by
  unfold forkId
  repeat' split
  all_goals decide

theorem check_write (hcarries : current.header.Carries (forkParamsAt chain current.header.timestamp).fork) :
    (ConsensusInfo.ofPrefix (consensusFields current parent params).flatten).check ⟨chain, false⟩ = .ok () ↔
      forkId current.header params.1 = (forkParamsAt chain current.header.timestamp).fork.ctorIdx := by
  obtain ⟨htime, hextra, -, hfork, -, -, -, hslot⟩ := @ofPrefix_write current parent params
  generalize ConsensusInfo.ofPrefix (consensusFields current parent params).flatten = c at htime hextra hfork hslot ⊢
  have hid : c.forkId ⟨chain, false⟩ = (forkParamsAt chain current.header.timestamp).fork := by
    rw [← htime]
    rfl
  have hcode : c.forkIdField.toNat = forkId current.header params.1 := by
    rw [hfork]
    exact toNat_ofNat_of_lt' (Nat.lt_of_le_of_lt (forkId_le _ _) (by decide))
  have hknown : ¬8 < c.forkIdField := by
    rw [UInt64.not_lt, UInt64.le_iff_toNat_le, hcode]
    exact forkId_le _ _
  have hshort : ¬32 < c.extraDataLen := by
    have hle : extraLen current.header ≤ 32 := Nat.min_le_right _ _
    rw [UInt64.not_lt, UInt64.le_iff_toNat_le, hextra, UInt64.toNat_ofNat_of_lt' (Nat.lt_of_le_of_lt hle (by decide))]
    exact hle
  have hbefore : ¬(((!(forkParamsAt chain current.header.timestamp).fork.atLeast .Amsterdam) = true) ∧
      c.slotNumberField ≠ 0) := by
    rintro ⟨hearly, hne⟩
    rw [Bool.not_eq_true', ← hcarries.slotNumber, Option.isSome_eq_false_iff, Option.isNone_iff_eq_none] at hearly
    rw [hslot, hearly] at hne
    exact hne rfl
  rw [ConsensusInfo.check, if_neg hshort, if_neg hknown, hid, if_neg hbefore, hcode]
  by_cases hmatch : forkId current.header params.1 = (forkParamsAt chain current.header.timestamp).fork.ctorIdx
  · simp [hmatch]
  · simp [hmatch]

theorem accepted_iff (hcarries : current.header.Carries (forkParamsAt chain current.header.timestamp).fork) :
    (∃ c, readConsensusInfo ⟨chain, false⟩ (writeConsensusInfo current parent params ++ rest) = .ok (c, rest) ∧
      c.timestamp = current.header.timestamp ∧
      c.forkIdField.toNat = (forkParamsAt chain current.header.timestamp).fork.ctorIdx ∧
      c.targetBlobGasPerBlockField = params.2.2.1 ∧ c.maxBlobGasPerBlockField = params.2.2.2 ∧
      c.blobBaseFeeUpdateFractionField = params.2.1) ↔
    forkId current.header params.1 = (forkParamsAt chain current.header.timestamp).fork.ctorIdx := by
  rw [readConsensusInfo_write]
  constructor
  · rintro ⟨c, haccept, -⟩
    obtain ⟨_, hcheck, -⟩ := map_eq_ok.mp haccept
    exact (check_write hcarries).mp hcheck
  · intro hmatch
    obtain ⟨htime, -, -, hid, hfraction, htarget, hmax, -⟩ := @ofPrefix_write current parent params
    refine ⟨_, map_eq_ok.mpr ⟨(), (check_write hcarries).mpr hmatch, rfl⟩, htime, ?_, htarget, hmax, hfraction⟩
    rw [← hmatch]
    change (ConsensusInfo.ofPrefix _).forkIdField.toNat = _
    rw [hid]
    exact toNat_ofNat_of_lt' (Nat.lt_of_le_of_lt (forkId_le _ _) (by decide))

end

def pragueHeader (number timestamp : UInt64) : Header where
  parentHash := .replicate 32 0
  ommersHash := .replicate 32 0
  beneficiary := .replicate 20 0
  stateRoot := .replicate 32 0
  transactionsRoot := .replicate 32 0
  receiptsRoot := .replicate 32 0
  logsBloom := .replicate 256 0
  difficulty := 0
  number := number
  gasLimit := 30000000
  gasUsed := 0
  timestamp := timestamp
  extraData := []
  mixHash := .replicate 32 0
  nonce := .replicate 8 0
  baseFeePerGas := some 7
  withdrawalsRoot := some (.replicate 32 0)
  blobGasUsed := some 0
  excessBlobGas := some 0
  parentBeaconBlockRoot := some (.replicate 32 0)
  requestsHash := some (.replicate 32 0)
  blockAccessListHash := none
  slotNumber := none

end Zeg.InputGen
