import Zeg.Fork
import Zeg.Stream

-- The consensus section: the block's own inputs and its withdrawals.
namespace Zeg.Consensus

open Base Zeg.Stream Fork

def kFixedPrefixSize : Nat := 376
def kWithdrawalRecordSize : Nat := 48

@[ext]
structure Withdrawal where
  index : UInt64
  validatorIndex : UInt64
  address : Address
  amountGwei : UInt64
deriving DecidableEq

def Withdrawal.view (data : Bytes) : Withdrawal := ⟨u64At data 0, u64At data 8, bytesAt 20 data 16, u64At data 40⟩

-- The fields whose names end in `Field` are the input's; the accessors below may not use them.
structure ConsensusInfo where
  parentHash : Bytes32
  beneficiary : Address
  number : UInt64
  gasLimit : UInt64
  timestamp : UInt64
  extraDataLen : UInt64
  extraData : Bytes
  prevRandao : Bytes32
  parentBeaconBlockRoot : Bytes32
  baseFeePerGas : Word
  withdrawalsCount : UInt64
  excessBlobGas : UInt64
  requestsHash : Bytes32
  difficulty : Word
  nonce : List.Vector UInt8 8
  ommersHash : Bytes32
  forkIdField : UInt64
  blobBaseFeeUpdateFractionField : UInt64
  targetBlobGasPerBlockField : UInt64
  maxBlobGasPerBlockField : UInt64
  slotNumberField : UInt64
  withdrawals : List Withdrawal
deriving DecidableEq

def ConsensusInfo.ofPrefix (header : Bytes) : ConsensusInfo where
  parentHash := bytesAt 32 header 0
  beneficiary := bytesAt 20 header 32
  number := u64At header 56
  gasLimit := u64At header 64
  timestamp := u64At header 72
  extraDataLen := u64At header 80
  extraData := (header.drop 88).take (u64At header 80).toNat
  prevRandao := bytesAt 32 header 120
  parentBeaconBlockRoot := bytesAt 32 header 152
  baseFeePerGas := wordAt header 184
  withdrawalsCount := u64At header 216
  excessBlobGas := u64At header 224
  requestsHash := bytesAt 32 header 232
  difficulty := wordAt header 264
  nonce := bytesAt 8 header 296
  ommersHash := bytesAt 32 header 304
  forkIdField := u64At header 336
  blobBaseFeeUpdateFractionField := u64At header 344
  targetBlobGasPerBlockField := u64At header 352
  maxBlobGasPerBlockField := u64At header 360
  slotNumberField := u64At header 368
  withdrawals := []

def kBlobBaseFeeUpdateFraction : UInt64 := 11684671

namespace ConsensusInfo

variable (build : Build) (c : ConsensusInfo)

def forkId : ForkId :=
  if build.forkFromInput then
    let f := ForkId.ofCode c.forkIdField.toNat
    if f = .Unknown then .Prague else f
  else (forkParamsAt build.chain c.timestamp).fork

def blobBaseFeeUpdateFraction : UInt64 :=
  if build.forkFromInput then
    if c.blobBaseFeeUpdateFractionField ≠ 0 then c.blobBaseFeeUpdateFractionField else kBlobBaseFeeUpdateFraction
  else (forkParamsAt build.chain c.timestamp).blobBaseFeeUpdateFraction

def targetBlobGasPerBlock : UInt64 :=
  if build.forkFromInput then c.targetBlobGasPerBlockField
  else (forkParamsAt build.chain c.timestamp).targetBlobGas

def maxBlobGasPerBlock : UInt64 :=
  if build.forkFromInput then c.maxBlobGasPerBlockField
  else (forkParamsAt build.chain c.timestamp).maxBlobGas

def slotNumber : UInt64 := if (c.forkId build).atLeast .Amsterdam then c.slotNumberField else 0

def check : Except String Unit :=
  if 32 < c.extraDataLen then .error "ConsensusInfo: extra_data_len > 32"
  else if 8 < c.forkIdField then .error "ConsensusInfo: unknown fork_id"
  else if !build.forkFromInput ∧ c.forkIdField.toNat ≠ (c.forkId build).ctorIdx then
    .error "ConsensusInfo: fork_id does not match the chain's fork schedule"
  else if !(c.forkId build).atLeast .Amsterdam ∧ c.slotNumberField ≠ 0 then
    .error "ConsensusInfo: non-zero slot_number before Amsterdam"
  else .ok ()

end ConsensusInfo

def readWithdrawals : Nat → Bytes → Except String (List Withdrawal × Bytes)
  | 0, cursor => .ok ([], cursor)
  | n + 1, cursor => do
    let rest ← advanceChecked kWithdrawalRecordSize cursor
    let (withdrawals, rest) ← readWithdrawals n rest
    return (Withdrawal.view (cursor.take kWithdrawalRecordSize) :: withdrawals, rest)

def readConsensusInfo (build : Build) (cursor : Bytes) : Except String (ConsensusInfo × Bytes) := do
  let rest ← advanceChecked kFixedPrefixSize cursor
  let c := ConsensusInfo.ofPrefix (cursor.take kFixedPrefixSize)
  c.check build
  if rest.length / kWithdrawalRecordSize < c.withdrawalsCount.toNat then
    .error "ConsensusInfo: withdrawals_count exceeds input size"
  else
    let (withdrawals, rest) ← readWithdrawals c.withdrawalsCount.toNat rest
    return ({ c with withdrawals }, rest)

end Zeg.Consensus
