import Zeg.Consensus
import Zeg.InputGen
import Mathlib.Data.List.Destutter

-- The input generator's consensus section and its ancestors' section.
namespace Zeg.InputGen

open Base Fork Consensus

def putU32 (n : Nat) : Bytes := (List.range 4).map fun i => UInt8.ofNat (n / 256 ^ i)

-- The header as alloy has it: what a fork added is optional.
@[ext]
structure Header where
  parentHash : Bytes32
  ommersHash : Bytes32
  beneficiary : Address
  stateRoot : Bytes32
  transactionsRoot : Bytes32
  receiptsRoot : Bytes32
  logsBloom : List.Vector UInt8 256
  difficulty : Word
  number : UInt64
  gasLimit : UInt64
  gasUsed : UInt64
  timestamp : UInt64
  extraData : Bytes
  mixHash : Bytes32
  nonce : List.Vector UInt8 8
  baseFeePerGas : Option UInt64
  withdrawalsRoot : Option Bytes32
  blobGasUsed : Option UInt64
  excessBlobGas : Option UInt64
  parentBeaconBlockRoot : Option Bytes32
  requestsHash : Option Bytes32
  blockAccessListHash : Option Bytes32
  slotNumber : Option UInt64

-- A vector's length is a usize.
structure Block where
  header : Header
  withdrawals : Option { records : List Withdrawal // records.length < 2 ^ 64 }

-- (activation, base_fee_update_fraction, target_blob_count, max_blob_count), newest first
def schedule (osakaActivation : UInt64) (rows : List (UInt64 × UInt64 × UInt64 × UInt64)) (timestamp : UInt64) :
    Bool × UInt64 × UInt64 × UInt64 :=
  let (fraction, targetBlobs, maxBlobs) :=
    ((rows.find? fun row => row.1 ≤ timestamp).map Prod.snd).getD (0, 0, 0)
  (osakaActivation ≤ timestamp, fraction, targetBlobs * kGasPerBlob, maxBlobs * kGasPerBlob)

def forkParams (chainId timestamp : UInt64) : Except String (Bool × UInt64 × UInt64 × UInt64) :=
  if chainId = 1 then
    .ok (schedule 1767747671
      [(1767747671, 11684671, 14, 21), (1765290071, 8346193, 10, 15), (1746612311, 5007716, 6, 9),
       (1710338135, 3338477, 3, 6)] timestamp)
  else if chainId = 11155111 then
    .ok (schedule 1760427360
      [(1791294816, 11684671, 14, 21), (1761607008, 11684671, 14, 21), (1761017184, 8346193, 10, 15),
       (1741159776, 5007716, 6, 9), (1706655072, 3338477, 3, 6)] timestamp)
  else .error s!"no compiled-in fork schedule for chain id {chainId}"

def extraLen (h : Header) : Nat := min h.extraData.length 32

def extraField (h : Header) : Bytes := h.extraData.take (extraLen h) ++ List.replicate (32 - extraLen h) 0

def hashField (hash : Option Bytes32) : Bytes := (hash.map List.Vector.toList).getD (List.replicate 32 0)

def u64Field (n : Option UInt64) : Bytes := putU64 (n.getD 0).toNat

def feeField (h : Header) : Bytes := Word.toBytes (BitVec.ofNat 256 (h.baseFeePerGas.getD 0).toNat)

def forkId (h : Header) (isOsaka : Bool) : Nat :=
  if h.blockAccessListHash.isSome then 8
  else if isOsaka then 7
  else if h.requestsHash.isSome then 6
  else if h.parentBeaconBlockRoot.isSome then 5
  else if h.withdrawalsRoot.isSome then 4
  else if h.baseFeePerGas.isSome ∧ h.difficulty = 0 then 3
  else if h.baseFeePerGas.isSome then 2
  else 1

def withdrawalsOf (b : Block) : List Withdrawal := (b.withdrawals.map Subtype.val).getD []

def consensusFields (current : Block) (parent : Header) (params : Bool × UInt64 × UInt64 × UInt64) : List Bytes :=
  let h := current.header
  [parent.stateRoot.toList, h.beneficiary.toList, List.replicate 4 0, putU64 h.number.toNat, putU64 h.gasLimit.toNat,
   putU64 h.timestamp.toNat, putU64 (extraLen h), extraField h, h.mixHash.toList, hashField h.parentBeaconBlockRoot,
   feeField h, putU64 (withdrawalsOf current).length, u64Field h.excessBlobGas, hashField h.requestsHash,
   Word.toBytes h.difficulty, h.nonce.toList, h.ommersHash.toList, putU64 (forkId h params.1),
   putU64 params.2.1.toNat, putU64 params.2.2.1.toNat, putU64 params.2.2.2.toNat, u64Field h.slotNumber]

def withdrawalFields (w : Withdrawal) : List Bytes :=
  [putU64 w.index.toNat, putU64 w.validatorIndex.toNat, w.address.toList, List.replicate 4 0, putU64 w.amountGwei.toNat]

def writeConsensusInfo (current : Block) (parent : Header) (params : Bool × UInt64 × UInt64 × UInt64) : Bytes :=
  (consensusFields current parent params).flatten ++
    ((withdrawalsOf current).map fun w => (withdrawalFields w).flatten).flatten

def fieldCount (h : Header) : Nat :=
  if h.blockAccessListHash.isSome then 23
  else if h.requestsHash.isSome then 21
  else if h.parentBeaconBlockRoot.isSome then 20
  else if h.withdrawalsRoot.isSome then 17
  else if h.baseFeePerGas.isSome then 16
  else 15

def ancestorFields (h : Header) : List Bytes :=
  [h.parentHash.toList, h.ommersHash.toList, h.beneficiary.toList, putU32 (fieldCount h), h.stateRoot.toList,
   h.transactionsRoot.toList, h.receiptsRoot.toList, h.logsBloom.toList, Word.toBytes h.difficulty,
   putU64 h.number.toNat, putU64 h.gasLimit.toNat, putU64 h.gasUsed.toNat, putU64 h.timestamp.toNat,
   putU64 (extraLen h), extraField h, h.mixHash.toList, h.nonce.toList, feeField h, hashField h.withdrawalsRoot,
   u64Field h.blobGasUsed, u64Field h.excessBlobGas, hashField h.parentBeaconBlockRoot, hashField h.requestsHash,
   hashField h.blockAccessListHash, u64Field h.slotNumber]

-- BLOCKHASH reaches no further back.
def maxAncestors : Nat := 256

def writePreviousBlocks (ancestors : List Header) : Bytes :=
  putU64 (ancestors.take maxAncestors).length ++
    ((ancestors.take maxAncestors).map fun h => (ancestorFields h).flatten).flatten

-- `decode` is alloy's Header::decode; what it refuses is skipped.
def buildAncestorsFromWitness (decode : Bytes → Option Header) (headers : List Bytes) (parent : Header) :
    List Header :=
  let sorted := (headers.filterMap decode).mergeSort fun a b => b.number ≤ a.number
  -- dedup_by_key
  let headers := sorted.destutter fun a b => a.number ≠ b.number
  parent :: headers.filter fun h => h.number ≠ parent.number

end Zeg.InputGen
