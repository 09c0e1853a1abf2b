import Zeg.Ancestors
import Zeg.CodeTable
import Zeg.Mpt
import Zeg.PayloadRequest
import Zeg.StateRoot.Build

-- The guest's whole pipeline, from the input's bytes to the two hashes it returns.
namespace Zeg.Run

open Base RlpCodec Zeg.Stream Fork Header Consensus Ancestors StateRoot
open Transactions (View)

def kMagic : Nat := 0x3047455A
def kVersion : Nat := 13

def kMinBaseFeePerBlobGas : UInt64 := 1
def kBlobBaseCost : Nat := 8192
def kMinGasLimit : UInt64 := 5000
def kMaxRlpBlockSize : Nat := 8388608

def kEmptyOmmersHash : Bytes32 := digestOf 0x1dcc4de8dec75d7aab85b567b6ccd41ad312451b948a7413f0a142fd40d49347

-- A buffer, whose length is a size_t.
abbrev Input := { bytes : Bytes // bytes.length < 2 ^ 64 }

-- The sections before the ancestors.
structure Leading where
  consensus : ConsensusInfo
  transactions : List View
  codes : List Bytes
deriving DecidableEq

-- What executing the block reads. Of the ancestors it sees the hashes only.
structure ExecutionInput extends Leading where
  parentHash : Bytes32
  hashOfNumber : UInt64 → Option Bytes32
  state : Built

-- What it leaves behind: the rows' values, the outputs of the request predeploys by request type, and
-- the totals that go into the header.
structure Executed where
  now : Assignment
  receiptsRoot : Bytes32
  logsBloom : List.Vector UInt8 256
  gasUsed : UInt64
  blobGasUsed : UInt64
  requestOutput : Fin 5 → Bytes
  blockAccessListRlp : Bytes
  outputSize : ∀ type, (requestOutput type).length < 2 ^ 64
  blockAccessListSize : blockAccessListRlp.length < 2 ^ 64

-- Everything below the pipeline: the two hashes, key recovery, and the execution of the block.
structure Platform where
  keccak : Bytes → Bytes32
  sha256 : Bytes → Bytes32
  ecrecover : Bytes32 → Word → Word → Nat → Option Address
  execute : ExecutionInput → Except String Executed

-- The two output buffers.
structure Published where
  out : Bytes32
  blockHash : Bytes32
deriving DecidableEq

structure Completed where
  lead : Leading
  done : Executed
  header : BlockHeader
  published : Published

-- The loop of fake_exponential, in uint256 arithmetic.
def fakeExponentialLoop (numerator denominator : Word) : Nat → Word → Word → Word → Word
  | 0, output, _, _ => output
  | fuel + 1, output, accum, i =>
    if accum = 0 then output
    else fakeExponentialLoop numerator denominator fuel (output + accum) (accum * numerator / (denominator * i)) (i + 1)

def word (n : UInt64) : Word := BitVec.ofNat 256 n.toNat

def fakeExponential (factor numerator denominator : UInt64) : Word :=
  fakeExponentialLoop (word numerator) (word denominator) (2 ^ 256 + 2 ^ 65) 0 (word factor * word denominator) 1 /
    word denominator

def requireThat (condition : Bool) (message : String) : Except String Unit :=
  if condition then .ok () else .error message

section

variable (build : Build)

-- Step 1 up to the first section.
def readPreamble (input : Bytes) : Except String Bytes :=
  if input.length < 8 then .error "run: input too small for magic"
  else if leNat (input.take 4) ≠ kMagic then .error "run: bad magic (expected ZEG0)"
  else if leNat ((input.drop 4).take 4) ≠ kVersion then .error "run: unsupported format version"
  else if input.length < 24 then .error "run: input too small for hash seed"
  else .ok (input.drop 24)

-- The codes of the Contracts section.
def readCodes : Nat → Bytes → Except String (List Bytes × Bytes)
  | 0, cursor => .ok ([], cursor)
  | count + 1, cursor => do
    let (size, cursor) ← readU64 cursor
    let rest ← advanceChecked size cursor
    let rest ← advanceChecked (padding size) rest
    let (codes, rest) ← readCodes count rest
    return (cursor.take size :: codes, rest)

def readContracts (cursor : Bytes) : Except String (List Bytes × Bytes) := do
  let (count, cursor) ← readU64 cursor
  if cursor.length / 8 < count then .error "Contracts: count exceeds input size" else readCodes count cursor

-- 3.5: what EIP-4844 and EIP-7918 derive from the parent.
def expectedExcessBlobGas (c : ConsensusInfo) (parent : BlockHeader) : UInt64 :=
  let sum := parent.excessBlobGas + parent.blobGasUsed
  let target := c.targetBlobGasPerBlock build
  if sum < target then 0
  else if (c.forkId build).atLeast .Osaka then
    let blobBaseFee := fakeExponential kMinBaseFeePerBlobGas parent.excessBlobGas (c.blobBaseFeeUpdateFraction build)
    if BitVec.ofNat 256 kBlobBaseCost * parent.baseFeePerGas > word kGasPerBlob * blobBaseFee then
      let max := c.maxBlobGasPerBlock build
      let scaled := word parent.blobGasUsed * word (max - target) / word max
      parent.excessBlobGas + UInt64.ofNat scaled.toNat
    else sum - target
  else sum - target

def checkExcessBlobGas (c : ConsensusInfo) (parent : BlockHeader) : Except String Unit :=
  requireThat (!(c.forkId build).atLeast .Cancun || c.excessBlobGas == expectedExcessBlobGas build c parent)
    ("excess_blob_gas mismatch: header's claimed value doesn't " ++
      "match the EIP-4844/7918 formula applied to the parent block")

-- 3.6: EIP-1559; a zero base fee stands for a parent before London.
def expectedBaseFee (parent : BlockHeader) : Word :=
  if parent.baseFeePerGas = 0 then 1000000000
  else
    let target := parent.gasLimit / 2
    if parent.gasUsed = target then parent.baseFeePerGas
    else if target < parent.gasUsed then
      let delta := parent.baseFeePerGas * word (parent.gasUsed - target) / word target / 8
      parent.baseFeePerGas + (if 0 < delta then delta else 1)
    else
      let delta := parent.baseFeePerGas * word (target - parent.gasUsed) / word target / 8
      if delta < parent.baseFeePerGas then parent.baseFeePerGas - delta else 0

def checkBaseFee (c : ConsensusInfo) (parent : BlockHeader) : Except String Unit :=
  requireThat (!(c.forkId build).atLeast .London || c.baseFeePerGas == expectedBaseFee parent)
    ("base_fee_per_gas mismatch: header's claimed value doesn't " ++
      "match the EIP-1559 formula applied to the parent block")

-- 3.7
def checkGasLimitRange (c : ConsensusInfo) : Except String Unit := do
  requireThat (kMinGasLimit ≤ c.gasLimit) "gas_limit below the minimum (5000)"
  requireThat (c.gasLimit.toNat ≤ 2 ^ 63 - 1) "gas_limit above the maximum (2^63 - 1)"

-- 3.8: at London's activation the parent's limit counts twice.
def elasticGasLimit (c : ConsensusInfo) (parent : BlockHeader) : UInt64 :=
  if (c.forkId build).atLeast .London ∧ parent.baseFeePerGas = 0 then parent.gasLimit * 2 else parent.gasLimit

def checkLineage (c : ConsensusInfo) (parent : BlockHeader) : Except String Unit := do
  requireThat (c.number == parent.number + 1) "block number is not parent number + 1"
  requireThat (parent.timestamp < c.timestamp) "block timestamp is not after the parent's"
  let limit := elasticGasLimit build c parent
  requireThat (c.gasLimit < limit + limit / 1024 ∧ limit - limit / 1024 < c.gasLimit)
    "gas_limit differs from the parent's by 1/1024 or more"

-- 3.9
def checkPostMerge (c : ConsensusInfo) : Except String Unit :=
  requireThat (!(c.forkId build).atLeast .Paris ||
      (c.difficulty == 0 && c.nonce.toList.all (· == 0) && c.ommersHash == kEmptyOmmersHash))
    "post-Merge header has PoW fields set (difficulty, nonce or ommers)"

-- Step 3, from the anchor on.
def checkHeader (c : ConsensusInfo) (parent : BlockHeader) : Except String Unit := do
  requireThat (parent.stateRoot == c.parentHash) "PreviousBlocks: block[0].state_root != consensus.parent_state_root"
  checkExcessBlobGas build c parent
  checkBaseFee build c parent
  checkGasLimitRange c
  checkLineage build c parent
  checkPostMerge build c

-- The requests of the fork, one blob for each type with an output.
def requestTypes (c : ConsensusInfo) : List (Fin 5) :=
  if (forkToRevision (c.forkId build)).atLeast .Prague then
    if (c.forkId build).atLeast .Amsterdam then [0, 1, 2, 3, 4] else [0, 1, 2]
  else []

def collectRequests (c : ConsensusInfo) (done : Executed) : List Bytes :=
  ((requestTypes build c).filter fun type => done.requestOutput type ≠ []).map fun type =>
    UInt8.ofNat type.val :: done.requestOutput type

def blockAccessListRlp (c : ConsensusInfo) (done : Executed) : Bytes :=
  if (c.forkId build).atLeast .Amsterdam then done.blockAccessListRlp else []

variable (p : Platform)

def readLeading (input : Bytes) : Except String (Leading × Bytes) := do
  let cursor ← readPreamble input
  let (consensus, cursor) ← readConsensusInfo build cursor
  let (transactions, cursor) ← Transactions.readSection p.keccak p.ecrecover cursor
  let (codes, cursor) ← readContracts cursor
  return (⟨consensus, transactions, codes⟩, cursor)

def requestsHash (requests : List Bytes) : Bytes32 :=
  p.sha256 (requests.flatMap fun request => (p.sha256 request).toList)

def blockAccessListHash (c : ConsensusInfo) (done : Executed) : Bytes32 :=
  if (c.forkId build).atLeast .Amsterdam then p.keccak done.blockAccessListRlp else digestOf 0

def withdrawalRecord (w : Withdrawal) : Bytes :=
  encodeList [encodeU64 w.index, encodeU64 w.validatorIndex, encode w.address.toList, encodeU64 w.amountGwei]

def transactionsRoot (txs : List View) : Bytes32 := Mpt.rootHash p.keccak (Mpt.indexed (txs.map View.envelope))

def withdrawalsRoot (withdrawals : List Withdrawal) : Bytes32 :=
  Mpt.rootHash p.keccak (Mpt.indexed (withdrawals.map withdrawalRecord))

-- Step 7': the header of the block under proof.
def blockHeader (c : ConsensusInfo) (txs : List View) (parentHash newStateRoot : Bytes32) (done : Executed) :
    BlockHeader where
  parentHash := parentHash
  ommersHash := c.ommersHash
  coinbase := c.beneficiary
  stateRoot := newStateRoot
  transactionsRoot := transactionsRoot p txs
  receiptsRoot := done.receiptsRoot
  logsBloom := done.logsBloom
  difficulty := c.difficulty
  number := c.number
  gasLimit := c.gasLimit
  gasUsed := done.gasUsed
  timestamp := c.timestamp
  extraData := c.extraData
  prevRandao := c.prevRandao
  nonce := c.nonce
  baseFeePerGas := c.baseFeePerGas
  withdrawalsRoot := withdrawalsRoot p c.withdrawals
  blobGasUsed := done.blobGasUsed
  excessBlobGas := c.excessBlobGas
  parentBeaconBlockRoot := c.parentBeaconBlockRoot
  requestsHash := requestsHash p (collectRequests build c done)
  blockAccessListHash := blockAccessListHash build p c done
  slotNumber := c.slotNumber build
  forkId := c.forkId build

def transactionsPayloadSize (txs : List View) : Nat :=
  (txs.map fun tx => if tx.type = .Legacy then tx.envelope.length else Mpt.itemSize tx.envelope.length).sum

def withdrawalsPayloadSize (withdrawals : List Withdrawal) : Nat :=
  (withdrawals.map fun w => (withdrawalRecord w).length).sum

def blockRlpSize (h : BlockHeader) (txs : List View) (withdrawals : List Withdrawal) : Nat :=
  Mpt.itemSize ((encodeBlockHeaderRlp h).length + Mpt.itemSize (transactionsPayloadSize txs) + 1 +
    Mpt.itemSize (withdrawalsPayloadSize withdrawals))

def checkBlockSize (c : ConsensusInfo) (h : BlockHeader) (txs : List View) : Except String Unit :=
  requireThat (!(c.forkId build).atLeast .Osaka || blockRlpSize h txs c.withdrawals ≤ kMaxRlpBlockSize)
    "block RLP size exceeds limit"

-- The end of execute_block: the collected requests have to be the declared ones.
def checkRequests (c : ConsensusInfo) (done : Executed) : Except String Unit :=
  requireThat (!(forkToRevision (c.forkId build)).atLeast .Prague ||
      requestsHash p (collectRequests build c done) == c.requestsHash)
    "requests_hash mismatch (invalid block requests)"

-- Steps 7 and 8, with the block executed.
def publish (lead : Leading) (parentHash : Bytes32) (state : Built) (done : Executed) : Except String Completed := do
  let newStateRoot ← calculateNewStateRoot p.keccak done.now state.root
  let header := blockHeader build p lead.consensus lead.transactions parentHash newStateRoot done
  let blockHash := computeBlockHeaderHash p.keccak header
  checkBlockSize build lead.consensus header lead.transactions
  let out ← PayloadRequest.newPayloadRequestRoot p.sha256 header blockHash lead.transactions
    lead.consensus.withdrawals (collectRequests build lead.consensus done)
    (blockAccessListRlp build lead.consensus done)
  return ⟨lead, done, header, ⟨out, blockHash⟩⟩

-- Step 4: the final section, which has to end where the input does.
def readState (c : ConsensusInfo) (cursor : Bytes) : Except String Built := do
  let state ← construct p.keccak cursor
  requireThat (state.rest == []) "run: input has trailing bytes after the final section"
  requireThat (state.oldRoot == c.parentHash) "pre-execution state root mismatch"
  return state

-- Steps 4 to 8. Of the ancestors they see the hashes.
def proceed (lead : Leading) (ancestors : PreviousBlocks) (parentHash : Bytes32) (cursor : Bytes) :
    Except String Completed := do
  let state ← readState p lead.consensus cursor
  let done ← p.execute ⟨lead, parentHash, ancestors.hashOfNumber, state⟩
  checkRequests build p lead.consensus done
  publish build p lead parentHash state done

def runBlock (input : Input) : Except String Completed := do
  let (lead, cursor) ← readLeading build p input.val
  let (ancestors, cursor) ← readPreviousBlocks p.keccak cursor
  match ancestors.views, ancestors.hashes with
  | parent :: _, parentHash :: _ =>
    checkHeader build lead.consensus parent
    proceed build p lead ancestors parentHash cursor
  | _, _ => .error "PreviousBlocks: must include at least the parent block"

def run (input : Input) : Except String Published := (runBlock build p input).map Completed.published

end

end Zeg.Run
