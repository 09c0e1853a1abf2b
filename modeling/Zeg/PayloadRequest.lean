import Zeg.Consensus
import Zeg.Header
import Zeg.Ssz
import Zeg.Transactions

-- The SSZ root of the block's NewPayloadRequest, the guest's public output.
namespace Zeg.PayloadRequest

open Base RlpCodec Zeg.Stream Ssz Header Consensus
open Transactions (View)

def kMaxExtraDataBytes : Nat := 32
def kMaxBlobCommitmentsPerBlock : Nat := 4096

def addressRoot (a : Address) : Chunk := bytesAt 32 a.toList 0

def versionedHash (hashes : List Chunk) (item : Item) : Except String (List Chunk) :=
  if h : item.kind = .String ∧ item.payload.length = 32 then .ok (hashes ++ [⟨item.payload, item.length_digest h⟩])
  else .error "blob versioned hash is not 32 bytes"

def versionedHashes : List View → List Chunk → Except String (List Chunk)
  | [], hashes => .ok hashes
  | tx :: txs, hashes =>
    if tx.type ≠ .Blob then versionedHashes txs hashes
    else do
      let outer ← decodeItem tx.blobVersionedHashesRlp
      if outer.kind ≠ .List then .error "blob_versioned_hashes is not an RLP list"
      else
        let hashes ← forPayload versionedHash hashes outer.payload
        versionedHashes txs hashes

-- Field widths of the request containers, by request type.
def kRequestTypes : List (List Nat) :=
  [[48, 32, 8, 96, 8], [20, 48, 8], [20, 48, 48], [48, 32, 8, 96], [20, 48]]

section

variable (sha256 : Bytes → Bytes32)

def progressiveContainerRoot (fields : List Chunk) : Except String Chunk := do
  let root ← merkleizeProgressive sha256 fields
  mixInActiveFields sha256 root fields.length

def progressiveListRoot (elements : List Chunk) : Except String Chunk :=
  (merkleizeProgressive sha256 elements).map fun root => mixInLength sha256 root elements.length

def containerRoot (fields : List Chunk) : Except String Chunk := merkleize sha256 fields fields.length

def transactionsRoot (txs : List View) : Except String Chunk := do
  let roots ← txs.mapM fun tx => progressiveByteListRoot sha256 tx.envelope
  progressiveListRoot sha256 roots

def withdrawalRoot (w : Withdrawal) : Except String Chunk :=
  containerRoot sha256 [uint64Root w.index, uint64Root w.validatorIndex, addressRoot w.address, uint64Root w.amountGwei]

def withdrawalsRoot (withdrawals : List Withdrawal) : Except String Chunk := do
  let roots ← withdrawals.mapM (withdrawalRoot sha256)
  progressiveListRoot sha256 roots

def versionedHashesRoot (txs : List View) : Except String Chunk := do
  let hashes ← versionedHashes txs []
  if kMaxBlobCommitmentsPerBlock < hashes.length then .error "too many blob versioned hashes"
  else
    let root ← merkleize sha256 hashes kMaxBlobCommitmentsPerBlock
    return mixInLength sha256 root hashes.length

def fieldRoots : List Nat → Bytes → Except String (List Chunk)
  | [], _ => .ok []
  | width :: widths, record => do
    let root ← byteVectorRoot sha256 (record.take width)
    let roots ← fieldRoots widths (record.drop width)
    return root :: roots

def requestRoot (widths : List Nat) (record : Bytes) : Except String Chunk := do
  let fields ← fieldRoots sha256 widths record
  containerRoot sha256 fields

-- The roots of `n` records of one type.
def recordRoots (widths : List Nat) : Nat → Bytes → Except String (List Chunk)
  | 0, _ => .ok []
  | n + 1, body => do
    let root ← requestRoot sha256 widths body
    let roots ← recordRoots widths n (body.drop widths.sum)
    return root :: roots

-- One blob's list; `last` is one more than the type of the blob before, or zero.
def requestList (last : Nat) (blob : Bytes) : Except String (Nat × Chunk) :=
  match blob with
  | [] => .error "execution requests: empty request blob"
  | type :: body =>
    match kRequestTypes[type.toNat]? with
    | none => .error "execution requests: unknown or out-of-order request type"
    | some widths =>
      if type.toNat < last then .error "execution requests: unknown or out-of-order request type"
      else if body.length = 0 ∨ body.length % widths.sum ≠ 0 then
        .error "execution requests: invalid request payload length"
      else do
        let roots ← recordRoots sha256 widths (body.length / widths.sum) body
        let root ← progressiveListRoot sha256 roots
        return (type.toNat, root)

def requestLists : List Bytes → Nat → List Chunk → Except String (List Chunk)
  | [], _, lists => .ok lists
  | blob :: blobs, last, lists => do
    let (type, root) ← requestList sha256 last blob
    requestLists blobs (type + 1) (lists.set type root)

def executionRequestsRoot (requests : List Bytes) : Except String Chunk := do
  let empty ← progressiveListRoot sha256 []
  let lists ← requestLists sha256 requests 0 (List.replicate kRequestTypes.length empty)
  progressiveContainerRoot sha256 lists

def executionPayloadRoot (h : BlockHeader) (blockHash : Bytes32) (txs : List View) (withdrawals : List Withdrawal)
    (blockAccessListRlp : Bytes) : Except String Chunk := do
  let logsBloom ← byteVectorRoot sha256 h.logsBloom.toList
  let extraData ← byteListRoot sha256 h.extraData kMaxExtraDataBytes
  let transactions ← transactionsRoot sha256 txs
  let withdrawals ← withdrawalsRoot sha256 withdrawals
  let blockAccessList ← progressiveByteListRoot sha256 blockAccessListRlp
  progressiveContainerRoot sha256
    [h.parentHash, addressRoot h.coinbase, h.stateRoot, h.receiptsRoot, logsBloom, h.prevRandao,
     uint64Root h.number, uint64Root h.gasLimit, uint64Root h.gasUsed, uint64Root h.timestamp, extraData,
     uint256Root h.baseFeePerGas, blockHash, transactions, withdrawals, uint64Root h.blobGasUsed,
     uint64Root h.excessBlobGas, blockAccessList, uint64Root h.slotNumber]

def newPayloadRequestRoot (h : BlockHeader) (blockHash : Bytes32) (txs : List View) (withdrawals : List Withdrawal)
    (requests : List Bytes) (blockAccessListRlp : Bytes) : Except String Bytes32 := do
  let payload ← executionPayloadRoot sha256 h blockHash txs withdrawals blockAccessListRlp
  let hashes ← versionedHashesRoot sha256 txs
  let requests ← executionRequestsRoot sha256 requests
  progressiveContainerRoot sha256 [payload, hashes, h.parentBeaconBlockRoot, requests]

end

end Zeg.PayloadRequest
