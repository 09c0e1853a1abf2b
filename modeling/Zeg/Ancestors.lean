import Zeg.Header
import Zeg.Stream

-- The ancestors' records, their recomputed hashes, and the links between them.
namespace Zeg.Ancestors

open Base Zeg.Stream Fork Header

def kRecordSize : Nat := 768

-- A record's header. It carries every field of the newest fork; its own count says which are hashed.
def view (data : Bytes) : BlockHeader where
  parentHash := bytesAt 32 data 0
  ommersHash := bytesAt 32 data 32
  coinbase := bytesAt 20 data 64
  stateRoot := bytesAt 32 data 88
  transactionsRoot := bytesAt 32 data 120
  receiptsRoot := bytesAt 32 data 152
  logsBloom := bytesAt 256 data 184
  difficulty := wordAt data 440
  number := u64At data 472
  gasLimit := u64At data 480
  gasUsed := u64At data 488
  timestamp := u64At data 496
  extraData := (data.drop 512).take (u64At data 504).toNat
  prevRandao := bytesAt 32 data 544
  nonce := bytesAt 8 data 576
  baseFeePerGas := wordAt data 584
  withdrawalsRoot := bytesAt 32 data 616
  blobGasUsed := u64At data 648
  excessBlobGas := u64At data 656
  parentBeaconBlockRoot := bytesAt 32 data 664
  requestsHash := bytesAt 32 data 696
  blockAccessListHash := bytesAt 32 data 728
  slotNumber := u64At data 760
  forkId := forkFromFieldCount (u32At data 84)

structure PreviousBlocks where
  views : List BlockHeader
  hashes : List Bytes32

def readView (data : Bytes) : Except String BlockHeader :=
  if 32 < u64At data 504 then .error "PreviousBlocks: ancestor extra_data_len > 32" else .ok (view data)

def readViews : Nat → Bytes → Except String (List BlockHeader)
  | 0, _ => .ok []
  | n + 1, records => do
    let first ← readView (records.take kRecordSize)
    let rest ← readViews n (records.drop kRecordSize)
    return first :: rest

def checkChain : List BlockHeader → List Bytes32 → Except String Unit
  | child :: parent :: views, _ :: hash :: hashes =>
    if child.number ≠ parent.number + 1 then .error "PreviousBlocks: ancestor chain is not contiguous"
    else if child.parentHash ≠ hash then .error "PreviousBlocks: ancestor chain parent_hash link broken"
    else checkChain (parent :: views) (hash :: hashes)
  | _, _ => .ok ()

def readPreviousBlocks (keccak : Bytes → Bytes32) (cursor : Bytes) : Except String (PreviousBlocks × Bytes) := do
  let (count, records) ← readU64 cursor
  if records.length / kRecordSize < count then .error "PreviousBlocks: count exceeds input size"
  else if 256 < count then .error "PreviousBlocks: more than 256 ancestor records"
  else
    let views ← readViews count records
    let hashes := views.map (computeBlockHeaderHash keccak)
    let rest ← advanceChecked (count * kRecordSize) records
    checkChain views hashes
    return (⟨views, hashes⟩, rest)

def PreviousBlocks.hashOfNumber (p : PreviousBlocks) (number : UInt64) : Option Bytes32 :=
  match p.views with
  | [] => none
  | newest :: _ =>
    if newest.number < number then none
    else
      let idx := (newest.number - number).toNat
      match p.views[idx]? with
      | none => none
      | some v => if v.number ≠ number then none else p.hashes[idx]?

end Zeg.Ancestors
