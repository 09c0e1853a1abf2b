import Zeg.Fork
import Zeg.RlpCodec

-- Block headers and their hashes.
namespace Zeg.Header

open Base RlpCodec Fork

@[ext]
structure BlockHeader where
  parentHash : Bytes32
  ommersHash : Bytes32
  coinbase : Address
  stateRoot : Bytes32
  transactionsRoot : Bytes32
  receiptsRoot : Bytes32
  logsBloom : List.Vector UInt8 256
  difficulty : Word
  number : UInt64
  gasLimit : UInt64
  gasUsed : UInt64
  timestamp : UInt64
  extraData : Bytes
  prevRandao : Bytes32
  nonce : List.Vector UInt8 8
  baseFeePerGas : Word
  withdrawalsRoot : Bytes32
  blobGasUsed : UInt64
  excessBlobGas : UInt64
  parentBeaconBlockRoot : Bytes32
  requestsHash : Bytes32
  blockAccessListHash : Bytes32
  slotNumber : UInt64
  forkId : ForkId
deriving DecidableEq

def headerFields (h : BlockHeader) : List Bytes :=
  [encode h.parentHash.toList, encode h.ommersHash.toList, encode h.coinbase.toList, encode h.stateRoot.toList,
   encode h.transactionsRoot.toList, encode h.receiptsRoot.toList, encode h.logsBloom.toList,
   encodeU256 h.difficulty, encodeU64 h.number, encodeU64 h.gasLimit, encodeU64 h.gasUsed, encodeU64 h.timestamp,
   encode h.extraData, encode h.prevRandao.toList, encode h.nonce.toList]

def forkFields (h : BlockHeader) (fieldCount : Nat) : List Bytes :=
  (if 16 ≤ fieldCount then [encodeU256 h.baseFeePerGas] else []) ++
  (if 17 ≤ fieldCount then [encode h.withdrawalsRoot.toList] else []) ++
  (if 20 ≤ fieldCount then
    [encodeU64 h.blobGasUsed, encodeU64 h.excessBlobGas, encode h.parentBeaconBlockRoot.toList] else []) ++
  (if 21 ≤ fieldCount then [encode h.requestsHash.toList] else []) ++
  (if 23 ≤ fieldCount then [encode h.blockAccessListHash.toList, encodeU64 h.slotNumber] else [])

def encodeBlockHeaderRlp (h : BlockHeader) : Bytes :=
  encodeListPayload (headerFields h ++ forkFields h (forkFieldCount h.forkId)).flatten

def computeBlockHeaderHash (keccak : Bytes → Bytes32) (h : BlockHeader) : Bytes32 :=
  keccak (encodeBlockHeaderRlp h)

end Zeg.Header
