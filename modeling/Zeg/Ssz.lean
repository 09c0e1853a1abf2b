import Zeg.Stream

-- SSZ roots: the Merkle trees of chunks, bounded and progressive.
namespace Zeg.Ssz

open Base Zeg.Stream

abbrev Chunk := Bytes32

def kMaxDepth : Nat := 64

def zeroChunk : Chunk := List.Vector.replicate 32 0

def chunkCount (n : Nat) : Nat := (n + 31) / 32

def depthFor (n : Nat) : Nat := ((List.range kMaxDepth).find? fun d => n ≤ 2 ^ d).getD kMaxDepth

def pack (bytes : Bytes) : List Chunk :=
  (List.range (chunkCount bytes.length)).map fun i => bytesAt 32 bytes (32 * i)

def leBytes (n : Nat) (v : Nat) : Bytes := (List.range n).map fun i => UInt8.ofNat (v / 256 ^ i)

def uint64Root (v : UInt64) : Chunk := bytesAt 32 (leBytes 8 v.toNat) 0

def uint256Root (v : Word) : Chunk := bytesAt 32 (leBytes 32 v.toNat) 0

section

variable (sha256 : Bytes → Bytes32)

def hash (a b : Chunk) : Chunk := sha256 (a.toList ++ b.toList)

def zeroHash : Nat → Chunk
  | 0 => zeroChunk
  | d + 1 => hash sha256 (zeroHash d) (zeroHash d)

def mergeLevel (zero : Chunk) : List Chunk → List Chunk
  | a :: b :: rest => hash sha256 a b :: mergeLevel zero rest
  | [a] => [hash sha256 a zero]
  | [] => []

def mergeLevels : Nat → Nat → List Chunk → List Chunk
  | _, 0, level => level
  | d, n + 1, level => mergeLevels (d + 1) n (mergeLevel sha256 (zeroHash sha256 d) level)

def merkleize (chunks : List Chunk) (limit : Nat) : Except String Chunk :=
  if limit < chunks.length then .error "ssz: merkleize input exceeds limit"
  else if chunks = [] then .ok (zeroHash sha256 (depthFor limit))
  else .ok ((mergeLevels sha256 0 (depthFor limit) chunks).headD zeroChunk)

-- The roots of the subtrees of 1, 4, 16, ... leaves. A turn takes a chunk at least.
def subtrees : Nat → Nat → List Chunk → Except String (List Chunk)
  | 0, _, _ => .ok []
  | fuel + 1, width, chunks =>
    if chunks = [] then .ok []
    else do
      let root ← merkleize sha256 (chunks.take width) width
      let roots ← subtrees fuel (width * 4) (chunks.drop width)
      return root :: roots

def merkleizeProgressive (chunks : List Chunk) : Except String Chunk :=
  (subtrees sha256 chunks.length 1 chunks).map fun roots => roots.foldr (hash sha256) zeroChunk

def mixInLength (root : Chunk) (length : Nat) : Chunk := hash sha256 root (uint64Root (UInt64.ofNat length))

def mixInActiveFields (root : Chunk) (n : Nat) : Except String Chunk :=
  if n = 0 ∨ 256 < n then .error "ssz: bad active_fields count"
  else .ok (hash sha256 root (bytesAt 32 (leBytes 32 (2 ^ n - 1)) 0))

def byteVectorRoot (bytes : Bytes) : Except String Chunk := merkleize sha256 (pack bytes) (pack bytes).length

def byteListRoot (bytes : Bytes) (maxBytes : Nat) : Except String Chunk :=
  if maxBytes < bytes.length then .error "ssz: byte list exceeds limit"
  else (merkleize sha256 (pack bytes) (chunkCount maxBytes)).map fun root => mixInLength sha256 root bytes.length

def progressiveByteListRoot (bytes : Bytes) : Except String Chunk :=
  (merkleizeProgressive sha256 (pack bytes)).map fun root => mixInLength sha256 root bytes.length

end

end Zeg.Ssz
