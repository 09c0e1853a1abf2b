import Mathlib.Data.Nat.Log
import Zeg.Ssz

-- The ExEx's own SSZ roots. `usize` has 64 bits.
namespace Zeg.ExEx.Ssz

open Base
open Zeg.Ssz (Chunk zeroChunk)

section

variable (sha256 : Bytes → Bytes32)

def hash (a b : Chunk) : Chunk := sha256 (a.toList ++ b.toList)

def zeroHash (depth : Nat) : Chunk := (List.range depth).foldl (fun z _ => hash sha256 z z) zeroChunk

-- From the standard library.
def nextPowerOfTwo (n : Nat) : Nat := 2 ^ Nat.clog 2 n

def trailingZeros (n : Nat) : Nat := ((List.range 64).find? fun i => n.testBit i).getD 64

def depthOf (limit : Nat) : Nat := trailingZeros (nextPowerOfTwo (max limit 1))

def pushOdd (zero : Chunk) (level : List Chunk) : List Chunk :=
  if level.length % 2 = 1 then level ++ [zero] else level

def hashPairs : List Chunk → List Chunk
  | a :: b :: rest => hash sha256 a b :: hashPairs rest
  | _ => []

def levels (depth : Nat) : Nat → Nat → List Chunk → Chunk
  | _, 0, level => level.headD zeroChunk
  | d, n + 1, level =>
    if level = [] then zeroHash sha256 depth
    else levels depth (d + 1) n (hashPairs sha256 (pushOdd (zeroHash sha256 d) level))

def merkleize (chunks : List Chunk) (limit : Nat) : Except String Chunk :=
  if max limit 1 < chunks.length then .error "merkleize: more chunks than the limit"
  else .ok (levels sha256 (depthOf limit) 0 (depthOf limit) chunks)

-- A call on no leaves would recurse on the same chunks; the first argument bounds the depth.
def merkleizeProgressive : Nat → List Chunk → UInt64 → Except String Chunk
  | 0, chunks, _ => if chunks = [] then .ok zeroChunk else .error "stack overflow"
  | fuel + 1, chunks, numLeaves =>
    if chunks = [] then .ok zeroChunk
    else do
      let n := min numLeaves.toNat chunks.length
      let first ← merkleize sha256 (chunks.take n) numLeaves.toNat
      let rest ← merkleizeProgressive fuel (chunks.drop n) (numLeaves * 4)
      return hash sha256 first rest

end

end Zeg.ExEx.Ssz
