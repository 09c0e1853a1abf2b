import Zeg.Base.Except
import Zeg.Base.HexPrefix

-- Reading the input stream: what is left of it stands for the cursor.
namespace Zeg.Stream

open Base

def requireBytes (n : Nat) (cursor : Bytes) : Except String Unit :=
  if cursor.length < n then .error "stream: fixed-field read past end of input" else .ok ()

def advanceChecked (n : Nat) (cursor : Bytes) : Except String Bytes :=
  if cursor.length < n then .error "stream: advance past end of input" else .ok (cursor.drop n)

def leNat : Bytes → Nat
  | [] => 0
  | b :: rest => b.toNat + 256 * leNat rest

def readU64 (cursor : Bytes) : Except String (Nat × Bytes) :=
  if cursor.length < 8 then .error "stream: read_u64_le past end of input"
  else .ok (leNat (cursor.take 8), cursor.drop 8)

def readVector (n : Nat) (cursor : Bytes) : Except String (List.Vector UInt8 n × Bytes) :=
  if h : n ≤ cursor.length then .ok (⟨cursor.take n, by simp [h]⟩, cursor.drop n)
  else .error "stream: fixed-field read past end of input"

def u64At (record : Bytes) (offset : Nat) : UInt64 := UInt64.ofNat (leNat ((record.drop offset).take 8))

def u32At (record : Bytes) (offset : Nat) : Nat := leNat ((record.drop offset).take 4)

def bytesAt (n : Nat) (record : Bytes) (offset : Nat) : List.Vector UInt8 n :=
  ⟨(List.range n).map fun i => record.getD (offset + i) 0, by simp⟩

def wordAt (record : Bytes) (offset : Nat) : Word := Word.ofBytes (bytesAt 32 record offset).toList

def padding (consumed : Nat) : Nat := (8 - consumed % 8) % 8

end Zeg.Stream
