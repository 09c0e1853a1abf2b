import Zeg.Base.Bytes

namespace Zeg

open Base

-- keccak256 of the empty string
def kEmptyCodeHash : Bytes32 :=
  ⟨[0xc5, 0xd2, 0x46, 0x01, 0x86, 0xf7, 0x23, 0x3c, 0x92, 0x7e, 0x7d, 0xb2, 0xdc, 0xc7, 0x03, 0xc0,
    0xe5, 0x00, 0xb6, 0x53, 0xca, 0x82, 0x27, 0x3b, 0x7b, 0xfa, 0xd8, 0x04, 0x5d, 0x85, 0xa4, 0x70],
    rfl⟩

-- keccak256 of the RLP of the empty string
def kEmptyTrieRoot : Bytes32 :=
  ⟨[0x56, 0xe8, 0x1f, 0x17, 0x1b, 0xcc, 0x55, 0xa6, 0xff, 0x83, 0x45, 0xe6, 0x92, 0xc0, 0xf8, 0x6e,
    0x5b, 0x48, 0xe0, 0x1b, 0x99, 0x6c, 0xad, 0xc0, 0x01, 0x62, 0x2f, 0xb5, 0xe3, 0x63, 0xb4, 0x21],
    rfl⟩

-- Bytes and digests written as one number.
def bytesOf (len n : Nat) : Bytes := (List.range len).map fun i => UInt8.ofNat (n / 256 ^ (len - 1 - i))

def digestOf (n : Nat) : Bytes32 := ⟨bytesOf 32 n, by simp [bytesOf]⟩

def addressOf (n : Nat) : Address := ⟨bytesOf 20 n, by simp [bytesOf]⟩

-- keccak256 where it is known: a table of strings and their digests.
def tableKeccak (table : List (Bytes × Bytes32)) (bytes : Bytes) : Bytes32 :=
  ((table.find? fun entry => entry.1 == bytes).map Prod.snd).getD (digestOf 0)

end Zeg
