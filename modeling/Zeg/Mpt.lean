import Zeg.Base.HexPrefix
import Zeg.RlpCodec

-- The tries whose entries are all known: transactions, receipts and withdrawals.
namespace Zeg.Mpt

open Base RlpCodec
open Base.Rlp (wrap encodeStr header)

-- The path is what is left of the key's nibbles at the builder's depth.
structure PathEntry where
  path : Path
  value : Bytes
deriving DecidableEq

def PathEntry.skip (n : Nat) (e : PathEntry) : PathEntry := { e with path := e.path.drop n }

structure Slots where
  children : Nibble → Bytes
  value : Bytes

def Slots.init : Slots := ⟨fun _ => [0x80], [0x80]⟩

def commonPrefix : Path → Path → Path
  | a :: p, b :: q => if a = b then a :: commonPrefix p q else []
  | _, _ => []

def sharedPath (entries : List PathEntry) : Path :=
  match entries.head?, entries.getLast? with
  | some first, some last => commonPrefix first.path last.path
  | _, _ => []

def buckets : List PathEntry → List (List PathEntry)
  | [] => []
  | e :: rest =>
    match buckets rest with
    | (next :: run) :: others =>
      if e.path.head? = next.path.head? then (e :: next :: run) :: others else [e] :: (next :: run) :: others
    | others => [e] :: others

def leafNode (e : PathEntry) : Bytes := wrap (encodeStr (hexPrefix e.path true) ++ encodeStr e.value)

section

variable (keccak : Bytes → Bytes32)

def nodeRef (nodeRlp : Bytes) : Bytes :=
  if nodeRlp.length < 32 then nodeRlp else encode (keccak nodeRlp).toList

def extensionNode (path : Path) (child : Bytes) : Bytes :=
  encodeList [encode (hexPrefix path false), nodeRef keccak child]

-- `build` makes the node of a child's bucket.
def place (build : List PathEntry → Bytes) (slots : Slots) (bucket : List PathEntry) : Slots :=
  match bucket.getLast? with
  | none => slots
  | some last =>
    match last.path with
    | [] => { slots with value := encode last.value }
    | k :: _ =>
      { slots with
        children := Function.update slots.children k (nodeRef keccak (build (bucket.map (PathEntry.skip 1)))) }

def branchNode (slots : Slots) : Bytes := encodeList (List.ofFn slots.children ++ [slots.value])

-- Every call consumes a nibble of each of its paths, so `fuel` is one more than their length.
def buildNode : Nat → List PathEntry → Bytes
  | 0, _ => []
  | fuel + 1, entries =>
    match entries with
    | [e] => leafNode e
    | entries =>
      let path := sharedPath entries
      if path ≠ [] then extensionNode keccak path (buildNode fuel (entries.map (PathEntry.skip path.length)))
      else branchNode ((buckets entries).foldl (place keccak (buildNode fuel)) .init)

-- The lexicographic order.
def pathLe : Path → Path → Bool
  | [], _ => true
  | _ :: _, [] => false
  | a :: p, b :: q => a.val < b.val || (a == b && pathLe p q)

def sortEntries (entries : List PathEntry) : List PathEntry := entries.mergeSort fun a b => pathLe a.path b.path

def longest (entries : List PathEntry) : Nat := (entries.map fun e => e.path.length).foldl max 0

def rootHash (entries : List (Bytes × Bytes)) : Bytes32 :=
  if entries = [] then keccak [0x80]
  else
    let sorted := sortEntries (entries.map fun e => ⟨nibblesOf e.1, e.2⟩)
    keccak (buildNode keccak (longest sorted + 1) sorted)

-- A list as a trie: its values under the encodings of their places.
def indexed (values : List Bytes) : List (Bytes × Bytes) :=
  values.mapIdx fun i value => (encodeU64 (UInt64.ofNat i), value)

end

def itemSize (payloadLen : Nat) : Nat := (header 0x80 0xb7 payloadLen).length + payloadLen

end Zeg.Mpt
