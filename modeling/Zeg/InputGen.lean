import Zeg.StateRoot
import Zeg.Stream
import Mathlib.Data.List.Sort

-- The input generator's side of the state-root section: the revealed trie and its opcode stream.
namespace Zeg.InputGen

open Base StateRoot Zeg.Stream

-- `NO_LINK` ends a sorted-order list.
def noLink : Nat := 2 ^ 64 - 1

def putU64 (n : Nat) : Bytes := (List.range 8).map fun i => UInt8.ofNat (n / 256 ^ i)

def putNibbles (path : Path) : Bytes :=
  putU64 path.length ++ packNibbles path ++ List.replicate (padding (packNibbles path).length) 0

-- The trie as far as the witness reveals it. Leaves carry their remaining path; a leaf whose key has
-- no preimage is a phantom.
inductive Tree where
  | Empty
  | Hash (hash : Bytes32)
  | Branch (children : Nibble → Tree)
  | Account (path : Path) (addr : Address) (fields : Fields) (storage : Tree)
  | Slot (path : Path) (slot : Bytes32) (value : Word)
  | Phantom (path : Path) (value : Bytes)

-- Sorted-order links by row index.
structure Links where
  firstAccount : Nat
  nextAccount : List Nat
  firstStorage : List Nat
  nextStorage : List Nat

structure Encoder where
  nNodes : Nat
  nextAccount : Nat
  nextStorage : Nat

def tagOf : Tree → Nat
  | .Empty => 0
  | .Hash _ => 1
  | _ => 2

def tagWord (children : Nibble → Tree) : Nat :=
  (List.finRange 16).foldl (fun tags k => tags + tagOf (children k) * 4 ^ k.val) 0

def putFields (addr : Address) (fields : Fields) : Bytes :=
  addr.toList ++ List.replicate 4 0 ++ Word.toBytes fields.balance ++ putU64 fields.nonce.toNat ++
    fields.codeHash.toList

-- A tagged child writes no opcode when its parent's tag word says what it is.
def emit (links : Links) : Tree → Bool → Encoder → Bytes × Encoder
  | .Empty, tagged, enc => (if tagged then [] else putU64 0, { enc with nNodes := enc.nNodes + 1 })
  | .Hash hash, tagged, enc =>
    ((if tagged then [] else putU64 1) ++ hash.toList, { enc with nNodes := enc.nNodes + 1 })
  | .Branch children, _, enc =>
    let (out, enc) := (List.finRange 16).foldl
      (fun (out, enc) k =>
        let (bytes, enc) := emit links (children k) true enc
        (out ++ bytes, enc))
      ([], { enc with nNodes := enc.nNodes + 1 })
    (putU64 4 ++ putU64 (tagWord children) ++ out, enc)
  | .Account path addr fields storage, _, enc =>
    let (out, enc') := emit links storage false
      { enc with nNodes := enc.nNodes + 1, nextAccount := enc.nextAccount + 1 }
    (putU64 3 ++ putNibbles path ++ putFields addr fields ++
      putU64 (links.nextAccount.getD enc.nextAccount noLink) ++
      putU64 (links.firstStorage.getD enc.nextAccount noLink) ++ out, enc')
  | .Slot path slot value, _, enc =>
    (putU64 3 ++ putNibbles path ++ slot.toList ++ Word.toBytes value ++
      putU64 (links.nextStorage.getD enc.nextStorage noLink),
      { enc with nNodes := enc.nNodes + 1, nextStorage := enc.nextStorage + 1 })
  | .Phantom path value, _, enc =>
    (putU64 5 ++ putNibbles path ++ putU64 value.length ++ value ++
      List.replicate (padding value.length) 0,
      { enc with nNodes := enc.nNodes + 1 })

-- The keyed rows in walk order: each account with its slots, which are numbered globally.
structure Rows where
  accounts : List (Address × List (Bytes32 × Nat))
  nStorages : Nat

def collectRows : Tree → Option Nat → Rows → Rows
  | .Branch children, owner, rows =>
    (List.finRange 16).foldl (fun rows k => collectRows (children k) owner rows) rows
  | .Account _ addr _ storage, _, rows =>
    collectRows storage (some rows.accounts.length) { rows with accounts := rows.accounts ++ [(addr, [])] }
  | .Slot _ slot _, owner, rows =>
    { accounts := rows.accounts.modify (owner.getD 0) fun (addr, slots) => (addr, slots ++ [(slot, rows.nStorages)]),
      nStorages := rows.nStorages + 1 }
  | _, _, rows => rows

-- Bytes compare as in `memcmp`.
def bytesLe : Bytes → Bytes → Bool
  | [], _ => true
  | _ :: _, [] => false
  | a :: as, b :: bs => a.toNat < b.toNat || (a == b && bytesLe as bs)

-- `next[order[i]] = order[i + 1]`, nothing after the last.
def linkPairs (next : List Nat) : List Nat → List Nat
  | a :: b :: rest => linkPairs (next.set a b) (b :: rest)
  | _ => next

def Links.new (rows : Rows) : Links :=
  let n := rows.accounts.length
  let order := (List.range n).insertionSort fun a b =>
    bytesLe ((rows.accounts[a]?.map fun r => r.1.toList).getD [])
      ((rows.accounts[b]?.map fun r => r.1.toList).getD [])
  let sorted := rows.accounts.map fun (_, slots) =>
    (slots.insertionSort fun a b => bytesLe a.1.toList b.1.toList).map Prod.snd
  { firstAccount := order.head?.getD noLink
    nextAccount := linkPairs (List.replicate n noLink) order
    firstStorage := sorted.map fun slots => slots.head?.getD noLink
    nextStorage := sorted.foldl linkPairs (List.replicate rows.nStorages noLink) }

def writeSection (root : Tree) : Bytes :=
  let rows := collectRows root none ⟨[], 0⟩
  let links := Links.new rows
  let (out, enc) := emit links root false ⟨0, 0, 0⟩
  putU64 enc.nNodes ++ putU64 rows.accounts.length ++ putU64 rows.nStorages ++ putU64 links.firstAccount ++ out

end Zeg.InputGen
