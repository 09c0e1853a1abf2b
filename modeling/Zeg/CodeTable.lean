import Zeg.AccessList
import Zeg.Digest
import Mathlib.Logic.Function.Basic

-- The run-time code table, with the code-hash column of the accounts and its access-list
-- record, over the transactions of a block.
namespace Zeg.CodeTable

open Base AccessList

-- The memory an entry's code pointer points into.
inductive Home where
  | Input
  | Arena
  | Heap
  | Null
deriving DecidableEq, Repr

structure Contract where
  hash : Bytes32
  code : Bytes
  home : Home
  analysis : Option Nat
  staged : Bool
deriving DecidableEq

structure Staged where
  contract : Nat
  owner : Nat
deriving DecidableEq

-- Positions in `contracts` are the stable addresses of the deque's elements.
structure Contracts where
  contracts : List Contract
  index : Bytes32 → Option Nat
  staged : List Staged

def Contracts.has (t : Contracts) (hash : Bytes32) : Bool := (t.index hash).isSome

-- `none` is the fatal stop of index_of
def Contracts.byHash (t : Contracts) (hash : Bytes32) : Option Contract :=
  (t.index hash).bind fun i => t.contracts[i]?

-- push_back with emplace: a hash already present keeps its first position
def Contracts.load (t : Contracts) (hash : Bytes32) (code : Bytes) : Contracts :=
  { t with
    contracts := t.contracts ++ [⟨hash, code, .Input, none, false⟩]
    index := if t.has hash then t.index
      else Function.update t.index hash (some t.contracts.length) }

-- The constructor, over the codes of the input stream.
def Contracts.ofInput (keccak : Bytes → Bytes32) (codes : List Bytes) : Contracts :=
  codes.foldl (fun t code => t.load (keccak code) code) ⟨[], fun _ => none, []⟩

def Contracts.insert (t : Contracts) (hash : Bytes32) (code : Bytes) (owner : Nat) : Contracts :=
  match t.index hash with
  | some i =>
    match t.contracts[i]? with
    | some c => if c.staged then { t with staged := t.staged ++ [⟨i, owner⟩] } else t
    | none => t
  | none =>
    { contracts := t.contracts ++ [⟨hash, code, .Arena, none, true⟩]
      index := Function.update t.index hash (some t.contracts.length)
      staged := t.staged ++ [⟨t.contracts.length, owner⟩] }

def Contract.keep (c : Contract) : Contract := { c with home := .Heap, staged := false }

def Contract.forget (c : Contract) : Contract :=
  { c with code := [], home := .Null, staged := false }

-- Body of settle_staged's first loop.
def keepStaged (codeHashAt : Nat → Bytes32) (cs : List Contract) (s : Staged) : List Contract :=
  match cs[s.contract]? with
  | some c => if c.staged ∧ codeHashAt s.owner = c.hash then cs.set s.contract c.keep else cs
  | none => cs

-- Body of its second loop.
def forgetStaged (t : Contracts) (s : Staged) : Contracts :=
  match t.contracts[s.contract]? with
  | some c =>
    if c.staged then
      { t with
        contracts := t.contracts.set s.contract c.forget
        index := Function.update t.index c.hash none }
    else t
  | none => t

def Contracts.settleStaged (t : Contracts) (codeHashAt : Nat → Bytes32) : Contracts :=
  let kept := { t with contracts := t.staged.foldl (keepStaged codeHashAt) t.contracts }
  { t.staged.foldl forgetStaged kept with staged := [] }

def Contracts.setAnalysis (t : Contracts) (i : Nat) (analysis : Option Nat) : Contracts :=
  { t with contracts := t.contracts.modify i fun c => { c with analysis := analysis } }

-- Where a row's current code hash comes from: the block's pre-state, a write on its
-- own, or a write made together with the insert of that code for that row.
inductive Origin where
  | Initial
  | Bare
  | Installed (code : Bytes)
deriving DecidableEq

structure Cell where
  hash : Bytes32
  origin : Origin
deriving DecidableEq

-- `journal` holds the row and the old cell of each logged write, newest first.
structure Block where
  table : Contracts
  rows : Nat → Cell
  journal : List (Nat × Cell)
  index : Nat
  code : Nat → Track Bytes32

def Block.start (table : Contracts) (hashes : Nat → Bytes32) : Block :=
  { table := table, rows := fun r => ⟨hashes r, .Initial⟩, journal := [], index := 0
    code := fun r => Track.init (hashes r) }

inductive Op where
  | Insert (code : Bytes) (owner : Nat)
  | Install (code : Bytes) (owner : Nat) (logged : Bool)
  | SetCodeHash (row : Nat) (hash : Bytes32) (logged : Bool)
  | OpenAccount (row : Nat)
  | Rollback (length : Nat)
  | SetAnalysis (entry : Nat) (analysis : Option Nat)
deriving DecidableEq

structure Tx where
  ops : List Op
  next : Nat
deriving DecidableEq

-- bal_before_write of the account setters
def Block.beforeWrite (b : Block) (row : Nat) : Block :=
  { b with code := Function.update b.code row ((b.code row).openAt b.index (b.rows row).hash) }

-- Accounts::set_code_hash_at
def Block.write (b : Block) (row : Nat) (cell : Cell) : Block :=
  { b.beforeWrite row with rows := Function.update b.rows row cell }

def Block.log (b : Block) (row : Nat) (logged : Bool) : Block :=
  { b with journal := if logged then (row, b.rows row) :: b.journal else b.journal }

def Block.insert (keccak : Bytes → Bytes32) (b : Block) (code : Bytes) (owner : Nat) : Block :=
  { b with table := b.table.insert (keccak code) code owner }

-- Pops and undoes the newest entries until `length` are left.
def Block.undo (b : Block) (length : Nat) : List (Nat × Cell) → Block
  | [] => { b with journal := [] }
  | (row, cell) :: older =>
    if older.length < length then { b with journal := (row, cell) :: older }
    else (b.write row cell).undo length older

def Block.step (keccak : Bytes → Bytes32) (b : Block) : Op → Block
  | .Insert code owner => b.insert keccak code owner
  | .Install code owner logged =>
    ((b.insert keccak code owner).log owner logged).write owner ⟨keccak code, .Installed code⟩
  | .SetCodeHash row hash logged => (b.log row logged).write row ⟨hash, .Bare⟩
  | .OpenAccount row => b.beforeWrite row
  | .Rollback length => b.undo length b.journal
  | .SetAnalysis entry analysis => { b with table := b.table.setAnalysis entry analysis }

def Block.runOps (keccak : Bytes → Bytes32) (b : Block) (ops : List Op) : Block :=
  ops.foldl (Block.step keccak) b

-- reset_tx_arena: settles the staged code against the rows and releases the journal.
def Block.endTx (b : Block) (next : Nat) : Block :=
  { b with
    table := b.table.settleStaged fun row => (b.rows row).hash
    journal := []
    index := next }

def Block.runTx (keccak : Bytes → Bytes32) (b : Block) (tx : Tx) : Block :=
  (b.runOps keccak tx.ops).endTx tx.next

def Block.run (keccak : Bytes → Bytes32) (b : Block) (txs : List Tx) : Block :=
  txs.foldl (Block.runTx keccak) b

def Block.codeChanges (b : Block) (row : Nat) : List (Nat × Bytes32) :=
  ((b.code row).close (b.rows row).hash).changes

end Zeg.CodeTable
