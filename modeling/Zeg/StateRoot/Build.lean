import Zeg.StateRoot
import Zeg.Stream

-- The old-root pass: the section's stream read into the node tree and the two row tables.
namespace Zeg.StateRoot

open Base Base.Rlp Base.Patricia Zeg.Stream

-- The section header.
structure Limits where
  nodes : Nat
  accounts : Nat
  storages : Nat

structure Ctx where
  cursor : Bytes
  accounts : List AccountRow
  storages : List StorageRow
  branchN : Nat
  auxN : Nat
  chainN : Nat
  poolN : Nat

def readNibbles (cursor : Bytes) : Except String (PackedPath × Bytes) := do
  let (n, cursor) ← readU64 cursor
  if 64 < n then .error "state_root: nibble run longer than a 64-nibble key"
  else
    requireBytes ((n + 1) / 2) cursor
    let path : PackedPath := ⟨(nibblesOf (cursor.take ((n + 1) / 2))).take n, n % 2 == 1⟩
    let cursor ← advanceChecked (((n + 1) / 2 + 7) / 8 * 8) cursor
    return (path, cursor)

def packKeyHash (walked : Path) (suffix : PackedPath) : Except String Bytes32 :=
  if h : (walked ++ suffix.nibbles).length = 64 then
    .ok ⟨packNibbles (walked ++ suffix.nibbles), by rw [length_packNibbles, h]⟩
  else .error "state_root: leaf key path is not 64 nibbles"

def readWord (cursor : Bytes) : Except String (Word × Bytes) :=
  (readVector 32 cursor).map fun (bytes, cursor) => (Word.ofBytes bytes.toList, cursor)

def readAddress (cursor : Bytes) : Except String (Address × Bytes) := do
  requireBytes 24 cursor
  let (address, cursor) ← readVector 20 cursor
  return (address, cursor.drop 4)

section

variable (keccak : Bytes → Bytes32) (limits : Limits)

def checkLimit (ctx : Ctx) : Except String Unit :=
  if limits.nodes ≤ ctx.branchN + ctx.auxN + ctx.chainN + ctx.poolN then
    .error "state_root: more nodes than declared (numberOfNodes overflow)"
  else .ok ()

def auxEmplace (node : Node) (ctx : Ctx) : Except String (Node × Ctx) := do
  checkLimit limits ctx
  return (node, { ctx with auxN := ctx.auxN + 1 })

def appendAccount (row : AccountRow) (ctx : Ctx) : Except String (Nat × Ctx) :=
  if limits.accounts ≤ ctx.accounts.length then
    .error "Accounts::append: more rows than reserve() allowed (numberOfAccounts overflow)"
  else .ok (ctx.accounts.length, { ctx with accounts := ctx.accounts ++ [row] })

def appendStorage (row : StorageRow) (ctx : Ctx) : Except String (Nat × Ctx) :=
  if limits.storages ≤ ctx.storages.length then
    .error "Storages::append: more rows than reserve() allowed (numberOfStorages overflow)"
  else .ok (ctx.storages.length, { ctx with storages := ctx.storages ++ [row] })

-- `Accounts::build_value` and `Storages::build_value`. Slots below an account without fields would
-- never reach the root, so such an account has to have none.
def buildAccountValue (idx : Nat) (row : AccountRow) (nib : PackedPath) (storageRoot : Bytes32) :
    Except String NodeR :=
  if isEmptyAccount row.original then
    if storageRoot == kEmptyTrieRoot then .ok .EmptyR
    else .error "state_root: empty account with non-empty storage (EIP-7610) unsupported"
  else .ok (.AccountLeafR nib idx row storageRoot)

def buildSlotValue (idx : Nat) (row : StorageRow) (nib : PackedPath) : NodeR :=
  if isZeroValue row.original then .EmptyR else .StorageLeafR nib idx row

def buildPhantomLeaf (ctx : Ctx) : Except String (Node × Ctx) := do
  let (path, cursor) ← readNibbles ctx.cursor
  let (len, cursor) ← readU64 cursor
  if 128 < len then .error "state_root: phantom leaf value exceeds the trie-leaf bound"
  else if cursor.length < len then .error "state_root: phantom leaf value past end of input"
  else
    let value := cursor.take len
    let cursor ← advanceChecked len cursor
    let cursor ← advanceChecked (padding len) cursor
    auxEmplace limits (.PhantomLeaf path value) { ctx with cursor }

-- A branch with one child: the chain the child already is grows, or one starts over it.
def buildChain (only : Node) (nibble : Nibble) (ctx : Ctx) : Except String (Node × Ctx) :=
  match only with
  | .Chain run child cached => do
    let run ← run.prepend nibble
    let cached ← foldNibble nibble cached
    return (.Chain run child cached, ctx)
  | only => do
    let run ← PackedPath.one nibble
    let cached ← chainResult run.nibbles only.result
    return (.Chain run only cached, { ctx with chainN := ctx.chainN + 1 })

def childTag (tags : Nat) (k : Nibble) : Nat := tags / 4 ^ k.val % 4

def checkRoom (hashes : Nat) (cursor : Bytes) : Except String Unit :=
  if cursor.length < 32 * hashes then .error "stream: advance past end of input" else .ok ()

-- The declared children in slot order. A pooled hash stays in the stream; here it is read out.
def buildSlots (child : Nibble → Ctx → Except String (Node × Ctx)) (tags : Nat) :
    List Nibble → (Nibble → Node) → Ctx → Except String ((Nibble → Node) × Ctx)
  | [], children, ctx => .ok (children, ctx)
  | k :: rest, children, ctx =>
    match childTag tags k with
    | 0 => buildSlots child tags rest children ctx
    | 1 => do
      checkLimit limits ctx
      let (hash, cursor) ← readVector 32 ctx.cursor
      buildSlots child tags rest (fun j => if j = k then .PoolHash hash else children j)
        { ctx with cursor, poolN := ctx.poolN + 1 }
    | _ => do
      let (node, ctx) ← child k ctx
      checkRoom (rest.filter fun j => childTag tags j == 1).length ctx.cursor
      buildSlots child tags rest (fun j => if j = k then node else children j) ctx

def buildBranch (child : Nibble → Ctx → Except String (Node × Ctx)) (ctx : Ctx) :
    Except String (Node × Ctx) := do
  let (tags, cursor) ← readU64 ctx.cursor
  if (List.finRange 16).any fun k => childTag tags k == 3 then
    .error "state_root: invalid branch child tag"
  else
    checkRoom (countSlots fun k => childTag tags k == 1) cursor
    let (children, ctx) ← buildSlots limits child tags (List.finRange 16) (fun _ => .Empty) { ctx with cursor }
    checkLimit limits ctx
    match occupied fun k => childTag tags k != 0 with
    | .One k => buildChain (children k) k ctx
    | _ => do
      let cached ← reduceBranch keccak .Original (fun k => (children k).type) fun k => (children k).result
      return (.Branch children cached, { ctx with branchN := ctx.branchN + 1 })

-- One node of the stream; `branch` reads what follows a Branch opcode.
def buildOp (leaf branch : Ctx → Except String (Node × Ctx)) (ctx : Ctx) : Except String (Node × Ctx) := do
  let (op, cursor) ← readU64 ctx.cursor
  let ctx := { ctx with cursor }
  match op with
  | 0 => return (.Empty, ctx)
  | 1 => do
    let (hash, cursor) ← readVector 32 cursor
    auxEmplace limits (.Hash hash) { ctx with cursor }
  | 2 => do
    let (path, cursor) ← readNibbles cursor
    let (hash, cursor) ← readVector 32 cursor
    auxEmplace limits (.ExtensionHash path hash) { ctx with cursor }
  | 3 => leaf ctx
  | 4 => branch ctx
  | 5 => buildPhantomLeaf limits ctx
  | _ => .error "state_root: invalid opcode in stream"

-- `room` is what the 64-nibble walk has left.
def buildNode (leaf : Path → Ctx → Except String (Node × Ctx)) :
    Nat → Path → Ctx → Except String (Node × Ctx)
  | 0, walked =>
    buildOp limits (leaf walked) fun _ => .error "state_root: trie path deeper than 64 nibbles"
  | room + 1, walked =>
    buildOp limits (leaf walked) <| buildBranch keccak limits fun k => buildNode leaf room (walked ++ [k])

def buildStorageLeaf (owner : Address) (walked : Path) (ctx : Ctx) : Except String (Node × Ctx) := do
  let (suffix, cursor) ← readNibbles ctx.cursor
  let (position, cursor) ← readVector 32 cursor
  let (value, cursor) ← readWord cursor
  let (nextSorted, cursor) ← readU64 cursor
  let posHash ← packKeyHash walked suffix
  if keccak position.toList ≠ posHash then .error "state_root: keccak(position) != leaf path hash"
  else
    let row : StorageRow := ⟨owner, position, value, UInt64.ofNat nextSorted⟩
    let (idx, ctx) ← appendStorage limits row { ctx with cursor }
    let nib ← pathFromKey posHash walked.length
    return (.Storage idx row posHash (buildSlotValue idx row nib), ctx)

def buildAccountLeaf (walked : Path) (ctx : Ctx) : Except String (Node × Ctx) := do
  let (suffix, cursor) ← readNibbles ctx.cursor
  let (address, cursor) ← readAddress cursor
  let (balance, cursor) ← readWord cursor
  let (nonce, cursor) ← readU64 cursor
  let (codeHash, cursor) ← readVector 32 cursor
  let (nextSorted, cursor) ← readU64 cursor
  let (firstSortedStorage, cursor) ← readU64 cursor
  let addrHash ← packKeyHash walked suffix
  if keccak address.toList ≠ addrHash then .error "state_root: keccak(address) != leaf path hash"
  else
    let row : AccountRow :=
      ⟨address, ⟨UInt64.ofNat nonce, balance, codeHash⟩, UInt64.ofNat nextSorted,
        UInt64.ofNat firstSortedStorage⟩
    let (idx, ctx) ← appendAccount limits row { ctx with cursor }
    let (storage, ctx) ← buildNode keccak limits (buildStorageLeaf keccak limits address) 64 [] ctx
    let storageRoot ← storage.result.finalize keccak .Original
    let nib ← pathFromKey addrHash walked.length
    let cached ← buildAccountValue idx row nib storageRoot
    return (.Account idx row addrHash storage cached, ctx)

end

-- What the constructor leaves behind.
structure Built where
  root : Node
  oldRoot : Bytes32
  accounts : List AccountRow
  storages : List StorageRow
  firstSorted : UInt64
  rest : Bytes

def construct (keccak : Bytes → Bytes32) (stream : Bytes) : Except String Built := do
  let (nodes, cursor) ← readU64 stream
  let (accounts, cursor) ← readU64 cursor
  let (storages, cursor) ← readU64 cursor
  let (firstSorted, cursor) ← readU64 cursor
  if 2 ^ 32 - 1 < nodes then .error "state_root: numberOfNodes beyond 32-bit node indices"
  else if 2 ^ 32 - 1 < cursor.length / 8 then .error "state_root: witness beyond 32-bit stream offsets"
  else
    let limits : Limits := ⟨nodes, accounts, storages⟩
    let (root, ctx) ← buildNode keccak limits (buildAccountLeaf keccak limits) 64 []
      ⟨cursor, [], [], 0, 0, 0, 0⟩
    let oldRoot ← root.result.finalize keccak .Original
    return ⟨root, oldRoot, ctx.accounts, ctx.storages, UInt64.ofNat firstSorted, ctx.cursor⟩

end Zeg.StateRoot
