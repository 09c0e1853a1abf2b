import Zeg.Base.Patricia
import Zeg.Digest

-- The node tree of the state-root section and its two folds: with the original and with the
-- current values of its rows.
namespace Zeg.StateRoot

open Base Base.Rlp Base.Patricia

-- A path packed two nibbles a byte at the end of a 34-byte buffer. `pad` marks an unused last
-- half-byte, which an odd run read from the stream leaves behind.
structure PackedPath where
  nibbles : Path
  pad : Bool

def PackedPath.prepend (nibble : Nibble) (path : PackedPath) : Except String PackedPath :=
  if path.nibbles.length + path.pad.toNat = 68 then
    .error "PackedPath: prepend past the 64-nibble capacity"
  else .ok { path with nibbles := nibble :: path.nibbles }

def PackedPath.one (nibble : Nibble) : Except String PackedPath := PackedPath.prepend nibble ⟨[], false⟩

structure Fields where
  nonce : UInt64
  balance : Word
  codeHash : Bytes32
  deriving DecidableEq

def isEmptyAccount (fields : Fields) : Bool :=
  fields.nonce == 0 && fields.balance == 0 && fields.codeHash == kEmptyCodeHash

def isZeroValue (value : Word) : Bool := value == 0

structure AccountRow where
  address : Address
  original : Fields
  nextSorted : UInt64
  firstSortedStorage : UInt64

structure StorageRow where
  address : Address
  position : Bytes32
  original : Word
  nextSorted : UInt64

-- The current values of the rows, by their place in the two tables.
structure Assignment where
  accounts : Nat → Fields
  storages : Nat → Word

-- Which values the leaf encodings read; `current` is where the source compares the set's name.
structure ValueSet where
  current : Bool
  account : Nat → AccountRow → Fields
  slot : Nat → StorageRow → Word

def ValueSet.Original : ValueSet where
  current := false
  account := fun _ row => row.original
  slot := fun _ row => row.original

def ValueSet.Current (now : Assignment) : ValueSet where
  current := true
  account := fun idx _ => now.accounts idx
  slot := fun idx _ => now.storages idx

inductive NodeR where
  | EmptyR
  | HashR (hash : Bytes32)
  | ExtR (path : PackedPath) (hash : Bytes32)
  | AccountLeafR (path : PackedPath) (idx : Nat) (row : AccountRow) (storageRoot : Bytes32)
  | StorageLeafR (path : PackedPath) (idx : Nat) (row : StorageRow)
  | PhantomLeafR (path : PackedPath) (value : Bytes)

def NodeR.isEmpty : NodeR → Bool
  | .EmptyR => true
  | _ => false

inductive NodeType where
  | Empty
  | Branch
  | Account
  | Storage
  | Hash
  | ExtensionHash
  | PhantomLeaf
  | PoolHash
  | Chain
  deriving DecidableEq

-- The node arrays as a tree: a node owns its children, its row's first values and its cached result.
inductive Node where
  | Empty
  | Hash (hash : Bytes32)
  | ExtensionHash (path : PackedPath) (hash : Bytes32)
  | PhantomLeaf (path : PackedPath) (value : Bytes)
  | PoolHash (hash : Bytes32)
  | Account (idx : Nat) (row : AccountRow) (addrHash : Bytes32) (storage : Node) (cached : NodeR)
  | Storage (idx : Nat) (row : StorageRow) (posHash : Bytes32) (cached : NodeR)
  | Chain (run : PackedPath) (child : Node) (cached : NodeR)
  | Branch (children : Nibble → Node) (cached : NodeR)

def Node.type : Node → NodeType
  | .Empty => .Empty
  | .Hash _ => .Hash
  | .ExtensionHash _ _ => .ExtensionHash
  | .PhantomLeaf _ _ => .PhantomLeaf
  | .PoolHash _ => .PoolHash
  | .Account _ _ _ _ _ => .Account
  | .Storage _ _ _ _ => .Storage
  | .Chain _ _ _ => .Chain
  | .Branch _ _ => .Branch

-- `result_ptr`, with a pooled hash read from the stream.
def Node.result : Node → NodeR
  | .Empty => .EmptyR
  | .Hash hash => .HashR hash
  | .ExtensionHash path hash => .ExtR path hash
  | .PhantomLeaf path value => .PhantomLeafR path value
  | .PoolHash hash => .HashR hash
  | .Account _ _ _ _ cached => cached
  | .Storage _ _ _ cached => cached
  | .Chain _ _ cached => cached
  | .Branch _ cached => cached

-- Nodes the new-root pass never visits.
def Node.isFixed : Node → Bool
  | .Empty | .Hash _ | .ExtensionHash _ _ | .PhantomLeaf _ _ | .PoolHash _ => true
  | _ => false

def hexPrefixOf (path : PackedPath) (leaf : Bool) : Except String Bytes :=
  if 64 < path.nibbles.length then .error "hex_prefix: path longer than 64 nibbles"
  else .ok (hexPrefix path.nibbles leaf)

def accountItem (fields : Fields) (storageRoot : Bytes32) : Item :=
  .Lst [.Str (beBytes fields.nonce.toNat), .Str (beBytes fields.balance.toNat), .Str storageRoot.toList,
    .Str fields.codeHash.toList]

def accountValue (fields : Fields) (storageRoot : Bytes32) : Bytes := encode (accountItem fields storageRoot)

def slotValue (value : Word) : Bytes := encode (.Str (beBytes value.toNat))

section

variable (keccak : Bytes → Bytes32)

def NodeR.node (which : ValueSet) : NodeR → Except String Item
  | .EmptyR => .ok (.Str [])
  | .HashR hash => .ok (.Str hash.toList)
  | .ExtR path hash => do
    let hp ← hexPrefixOf path false
    return .Lst [.Str hp, .Str hash.toList]
  | .AccountLeafR path idx row storageRoot => do
    let hp ← hexPrefixOf path true
    return .Lst [.Str hp, .Str (accountValue (which.account idx row) storageRoot)]
  | .StorageLeafR path idx row => do
    let hp ← hexPrefixOf path true
    return .Lst [.Str hp, .Str (slotValue (which.slot idx row))]
  | .PhantomLeafR path value => do
    let hp ← hexPrefixOf path true
    return .Lst [.Str hp, .Str value]

-- `emit_child_slot`.
def NodeR.slot (which : ValueSet) : NodeR → Except String Item
  | .EmptyR => .ok (.Str [])
  | .HashR hash => .ok (.Str hash.toList)
  | r => (r.node which).map (cap keccak)

def NodeR.finalize (which : ValueSet) : NodeR → Except String Bytes32
  | .EmptyR => .ok kEmptyTrieRoot
  | .HashR hash => .ok hash
  | r => (r.node which).map fun item => keccak (encode item)

def packBranch (which : ValueSet) (results : Nibble → NodeR) : Except String Bytes32 := do
  let refs ← collect 16 fun k => (results k).slot keccak which
  return keccak (encode (branchItem refs))

def countSlots (p : Nibble → Bool) : Nat := ((List.finRange 16).filter p).length

-- Only an opaque hash is ambiguous once the branch it was shown in has collapsed.
def checkOrphan (which : ValueSet) (types : Nibble → NodeType) : Except String Unit :=
  if which.current && decide (2 ≤ countSlots fun k => types k != .Empty) then
    .error "state_root: unresolved orphan sibling after branch collapse"
  else .ok ()

def reduceBranch (which : ValueSet) (types : Nibble → NodeType) (results : Nibble → NodeR) :
    Except String NodeR :=
  -- Two or more Hash children never fold.
  if 2 ≤ countSlots fun k => types k == .PoolHash then (packBranch keccak which results).map .HashR
  else
    match occupied fun k => !(results k).isEmpty with
    | .None => .ok .EmptyR
    | .One nibble =>
      match results nibble with
      | .EmptyR => (packBranch keccak which results).map .HashR
      | .HashR hash => do
        if types nibble == .PoolHash || types nibble == .Hash then checkOrphan which types
        let one ← PackedPath.one nibble
        return .ExtR one hash
      | .ExtR path hash => do
        let path ← path.prepend nibble
        return .ExtR path hash
      | .AccountLeafR path idx row storageRoot => do
        let path ← path.prepend nibble
        return .AccountLeafR path idx row storageRoot
      | .StorageLeafR path idx row => do
        let path ← path.prepend nibble
        return .StorageLeafR path idx row
      | .PhantomLeafR path value => do
        let path ← path.prepend nibble
        return .PhantomLeafR path value
    | .Many => (packBranch keccak which results).map .HashR

def foldNibble (nibble : Nibble) : NodeR → Except String NodeR
  | .EmptyR => .ok .EmptyR
  | .HashR hash => (PackedPath.one nibble).map fun one => .ExtR one hash
  | .ExtR path hash => (path.prepend nibble).map fun path => .ExtR path hash
  | .AccountLeafR path idx row storageRoot =>
    (path.prepend nibble).map fun path => .AccountLeafR path idx row storageRoot
  | .StorageLeafR path idx row => (path.prepend nibble).map fun path => .StorageLeafR path idx row
  | .PhantomLeafR path value => (path.prepend nibble).map fun path => .PhantomLeafR path value

def chainResult : Path → NodeR → Except String NodeR
  | [], r => .ok r
  | nibble :: run, r => do
    let inner ← chainResult run r
    foldNibble nibble inner

def pathFromKey (keyHash : Bytes32) (depth : Nat) : Except String PackedPath :=
  if 64 < depth then .error "path_from_key: trie depth beyond the 64-nibble key"
  else .ok ⟨(nibblesOf keyHash.toList).drop depth, false⟩

-- `Accounts::update_value` and `Storages::update_value`.
def updateAccount (now : Assignment) (idx : Nat) (row : AccountRow) (nib : PackedPath)
    (storageRoot : Bytes32) : NodeR :=
  if isEmptyAccount (now.accounts idx) then .EmptyR else .AccountLeafR nib idx row storageRoot

def updateSlot (now : Assignment) (idx : Nat) (row : StorageRow) (nib : PackedPath) : NodeR :=
  if isZeroValue (now.storages idx) then .EmptyR else .StorageLeafR nib idx row

def evalNode (now : Assignment) : Node → Nat → Except String (NodeR × Bool)
  | .Empty, _ => .ok (.EmptyR, true)
  | .Hash hash, _ => .ok (.HashR hash, true)
  | .ExtensionHash path hash, _ => .ok (.ExtR path hash, true)
  | .PhantomLeaf path value, _ => .ok (.PhantomLeafR path value, true)
  | .PoolHash _, _ => .error "state_root: invalid node type"
  | .Account idx row addrHash storage _, depth => do
    let (result, storageRo) ← evalNode now storage 0
    let storageRoot ← result.finalize keccak (.Current now)
    let nib ← pathFromKey addrHash depth
    return (updateAccount now idx row nib storageRoot,
      decide (row.original = now.accounts idx) && storageRo)
  | .Storage idx row posHash _, depth => do
    let nib ← pathFromKey posHash depth
    return (updateSlot now idx row nib, decide (row.original = now.storages idx))
  | .Chain run child cached, depth =>
    if child.isFixed then .ok (cached, true)
    else do
      let (result, ro) ← evalNode now child (depth + run.nibbles.length)
      if ro then return (cached, true)
      else
        let result ← chainResult run.nibbles result
        return (result, false)
  | .Branch children cached, depth => do
    let results ← collect 16 fun k =>
      if (children k).isFixed then .ok ((children k).result, true)
      else evalNode now (children k) (depth + 1)
    if (List.finRange 16).all fun k => (results k).2 then return (cached, true)
    else
      let result ← reduceBranch keccak (.Current now) (fun k => (children k).type) fun k => (results k).1
      return (result, false)

def calculateNewStateRoot (now : Assignment) (root : Node) : Except String Bytes32 := do
  let (result, _) ← evalNode keccak now root 0
  result.finalize keccak (.Current now)

end

end Zeg.StateRoot
