import Zeg.StateRoot.Build

-- What every node of an accepted stream satisfies: its cached result is the fold of the original
-- values below it, and its rows hash to the path that leads to it.
namespace Zeg.StateRoot

open Base Base.Rlp Base.Patricia Zeg.Stream

variable {keccak : Bytes → Bytes32} {limits : Limits}

def Node.isChain : Node → Bool
  | .Chain _ _ _ => true
  | _ => false

def Node.Folded (keccak : Bytes → Bytes32) : Node → Path → Prop
  | .Account idx row addrHash storage cached, walked =>
    storage.Folded keccak [] ∧ storage.type ≠ .PoolHash ∧ keccak row.address.toList = addrHash ∧
    walked <+: nibblesOf addrHash.toList ∧
    ∃ root, storage.result.finalize keccak .Original = .ok root ∧
      buildAccountValue idx row ⟨(nibblesOf addrHash.toList).drop walked.length, false⟩ root = .ok cached
  | .Storage idx row posHash cached, walked =>
    keccak row.position.toList = posHash ∧ walked <+: nibblesOf posHash.toList ∧
    cached = buildSlotValue idx row ⟨(nibblesOf posHash.toList).drop walked.length, false⟩
  | .Chain run child cached, walked =>
    child.Folded keccak (walked ++ run.nibbles) ∧ child.isChain = false ∧ run.nibbles ≠ [] ∧
    chainResult run.nibbles child.result = .ok cached
  | .Branch children cached, walked =>
    (∀ k, (children k).Folded keccak (walked ++ [k])) ∧
    reduceBranch keccak .Original (fun k => (children k).type) (fun k => (children k).result) = .ok cached
  | _, _ => True

variable {nibble : Nibble}

theorem prepend_ok {path path' : PackedPath} (h : path.prepend nibble = .ok path') :
    path' = ⟨nibble :: path.nibbles, path.pad⟩ := by
  unfold PackedPath.prepend at h
  split at h
  · cases h
  · exact (Except.ok.inj h).symm

theorem one_ok (nibble : Nibble) : PackedPath.one nibble = .ok ⟨[nibble], false⟩ := rfl

variable {walked : Path} {keyHash : Bytes32}

theorem packKeyHash_ok {suffix : PackedPath} (h : packKeyHash walked suffix = .ok keyHash) :
    nibblesOf keyHash.toList = walked ++ suffix.nibbles := by
  unfold packKeyHash at h
  split at h
  · next hlen =>
    cases h
    exact nibblesOf_packNibbles _ (by omega)
  · cases h

theorem pathFromKey_ok {depth : Nat} {nib : PackedPath} (h : pathFromKey keyHash depth = .ok nib) :
    depth ≤ 64 ∧ nib = ⟨(nibblesOf keyHash.toList).drop depth, false⟩ := by
  unfold pathFromKey at h
  split at h
  · cases h
  · exact ⟨by omega, (Except.ok.inj h).symm⟩

theorem pathFromKey_prefix (h : walked <+: nibblesOf keyHash.toList) :
    pathFromKey keyHash walked.length = .ok ⟨(nibblesOf keyHash.toList).drop walked.length, false⟩ := by
  have hle := h.length_le
  rw [length_nibblesOf, List.Vector.toList_length] at hle
  exact if_neg (by omega)

def Ctx.SameRows (ctx ctx' : Ctx) : Prop := ctx'.accounts = ctx.accounts ∧ ctx'.storages = ctx.storages

variable {node : Node} {ctx ctx' : Ctx}

theorem auxEmplace_ok {node' : Node} (h : auxEmplace limits node ctx = .ok (node', ctx')) :
    node' = node ∧ ctx.SameRows ctx' := by
  unfold auxEmplace at h
  obtain ⟨_, _, h⟩ := bind_eq_ok.1 h
  cases h
  exact ⟨rfl, rfl, rfl⟩

theorem buildPhantomLeaf_ok (h : buildPhantomLeaf limits ctx = .ok (node, ctx')) :
    (node.isFixed = true ∧ node.type ≠ .PoolHash) ∧ ctx.SameRows ctx' := by
  unfold buildPhantomLeaf at h
  obtain ⟨⟨path, cursor⟩, _, h⟩ := bind_eq_ok.1 h
  obtain ⟨⟨len, cursor⟩, _, h⟩ := bind_eq_ok.1 h
  dsimp only at h
  split at h
  · cases h
  · split at h
    · cases h
    · obtain ⟨cursor, _, h⟩ := bind_eq_ok.1 h
      obtain ⟨cursor, _, h⟩ := bind_eq_ok.1 h
      obtain ⟨rfl, hrows⟩ := auxEmplace_ok h
      exact ⟨⟨rfl, nofun⟩, hrows⟩

theorem buildOp_cases {leaf branch : Ctx → Except String (Node × Ctx)}
    (h : buildOp limits leaf branch ctx = .ok (node, ctx')) :
    (∃ cursor, leaf { ctx with cursor } = .ok (node, ctx')) ∨
    (∃ cursor, branch { ctx with cursor } = .ok (node, ctx')) ∨
    ((node.isFixed = true ∧ node.type ≠ .PoolHash) ∧ ctx.SameRows ctx') := by
  unfold buildOp at h
  obtain ⟨⟨op, cursor⟩, _, h⟩ := bind_eq_ok.1 h
  dsimp only at h
  split at h
  · cases h
    exact .inr (.inr ⟨⟨rfl, nofun⟩, rfl, rfl⟩)
  · obtain ⟨⟨hash, cursor⟩, _, h⟩ := bind_eq_ok.1 h
    obtain ⟨rfl, hrows⟩ := auxEmplace_ok h
    exact .inr (.inr ⟨⟨rfl, nofun⟩, hrows⟩)
  · obtain ⟨⟨path, cursor⟩, _, h⟩ := bind_eq_ok.1 h
    obtain ⟨⟨hash, cursor⟩, _, h⟩ := bind_eq_ok.1 h
    obtain ⟨rfl, hrows⟩ := auxEmplace_ok h
    exact .inr (.inr ⟨⟨rfl, nofun⟩, hrows⟩)
  · exact .inl ⟨cursor, h⟩
  · exact .inr (.inl ⟨cursor, h⟩)
  · obtain ⟨hfixed, haccounts, hstorages⟩ := buildPhantomLeaf_ok h
    exact .inr (.inr ⟨hfixed, haccounts, hstorages⟩)
  · cases h

theorem Node.Folded.of_fixed (h : node.isFixed = true) (walked : Path) :
    node.Folded keccak walked := by
  cases node <;> trivial

theorem buildChain_folded {only : Node} (honly : only.Folded keccak (walked ++ [nibble]))
    (h : buildChain only nibble ctx = .ok (node, ctx')) :
    node.Folded keccak walked := by
  unfold buildChain at h
  split at h
  · next run child cached =>
    obtain ⟨run', hrun, h⟩ := bind_eq_ok.1 h
    obtain ⟨cached', hcached, h⟩ := bind_eq_ok.1 h
    cases h
    obtain ⟨hchild, hnot, _, hres⟩ := honly
    rw [prepend_ok hrun]
    refine ⟨?_, hnot, List.cons_ne_nil _ _, bind_eq_ok.2 ⟨cached, hres, hcached⟩⟩
    simpa using hchild
  · next hnot =>
    obtain ⟨run, hrun, h⟩ := bind_eq_ok.1 h
    obtain ⟨cached, hcached, h⟩ := bind_eq_ok.1 h
    cases h
    rw [one_ok] at hrun
    cases hrun
    refine ⟨honly, ?_, List.cons_ne_nil _ _, hcached⟩
    cases only <;> first | rfl | exact absurd rfl (hnot _ _ _)

variable {child : Nibble → Ctx → Except String (Node × Ctx)}

theorem buildSlots_folded {tags : Nat}
    (hchild : ∀ k ctx node ctx', child k ctx = .ok (node, ctx') → node.Folded keccak (walked ++ [k]))
    (slots : List Nibble) {children children' : Nibble → Node}
    (hchildren : ∀ k, (children k).Folded keccak (walked ++ [k]))
    (h : buildSlots limits child tags slots children ctx = .ok (children', ctx')) (k : Nibble) :
    (children' k).Folded keccak (walked ++ [k]) := by
  induction slots generalizing children ctx with
  | nil =>
    cases h
    exact hchildren k
  | cons j rest ih =>
    unfold buildSlots at h
    split at h
    · exact ih hchildren h
    · obtain ⟨_, _, h⟩ := bind_eq_ok.1 h
      obtain ⟨⟨hash, cursor⟩, _, h⟩ := bind_eq_ok.1 h
      refine ih (fun k => ?_) h
      split
      · trivial
      · exact hchildren k
    · obtain ⟨⟨node, ctx1⟩, hnode, h⟩ := bind_eq_ok.1 h
      obtain ⟨_, _, h⟩ := bind_eq_ok.1 h
      refine ih (fun k => ?_) h
      split
      · next heq => exact heq ▸ hchild j _ _ _ hnode
      · exact hchildren k

theorem buildBranch_folded
    (hchild : ∀ k ctx node ctx', child k ctx = .ok (node, ctx') → node.Folded keccak (walked ++ [k]))
    (h : buildBranch keccak limits child ctx = .ok (node, ctx')) :
    node.Folded keccak walked := by
  unfold buildBranch at h
  obtain ⟨⟨tags, cursor⟩, _, h⟩ := bind_eq_ok.1 h
  dsimp only at h
  split at h
  · cases h
  · obtain ⟨_, _, h⟩ := bind_eq_ok.1 h
    obtain ⟨⟨children, ctx1⟩, hslots, h⟩ := bind_eq_ok.1 h
    obtain ⟨_, _, h⟩ := bind_eq_ok.1 h
    have hempty : ∀ k, Node.Empty.Folded keccak (walked ++ [k]) := fun _ => trivial
    have hfolded := buildSlots_folded hchild _ hempty hslots
    split at h
    · exact buildChain_folded (hfolded _) h
    · obtain ⟨cached, hcached, h⟩ := bind_eq_ok.1 h
      cases h
      exact ⟨hfolded, hcached⟩

-- Whatever the leaves of a trie are, its nodes are folded when they are.
theorem buildNode_folded {leaf : Path → Ctx → Except String (Node × Ctx)}
    (hleaf : ∀ walked ctx node ctx', leaf walked ctx = .ok (node, ctx') → node.Folded keccak walked) (room : Nat)
    (h : buildNode keccak limits leaf room walked ctx = .ok (node, ctx')) : node.Folded keccak walked := by
  induction room generalizing walked ctx ctx' node with
  | zero =>
    obtain ⟨_, h⟩ | ⟨_, h⟩ | ⟨⟨hfixed, _⟩, _⟩ := buildOp_cases h
    · exact hleaf _ _ _ _ h
    · cases h
    · exact .of_fixed hfixed walked
  | succ room ih =>
    obtain ⟨_, h⟩ | ⟨_, h⟩ | ⟨⟨hfixed, _⟩, _⟩ := buildOp_cases h
    · exact hleaf _ _ _ _ h
    · exact buildBranch_folded (fun k ctx node ctx' h => ih h) h
    · exact .of_fixed hfixed walked

variable {owner : Address}

-- What reading a leaf did, once the fields are off the stream.
theorem buildStorageLeaf_ok (h : buildStorageLeaf keccak limits owner walked ctx = .ok (node, ctx')) :
    ∃ cursor idx row posHash, row.address = owner ∧ keccak row.position.toList = posHash ∧
      walked <+: nibblesOf posHash.toList ∧
      appendStorage limits row { ctx with cursor } = .ok (idx, ctx') ∧
      node = .Storage idx row posHash
        (buildSlotValue idx row ⟨(nibblesOf posHash.toList).drop walked.length, false⟩) := by
  unfold buildStorageLeaf at h
  obtain ⟨⟨suffix, cursor⟩, _, h⟩ := bind_eq_ok.1 h
  obtain ⟨⟨position, cursor⟩, _, h⟩ := bind_eq_ok.1 h
  obtain ⟨⟨value, cursor⟩, _, h⟩ := bind_eq_ok.1 h
  obtain ⟨⟨next, cursor⟩, _, h⟩ := bind_eq_ok.1 h
  obtain ⟨posHash, hkey, h⟩ := bind_eq_ok.1 h
  dsimp only at h
  split at h
  · cases h
  · next hbound =>
    obtain ⟨⟨idx, ctx1⟩, happend, h⟩ := bind_eq_ok.1 h
    obtain ⟨nib, hnib, h⟩ := bind_eq_ok.1 h
    cases h
    obtain ⟨_, rfl⟩ := pathFromKey_ok hnib
    exact ⟨cursor, idx, _, posHash, rfl, not_not.1 hbound,
      ⟨suffix.nibbles, (packKeyHash_ok hkey).symm⟩, happend, rfl⟩

theorem buildAccountLeaf_ok (h : buildAccountLeaf keccak limits walked ctx = .ok (node, ctx')) :
    ∃ cursor idx row addrHash ctx1 storage root cached, keccak row.address.toList = addrHash ∧
      walked <+: nibblesOf addrHash.toList ∧
      appendAccount limits row { ctx with cursor } = .ok (idx, ctx1) ∧
      buildNode keccak limits (buildStorageLeaf keccak limits row.address) 64 [] ctx1 = .ok (storage, ctx') ∧
      storage.result.finalize keccak .Original = .ok root ∧
      buildAccountValue idx row ⟨(nibblesOf addrHash.toList).drop walked.length, false⟩ root = .ok cached ∧
      node = .Account idx row addrHash storage cached := by
  unfold buildAccountLeaf at h
  obtain ⟨⟨suffix, cursor⟩, _, h⟩ := bind_eq_ok.1 h
  obtain ⟨⟨address, cursor⟩, _, h⟩ := bind_eq_ok.1 h
  obtain ⟨⟨balance, cursor⟩, _, h⟩ := bind_eq_ok.1 h
  obtain ⟨⟨nonce, cursor⟩, _, h⟩ := bind_eq_ok.1 h
  obtain ⟨⟨codeHash, cursor⟩, _, h⟩ := bind_eq_ok.1 h
  obtain ⟨⟨next, cursor⟩, _, h⟩ := bind_eq_ok.1 h
  obtain ⟨⟨first, cursor⟩, _, h⟩ := bind_eq_ok.1 h
  obtain ⟨addrHash, hkey, h⟩ := bind_eq_ok.1 h
  dsimp only at h
  split at h
  · cases h
  · next hbound =>
    obtain ⟨⟨idx, ctx1⟩, happend, h⟩ := bind_eq_ok.1 h
    obtain ⟨⟨storage, ctx2⟩, hstorage, h⟩ := bind_eq_ok.1 h
    obtain ⟨root, hroot, h⟩ := bind_eq_ok.1 h
    obtain ⟨nib, hnib, h⟩ := bind_eq_ok.1 h
    obtain ⟨cached, hcached, h⟩ := bind_eq_ok.1 h
    cases h
    obtain ⟨_, rfl⟩ := pathFromKey_ok hnib
    exact ⟨cursor, idx, _, addrHash, ctx1, storage, root, cached, not_not.1 hbound,
      ⟨suffix.nibbles, (packKeyHash_ok hkey).symm⟩, happend, hstorage, hroot, hcached, rfl⟩

theorem buildChain_type {only : Node} (h : buildChain only nibble ctx = .ok (node, ctx')) : node.type = .Chain := by
  unfold buildChain at h
  split at h
  · obtain ⟨_, _, h⟩ := bind_eq_ok.1 h
    obtain ⟨_, _, h⟩ := bind_eq_ok.1 h
    cases h
    rfl
  · obtain ⟨_, _, h⟩ := bind_eq_ok.1 h
    obtain ⟨_, _, h⟩ := bind_eq_ok.1 h
    cases h
    rfl

theorem buildBranch_type (h : buildBranch keccak limits child ctx = .ok (node, ctx'))
    : node.type = .Chain ∨ node.type = .Branch := by
  unfold buildBranch at h
  obtain ⟨⟨tags, cursor⟩, _, h⟩ := bind_eq_ok.1 h
  dsimp only at h
  split at h
  · cases h
  · obtain ⟨_, _, h⟩ := bind_eq_ok.1 h
    obtain ⟨⟨children, ctx1⟩, _, h⟩ := bind_eq_ok.1 h
    obtain ⟨_, _, h⟩ := bind_eq_ok.1 h
    split at h
    · exact .inl (buildChain_type h)
    · obtain ⟨cached, _, h⟩ := bind_eq_ok.1 h
      cases h
      exact .inr rfl

theorem buildNode_type {leaf : Path → Ctx → Except String (Node × Ctx)}
    (hleaf : ∀ walked ctx node ctx', leaf walked ctx = .ok (node, ctx') → node.type ≠ .PoolHash) {room : Nat}
    (h : buildNode keccak limits leaf room walked ctx = .ok (node, ctx')) : node.type ≠ .PoolHash := by
  cases room with
  | zero =>
    obtain ⟨_, h⟩ | ⟨_, h⟩ | ⟨⟨_, htype⟩, _⟩ := buildOp_cases h
    · exact hleaf _ _ _ _ h
    · cases h
    · exact htype
  | succ room =>
    obtain ⟨_, h⟩ | ⟨_, h⟩ | ⟨⟨_, htype⟩, _⟩ := buildOp_cases h
    · exact hleaf _ _ _ _ h
    · obtain hchain | hbranch := buildBranch_type h
      · simp [hchain]
      · simp [hbranch]
    · exact htype

theorem buildStorageLeaf_type (h : buildStorageLeaf keccak limits owner walked ctx = .ok (node, ctx'))
    : node.type ≠ .PoolHash := by
  obtain ⟨_, _, _, _, _, _, _, _, rfl⟩ := buildStorageLeaf_ok h
  exact nofun

theorem buildAccountLeaf_type (h : buildAccountLeaf keccak limits walked ctx = .ok (node, ctx'))
    : node.type ≠ .PoolHash := by
  obtain ⟨_, _, _, _, _, _, _, _, _, _, _, _, _, _, rfl⟩ := buildAccountLeaf_ok h
  exact nofun

theorem buildStorageLeaf_folded (h : buildStorageLeaf keccak limits owner walked ctx = .ok (node, ctx'))
    : node.Folded keccak walked := by
  obtain ⟨_, _, _, _, _, hhash, hpath, _, rfl⟩ := buildStorageLeaf_ok h
  exact ⟨hhash, hpath, rfl⟩

theorem buildAccountLeaf_folded (h : buildAccountLeaf keccak limits walked ctx = .ok (node, ctx'))
    : node.Folded keccak walked := by
  obtain ⟨_, _, _, _, _, _, root, _, hhash, hpath, _, hstorage, hroot, hcached, rfl⟩ := buildAccountLeaf_ok h
  have hfolded := buildNode_folded (fun _ _ _ _ h => buildStorageLeaf_folded h) _ hstorage
  have htype := buildNode_type (fun _ _ _ _ h => buildStorageLeaf_type h) hstorage
  exact ⟨hfolded, htype, hhash, hpath, root, hroot, hcached⟩

theorem construct_ok {stream : Bytes} {built : Built} (h : construct keccak stream = .ok built) :
    ∃ limits cursor ctx, limits.nodes < 2 ^ 32 ∧
      buildNode keccak limits (buildAccountLeaf keccak limits) 64 [] ⟨cursor, [], [], 0, 0, 0, 0⟩ =
        .ok (built.root, ctx) ∧
      built.root.result.finalize keccak .Original = .ok built.oldRoot ∧
      built.accounts = ctx.accounts ∧ built.storages = ctx.storages := by
  unfold construct at h
  obtain ⟨⟨nodes, cursor⟩, _, h⟩ := bind_eq_ok.1 h
  obtain ⟨⟨accounts, cursor⟩, _, h⟩ := bind_eq_ok.1 h
  obtain ⟨⟨storages, cursor⟩, _, h⟩ := bind_eq_ok.1 h
  obtain ⟨⟨firstSorted, cursor⟩, _, h⟩ := bind_eq_ok.1 h
  dsimp only at h
  split at h
  · cases h
  · next hnodes =>
    have hlt : nodes < 2 ^ 32 := by omega
    split at h
    · cases h
    · obtain ⟨⟨root, ctx⟩, hroot, h⟩ := bind_eq_ok.1 h
      obtain ⟨oldRoot, hold, h⟩ := bind_eq_ok.1 h
      cases h
      exact ⟨⟨nodes, accounts, storages⟩, cursor, ctx, hlt, hroot, hold, rfl, rfl⟩

theorem construct_folded {stream : Bytes} {built : Built} (h : construct keccak stream = .ok built) :
    built.root.Folded keccak [] ∧ built.root.type ≠ .PoolHash := by
  obtain ⟨limits, cursor, ctx, _, hbuild, _⟩ := construct_ok h
  exact ⟨buildNode_folded (fun _ _ _ _ h => buildAccountLeaf_folded h) _ hbuild,
    buildNode_type (fun _ _ _ _ h => buildAccountLeaf_type h) hbuild⟩

end Zeg.StateRoot
