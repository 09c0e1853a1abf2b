import Zeg.Base.Grows
import Zeg.StateRoot.Folded

-- The row tables and the leaves: every row of the tables is the row of one leaf, by its place.
namespace Zeg.StateRoot

open Base Base.Rlp Base.Patricia Zeg.Stream List

variable {keccak : Bytes → Bytes32} {limits : Limits}

def Node.HasAccount (i : Nat) (row : AccountRow) : Node → Prop
  | .Account idx r _ _ _ => idx = i ∧ r = row
  | .Chain _ child _ => child.HasAccount i row
  | .Branch children _ => ∃ k, (children k).HasAccount i row
  | _ => False

def Node.HasSlot (i : Nat) (row : StorageRow) : Node → Prop
  | .Account _ _ _ storage _ => storage.HasSlot i row
  | .Storage idx r _ _ => idx = i ∧ r = row
  | .Chain _ child _ => child.HasSlot i row
  | .Branch children _ => ∃ k, (children k).HasSlot i row
  | _ => False

-- A property of the leaves' rows, carried through the inner nodes.
structure Gathers {α : Type} (P : Node → Nat → α → Prop) : Prop where
  fixed : ∀ node i a, node.isFixed = true → ¬P node i a
  chain : ∀ run child cached i a, P (.Chain run child cached) i a ↔ P child i a
  branch : ∀ children cached i a, P (.Branch children cached) i a ↔ ∃ k, P (children k) i a

theorem gathers_accounts : Gathers fun node i row => Node.HasAccount i row node where
  fixed := fun node i row h => by cases node <;> simp_all [Node.HasAccount, Node.isFixed]
  chain := fun _ _ _ _ _ => Iff.rfl
  branch := fun _ _ _ _ => Iff.rfl

theorem gathers_slots : Gathers fun node i row => Node.HasSlot i row node where
  fixed := fun node i row h => by cases node <;> simp_all [Node.HasSlot, Node.isFixed]
  chain := fun _ _ _ _ _ => Iff.rfl
  branch := fun _ _ _ _ => Iff.rfl

theorem gathers_none {α : Type} : Gathers fun (_ : Node) (_ : Nat) (_ : α) => False where
  fixed := fun _ _ _ _ => id
  chain := fun _ _ _ _ _ => Iff.rfl
  branch := fun _ _ _ _ => by simp

variable {ctx ctx' : Ctx}

theorem buildSlots_undeclared {child : Nibble → Ctx → Except String (Node × Ctx)} {tags : Nat} {k : Nibble}
    (htag : childTag tags k = 0) (slots : List Nibble) {children children' : Nibble → Node}
    (h : buildSlots limits child tags slots children ctx = .ok (children', ctx')) :
    children' k = children k := by
  induction slots generalizing children ctx with
  | nil =>
    cases h
    rfl
  | cons j rest ih =>
    unfold buildSlots at h
    split at h
    · exact ih h
    · next hj =>
      have hne : k ≠ j := fun heq => by simp [← heq, htag] at hj
      obtain ⟨_, _, h⟩ := bind_eq_ok.1 h
      obtain ⟨⟨hash, cursor⟩, _, h⟩ := bind_eq_ok.1 h
      exact (ih h).trans (if_neg hne)
    · next hj _ =>
      have hne : k ≠ j := fun heq => hj (heq ▸ htag)
      obtain ⟨⟨node, ctx1⟩, hnode, h⟩ := bind_eq_ok.1 h
      obtain ⟨_, _, h⟩ := bind_eq_ok.1 h
      exact (ih h).trans (if_neg hne)

section

-- `table` is one of the two tables.
variable {α : Type} {P : Node → Nat → α → Prop} {table : Ctx → List α}

-- Reading a node appends exactly its rows.
def Adds (P : Node → Nat → α → Prop) (table : Ctx → List α) (read : Ctx → Except String (Node × Ctx)) : Prop :=
  ∀ ctx node ctx', read ctx = .ok (node, ctx') → Grows (table ctx) (table ctx') (P node)

theorem buildChain_adds (hP : Gathers P) (htable : ∀ ctx ctx', ctx.SameRows ctx' → table ctx' = table ctx)
    {only node : Node} {nibble : Nibble} {ctx ctx' : Ctx}
    (h : buildChain only nibble ctx = .ok (node, ctx')) :
    table ctx' = table ctx ∧ ∀ i a, P node i a ↔ P only i a := by
  unfold buildChain at h
  split at h
  · obtain ⟨run', _, h⟩ := bind_eq_ok.1 h
    obtain ⟨cached', _, h⟩ := bind_eq_ok.1 h
    cases h
    exact ⟨rfl, fun i a => by rw [hP.chain, hP.chain]⟩
  · obtain ⟨run, _, h⟩ := bind_eq_ok.1 h
    obtain ⟨cached, _, h⟩ := bind_eq_ok.1 h
    cases h
    exact ⟨htable _ _ ⟨rfl, rfl⟩, fun i a => hP.chain _ _ _ i a⟩

theorem buildSlots_adds (hP : Gathers P) (htable : ∀ ctx ctx', ctx.SameRows ctx' → table ctx' = table ctx)
    {child : Nibble → Ctx → Except String (Node × Ctx)} (hchild : ∀ k, Adds P table (child k)) {tags : Nat}
    (slots : List Nibble) (hnodup : slots.Nodup) {children children' : Nibble → Node} {ctx ctx' : Ctx}
    (hempty : ∀ k ∈ slots, children k = .Empty)
    (h : buildSlots limits child tags slots children ctx = .ok (children', ctx')) :
    Grows (table ctx) (table ctx') (fun i a => ∃ k ∈ slots, P (children' k) i a) ∧
      ∀ k, k ∉ slots → children' k = children k := by
  induction slots generalizing children ctx with
  | nil =>
    cases h
    exact ⟨.refl (by simp), fun _ _ => rfl⟩
  | cons j rest ih =>
    obtain ⟨hj, hrest⟩ := nodup_cons.1 hnodup
    -- The slots still to come stay empty when slot `j` is set.
    have hlater : ∀ node k, k ∈ rest → (if k = j then node else children k) = .Empty := by
      intro node k hk
      have hne : k ≠ j := fun heq => hj (heq ▸ hk)
      rw [if_neg hne, hempty k (mem_cons_of_mem j hk)]
    unfold buildSlots at h
    split at h
    · obtain ⟨hgrows, hsame⟩ := ih hrest (fun k hk => hempty k (mem_cons_of_mem j hk)) h
      refine ⟨hgrows.congr fun i a => ?_, fun k hk => hsame k fun hmem => hk (mem_cons_of_mem j hmem)⟩
      have hjempty : ¬P (children' j) i a := by
        rw [hsame j hj, hempty j mem_cons_self]
        exact hP.fixed _ i a rfl
      simp [hjempty]
    · obtain ⟨_, _, h⟩ := bind_eq_ok.1 h
      obtain ⟨⟨hash, cursor⟩, _, h⟩ := bind_eq_ok.1 h
      obtain ⟨hgrows, hsame⟩ := ih hrest (hlater _) h
      have htab : table { ctx with cursor, poolN := ctx.poolN + 1 } = table ctx := htable _ _ ⟨rfl, rfl⟩
      rw [htab] at hgrows
      refine ⟨hgrows.congr fun i a => ?_, fun k hk => ?_⟩
      · have hjfixed : ¬P (children' j) i a := by
          rw [hsame j hj, if_pos rfl]
          exact hP.fixed _ i a rfl
        simp [hjfixed]
      · rw [hsame k fun hmem => hk (mem_cons_of_mem j hmem), if_neg fun heq => hk (by simp [heq])]
    · obtain ⟨⟨node, ctx1⟩, hnode, h⟩ := bind_eq_ok.1 h
      obtain ⟨_, _, h⟩ := bind_eq_ok.1 h
      obtain ⟨hgrows, hsame⟩ := ih hrest (hlater _) h
      refine ⟨((hchild j _ _ _ hnode).trans hgrows).congr fun i a => ?_, fun k hk => ?_⟩
      · have hjnode : children' j = node := by rw [hsame j hj, if_pos rfl]
        simp [hjnode]
      · rw [hsame k fun hmem => hk (mem_cons_of_mem j hmem), if_neg fun heq => hk (by simp [heq])]

theorem buildBranch_adds (hP : Gathers P) (htable : ∀ ctx ctx', ctx.SameRows ctx' → table ctx' = table ctx)
    {child : Nibble → Ctx → Except String (Node × Ctx)} (hchild : ∀ k, Adds P table (child k)) :
    Adds P table (buildBranch keccak limits child) := by
  intro ctx node ctx' h
  unfold buildBranch at h
  obtain ⟨⟨tags, cursor⟩, _, h⟩ := bind_eq_ok.1 h
  dsimp only at h
  split at h
  · cases h
  · obtain ⟨_, _, h⟩ := bind_eq_ok.1 h
    obtain ⟨⟨children, ctx1⟩, hslots, h⟩ := bind_eq_ok.1 h
    obtain ⟨_, _, h⟩ := bind_eq_ok.1 h
    obtain ⟨hgrows, _⟩ := buildSlots_adds hP htable hchild _ (nodup_finRange 16) (fun _ _ => rfl) hslots
    have htab : table { ctx with cursor } = table ctx := htable _ _ ⟨rfl, rfl⟩
    rw [htab] at hgrows
    split at h
    · next k hone =>
      obtain ⟨heq, honly⟩ := buildChain_adds hP htable h
      rw [heq]
      refine hgrows.congr fun i a => (Iff.trans ?_ (honly i a).symm)
      -- An undeclared slot is empty.
      have hothers : ∀ j, j ≠ k → children j = .Empty := fun j hne => by
        have htag : childTag tags j = 0 := by
          simpa using mt ((occupied_one.1 hone).2 j) hne
        exact buildSlots_undeclared htag _ hslots
      constructor
      · rintro ⟨j, _, hj⟩
        by_cases hjk : j = k
        · exact hjk ▸ hj
        · rw [hothers j hjk] at hj
          exact absurd hj (hP.fixed _ i a rfl)
      · exact fun hk => ⟨k, mem_finRange k, hk⟩
    · obtain ⟨cached, _, h⟩ := bind_eq_ok.1 h
      cases h
      have htab1 : table { ctx1 with branchN := ctx1.branchN + 1 } = table ctx1 := htable _ _ ⟨rfl, rfl⟩
      rw [htab1]
      exact hgrows.congr fun i a => by simp [hP.branch]

theorem buildNode_adds (hP : Gathers P) (htable : ∀ ctx ctx', ctx.SameRows ctx' → table ctx' = table ctx)
    {leaf : Path → Ctx → Except String (Node × Ctx)} (hleaf : ∀ walked, Adds P table (leaf walked))
    (room : Nat) (walked : Path) : Adds P table (buildNode keccak limits leaf room walked) := by
  induction room generalizing walked with
  | zero =>
    intro ctx node ctx' h
    obtain ⟨cursor, h⟩ | ⟨_, h⟩ | ⟨⟨hfixed, _⟩, hrows⟩ := buildOp_cases h
    · exact htable ctx { ctx with cursor } ⟨rfl, rfl⟩ ▸ hleaf walked _ _ _ h
    · cases h
    · rw [htable _ _ hrows]
      exact .refl fun i a => hP.fixed node i a hfixed
  | succ room ih =>
    intro ctx node ctx' h
    obtain ⟨cursor, h⟩ | ⟨cursor, h⟩ | ⟨⟨hfixed, _⟩, hrows⟩ := buildOp_cases h
    · exact htable ctx { ctx with cursor } ⟨rfl, rfl⟩ ▸ hleaf walked _ _ _ h
    · exact htable ctx { ctx with cursor } ⟨rfl, rfl⟩ ▸ buildBranch_adds hP htable (fun k => ih _) _ _ _ h
    · rw [htable _ _ hrows]
      exact .refl fun i a => hP.fixed node i a hfixed

end

theorem sameRows_accounts (ctx ctx' : Ctx) (h : ctx.SameRows ctx') : ctx'.accounts = ctx.accounts := h.1

theorem sameRows_storages (ctx ctx' : Ctx) (h : ctx.SameRows ctx') : ctx'.storages = ctx.storages := h.2

theorem appendStorage_ok {row : StorageRow} {idx : Nat} (h : appendStorage limits row ctx = .ok (idx, ctx')) :
    idx = ctx.storages.length ∧ ctx'.storages = ctx.storages ++ [row] ∧ ctx'.accounts = ctx.accounts := by
  unfold appendStorage at h
  split at h
  · cases h
  · cases h
    exact ⟨rfl, rfl, rfl⟩

theorem appendAccount_ok {row : AccountRow} {idx : Nat} (h : appendAccount limits row ctx = .ok (idx, ctx')) :
    idx = ctx.accounts.length ∧ ctx'.accounts = ctx.accounts ++ [row] ∧ ctx'.storages = ctx.storages := by
  unfold appendAccount at h
  split at h
  · cases h
  · cases h
    exact ⟨rfl, rfl, rfl⟩

theorem buildStorageLeaf_adds (owner : Address) (walked : Path) :
    Adds (fun node i row => Node.HasSlot i row node) Ctx.storages
      (buildStorageLeaf keccak limits owner walked) := by
  intro ctx node ctx' h
  obtain ⟨cursor, idx, row, posHash, _, _, _, happend, rfl⟩ := buildStorageLeaf_ok h
  obtain ⟨rfl, hrows, _⟩ := appendStorage_ok happend
  rw [hrows]
  exact (Grows.append row).congr fun i a => by simp [Node.HasSlot, eq_comm]

theorem buildStorage_accounts {owner : Address} {node : Node}
    (h : buildNode keccak limits (buildStorageLeaf keccak limits owner) 64 [] ctx = .ok (node, ctx')) :
    ctx'.accounts = ctx.accounts := by
  have hleaf : ∀ walked, Adds (fun _ _ _ => False) Ctx.accounts
      (buildStorageLeaf keccak limits owner walked) := by
    intro walked ctx node ctx' h
    obtain ⟨cursor, idx, row, posHash, _, _, _, happend, rfl⟩ := buildStorageLeaf_ok h
    obtain ⟨_, _, hrows⟩ := appendStorage_ok happend
    rw [hrows]
    exact .refl fun _ _ => id
  exact (buildNode_adds gathers_none sameRows_accounts hleaf 64 [] _ _ _ h).eq_of_none fun _ _ => id

theorem buildAccountLeaf_adds_accounts (walked : Path) :
    Adds (fun node i row => Node.HasAccount i row node) Ctx.accounts
      (buildAccountLeaf keccak limits walked) := by
  intro ctx node ctx' h
  obtain ⟨cursor, idx, row, _, ctx1, storage, _, _, _, _, happend, hstorage, _, _, rfl⟩ :=
    buildAccountLeaf_ok h
  obtain ⟨rfl, hrows, _⟩ := appendAccount_ok happend
  rw [buildStorage_accounts hstorage, hrows]
  exact (Grows.append row).congr fun i a => by simp [Node.HasAccount, eq_comm]

theorem buildAccountLeaf_adds_storages (walked : Path) :
    Adds (fun node i row => Node.HasSlot i row node) Ctx.storages
      (buildAccountLeaf keccak limits walked) := by
  intro ctx node ctx' h
  obtain ⟨cursor, idx, row, _, ctx1, storage, _, _, _, _, happend, hstorage, _, _, rfl⟩ :=
    buildAccountLeaf_ok h
  obtain ⟨_, _, hrows⟩ := appendAccount_ok happend
  have hgrows := buildNode_adds gathers_slots sameRows_storages
    (fun walked => buildStorageLeaf_adds row.address walked) 64 [] _ _ _ hstorage
  rw [hrows] at hgrows
  exact hgrows

theorem construct_rows {stream : Bytes} {built : Built} (h : construct keccak stream = .ok built) :
    (∀ i row, built.root.HasAccount i row ↔ built.accounts[i]? = some row) ∧
    (∀ i row, built.root.HasSlot i row ↔ built.storages[i]? = some row) := by
  obtain ⟨limits, cursor, ctx, _, hbuild, _, haccounts, hstorages⟩ := construct_ok h
  rw [haccounts, hstorages]
  exact ⟨(buildNode_adds gathers_accounts sameRows_accounts buildAccountLeaf_adds_accounts 64 [] _ _ _ hbuild).of_nil,
    (buildNode_adds gathers_slots sameRows_storages buildAccountLeaf_adds_storages 64 [] _ _ _ hbuild).of_nil⟩

-- Which leaves stand where: slots of one owner below an account, accounts in the state trie.
def Node.StorageTree (owner : Address) : Node → Prop
  | .Account _ _ _ _ _ => False
  | .Storage _ row _ _ => row.address = owner
  | .Chain _ child _ => child.StorageTree owner
  | .Branch children _ => ∀ k, (children k).StorageTree owner
  | _ => True

def Node.StateTree : Node → Prop
  | .Account _ row _ storage _ => storage.StorageTree row.address
  | .Storage _ _ _ _ => False
  | .Chain _ child _ => child.StateTree
  | .Branch children _ => ∀ k, (children k).StateTree
  | _ => True

structure Hereditary (Q : Node → Prop) : Prop where
  fixed : ∀ node, node.isFixed = true → Q node
  chain : ∀ run child cached, Q (.Chain run child cached) ↔ Q child
  branch : ∀ children cached, Q (.Branch children cached) ↔ ∀ k, Q (children k)

theorem hereditary_storageTree (owner : Address) : Hereditary (Node.StorageTree owner) where
  fixed := fun node h => by cases node <;> simp_all [Node.StorageTree, Node.isFixed]
  chain := fun _ _ _ => Iff.rfl
  branch := fun _ _ => Iff.rfl

theorem hereditary_stateTree : Hereditary Node.StateTree where
  fixed := fun node h => by cases node <;> simp_all [Node.StateTree, Node.isFixed]
  chain := fun _ _ _ => Iff.rfl
  branch := fun _ _ => Iff.rfl

section

variable {Q : Node → Prop}

variable {node : Node} {ctx ctx' : Ctx}

theorem buildChain_hereditary (hQ : Hereditary Q) {only : Node} {nibble : Nibble} (honly : Q only)
    (h : buildChain only nibble ctx = .ok (node, ctx')) : Q node := by
  unfold buildChain at h
  split at h
  · obtain ⟨run', _, h⟩ := bind_eq_ok.1 h
    obtain ⟨cached', _, h⟩ := bind_eq_ok.1 h
    cases h
    exact (hQ.chain _ _ _).2 ((hQ.chain _ _ _).1 honly)
  · obtain ⟨run, _, h⟩ := bind_eq_ok.1 h
    obtain ⟨cached, _, h⟩ := bind_eq_ok.1 h
    cases h
    exact (hQ.chain _ _ _).2 honly

theorem buildSlots_hereditary (hQ : Hereditary Q) {child : Nibble → Ctx → Except String (Node × Ctx)}
    (hchild : ∀ k ctx node ctx', child k ctx = .ok (node, ctx') → Q node) {tags : Nat} (slots : List Nibble)
    {children children' : Nibble → Node} (hchildren : ∀ k, Q (children k))
    (h : buildSlots limits child tags slots children ctx = .ok (children', ctx')) (k : Nibble) :
    Q (children' k) := by
  induction slots generalizing children ctx with
  | nil =>
    cases h
    exact hchildren k
  | cons j rest ih =>
    unfold buildSlots at h
    split at h
    · exact ih hchildren h
    · obtain ⟨_, _, h⟩ := bind_eq_ok.1 h
      obtain ⟨⟨hash, cursor⟩, _, h⟩ := bind_eq_ok.1 h
      refine ih (fun k => ?_) h
      split
      · exact hQ.fixed _ rfl
      · exact hchildren k
    · obtain ⟨⟨node, ctx1⟩, hnode, h⟩ := bind_eq_ok.1 h
      obtain ⟨_, _, h⟩ := bind_eq_ok.1 h
      refine ih (fun k => ?_) h
      split
      · exact hchild j _ _ _ hnode
      · exact hchildren k

theorem buildBranch_hereditary (hQ : Hereditary Q) {child : Nibble → Ctx → Except String (Node × Ctx)}
    (hchild : ∀ k ctx node ctx', child k ctx = .ok (node, ctx') → Q node)
    (h : buildBranch keccak limits child ctx = .ok (node, ctx')) : Q node := by
  unfold buildBranch at h
  obtain ⟨⟨tags, cursor⟩, _, h⟩ := bind_eq_ok.1 h
  dsimp only at h
  split at h
  · cases h
  · obtain ⟨_, _, h⟩ := bind_eq_ok.1 h
    obtain ⟨⟨children, ctx1⟩, hslots, h⟩ := bind_eq_ok.1 h
    obtain ⟨_, _, h⟩ := bind_eq_ok.1 h
    have hall := buildSlots_hereditary hQ hchild _ (fun _ => hQ.fixed .Empty rfl) hslots
    split at h
    · exact buildChain_hereditary hQ (hall _) h
    · obtain ⟨cached, _, h⟩ := bind_eq_ok.1 h
      cases h
      exact (hQ.branch _ _).2 hall

theorem buildNode_hereditary (hQ : Hereditary Q) {leaf : Path → Ctx → Except String (Node × Ctx)}
    (hleaf : ∀ walked ctx node ctx', leaf walked ctx = .ok (node, ctx') → Q node) (room : Nat) {walked : Path}
    (h : buildNode keccak limits leaf room walked ctx = .ok (node, ctx')) :
    Q node := by
  induction room generalizing walked ctx ctx' node with
  | zero =>
    obtain ⟨_, h⟩ | ⟨_, h⟩ | ⟨⟨hfixed, _⟩, _⟩ := buildOp_cases h
    · exact hleaf _ _ _ _ h
    · cases h
    · exact hQ.fixed node hfixed
  | succ room ih =>
    obtain ⟨_, h⟩ | ⟨_, h⟩ | ⟨⟨hfixed, _⟩, _⟩ := buildOp_cases h
    · exact hleaf _ _ _ _ h
    · exact buildBranch_hereditary hQ (fun k ctx node ctx' h => ih h) h
    · exact hQ.fixed node hfixed

end

theorem buildAccountLeaf_stateTree {walked : Path} {node : Node}
    (h : buildAccountLeaf keccak limits walked ctx = .ok (node, ctx')) : node.StateTree := by
  obtain ⟨_, _, row, _, _, storage, _, _, _, _, _, hstorage, _, _, rfl⟩ := buildAccountLeaf_ok h
  apply buildNode_hereditary (hereditary_storageTree row.address) _ 64 hstorage
  intro walked ctx node ctx' h
  obtain ⟨_, _, _, _, howner, _, _, _, rfl⟩ := buildStorageLeaf_ok h
  exact howner

theorem construct_stateTree {stream : Bytes} {built : Built} (h : construct keccak stream = .ok built) :
    built.root.StateTree := by
  obtain ⟨limits, cursor, ctx, _, hbuild, _⟩ := construct_ok h
  exact buildNode_hereditary hereditary_stateTree (fun _ _ _ _ h => buildAccountLeaf_stateTree h) _ hbuild

end Zeg.StateRoot
