import Zeg.InputGen
import Zeg.StateRoot.Rows

-- The new-root pass reuses the cached result of every subtree whose rows kept their values. Here it
-- is compared with the pass that folds every node anew.
namespace Zeg.StateRoot

open Base Base.Rlp Base.Patricia Zeg.Stream List

variable {keccak : Bytes → Bytes32} {now : Assignment}

-- Every node folded from `which`, nothing reused.
def recomputeNode (keccak : Bytes → Bytes32) (which : ValueSet) : Node → Nat → Except String NodeR
  | .Account idx row addrHash storage _, depth => do
    let result ← recomputeNode keccak which storage 0
    let storageRoot ← result.finalize keccak which
    let nib ← pathFromKey addrHash depth
    return if isEmptyAccount (which.account idx row) then .EmptyR else .AccountLeafR nib idx row storageRoot
  | .Storage idx row posHash _, depth => do
    let nib ← pathFromKey posHash depth
    return if isZeroValue (which.slot idx row) then .EmptyR else .StorageLeafR nib idx row
  | .Chain run child _, depth => do
    let result ← recomputeNode keccak which child (depth + run.nibbles.length)
    chainResult run.nibbles result
  | .Branch children _, depth => do
    let results ← collect 16 fun k => recomputeNode keccak which (children k) (depth + 1)
    reduceBranch keccak which (fun k => (children k).type) results
  | node, _ => .ok node.result

def ValueSet.Unguarded (now : Assignment) : ValueSet := { ValueSet.Current now with current := false }

-- The nodes the new-root pass evaluates from `root` at `start`, with the depths it passes.
inductive Visited (root : Node) (start : Nat) : Node → Nat → Prop where
  | Root : Visited root start root start
  | Storage {idx row addrHash storage cached depth} :
      Visited root start (.Account idx row addrHash storage cached) depth → Visited root start storage 0
  | Chain {run child cached depth} : Visited root start (.Chain run child cached) depth →
      child.isFixed = false → Visited root start child (depth + run.nibbles.length)
  | Branch {children cached depth} (k : Nibble) : Visited root start (.Branch children cached) depth →
      (children k).isFixed = false → Visited root start (children k) (depth + 1)

theorem type_of_not_fixed {node : Node} (h : node.isFixed = false) : node.type ≠ .PoolHash := by
  cases node <;> simp_all [Node.isFixed, Node.type]

theorem Visited.folded {root node : Node} {depth : Nat} (h : Visited root 0 node depth)
    (hroot : root.Folded keccak []) (htype : root.type ≠ .PoolHash) :
    (∃ walked, walked.length = depth ∧ node.Folded keccak walked) ∧ node.type ≠ .PoolHash := by
  induction h with
  | Root => exact ⟨⟨[], rfl, hroot⟩, htype⟩
  | Storage _ ih =>
    obtain ⟨⟨walked, _, hstorage, hst, _⟩, _⟩ := ih
    exact ⟨⟨[], rfl, hstorage⟩, hst⟩
  | Chain _ hchild ih =>
    obtain ⟨⟨walked, rfl, hf, _⟩, _⟩ := ih
    exact ⟨⟨_, length_append, hf⟩, type_of_not_fixed hchild⟩
  | Branch k _ hchild ih =>
    obtain ⟨⟨walked, rfl, hf, _⟩, _⟩ := ih
    exact ⟨⟨_, length_append, hf k⟩, type_of_not_fixed hchild⟩

-- `reduce_branch` folds a lone child as `fold_nibble` does, behind the guard.
def orphanGuard (which : ValueSet) (types : Nibble → NodeType) (nibble : Nibble) (r : NodeR) :
    Except String Unit :=
  match r with
  | .HashR _ =>
    if types nibble == .PoolHash || types nibble == .Hash then checkOrphan which types else .ok ()
  | _ => .ok ()

theorem reduceBranch_eq (which : ValueSet) (types : Nibble → NodeType) (results : Nibble → NodeR) :
    reduceBranch keccak which types results =
      if 2 ≤ countSlots fun k => types k == .PoolHash then (packBranch keccak which results).map .HashR
      else
        match occupied fun k => !(results k).isEmpty with
        | .None => .ok .EmptyR
        | .One nibble => do
          orphanGuard which types nibble (results nibble)
          foldNibble nibble (results nibble)
        | .Many => (packBranch keccak which results).map .HashR := by
  unfold reduceBranch
  split
  · rfl
  · cases hocc : occupied fun k => !(results k).isEmpty with
    | None => rfl
    | Many => rfl
    | One nibble =>
      have hne := present_of_one hocc
      dsimp only at hne ⊢
      generalize results nibble = r at hne ⊢
      cases r with
      | EmptyR => cases hne
      | HashR hash =>
        simp only [orphanGuard]
        split <;> rfl
      | _ => rfl

def NodeR.Same (now : Assignment) : NodeR → Prop
  | .AccountLeafR _ idx row _ => row.original = now.accounts idx
  | .StorageLeafR _ idx row => row.original = now.storages idx
  | _ => True

theorem NodeR.Same.node {r : NodeR} (h : r.Same now) : r.node .Original = r.node (.Unguarded now) := by
  cases r with
  | AccountLeafR path idx row root =>
    have heq : ValueSet.Original.account idx row = (ValueSet.Unguarded now).account idx row := h
    simp only [NodeR.node, heq]
  | StorageLeafR path idx row =>
    have heq : ValueSet.Original.slot idx row = (ValueSet.Unguarded now).slot idx row := h
    simp only [NodeR.node, heq]
  | _ => rfl

theorem slot_unguarded (r : NodeR) : r.slot keccak (.Unguarded now) = r.slot keccak (.Current now) := by
  cases r <;> rfl

theorem finalize_unguarded (r : NodeR) :
    r.finalize keccak (.Unguarded now) = r.finalize keccak (.Current now) := by
  cases r <;> rfl

theorem NodeR.Same.slot {r : NodeR} (h : r.Same now) :
    r.slot keccak .Original = r.slot keccak (.Unguarded now) := by
  have hnode := h.node
  cases r <;> simp only [NodeR.slot, hnode]

theorem NodeR.Same.finalize {r : NodeR} (h : r.Same now) :
    r.finalize keccak .Original = r.finalize keccak (.Unguarded now) := by
  have hnode := h.node
  cases r <;> simp only [NodeR.finalize, hnode]

theorem foldNibble_same {nibble : Nibble} {r r' : NodeR} (hr : r.Same now) (h : foldNibble nibble r = .ok r') :
    r'.Same now := by
  cases r with
  | EmptyR =>
    cases h
    trivial
  | _ =>
    simp only [foldNibble] at h
    obtain ⟨_, _, rfl⟩ := map_eq_ok.1 h
    exact hr

theorem chainResult_same {run : Path} {r r' : NodeR} (hr : r.Same now) (h : chainResult run r = .ok r') :
    r'.Same now := by
  induction run generalizing r' with
  | nil =>
    cases h
    exact hr
  | cons nibble run ih =>
    obtain ⟨inner, hinner, h⟩ := bind_eq_ok.1 h
    exact foldNibble_same (ih hinner) h

theorem packBranch_same {results : Nibble → NodeR} (h : ∀ k, (results k).Same now) :
    packBranch keccak .Original results = packBranch keccak (.Unguarded now) results := by
  have hslots : ∀ k, (results k).slot keccak .Original = (results k).slot keccak (.Unguarded now) :=
    fun k => (h k).slot
  unfold packBranch
  simp only [hslots]

theorem packBranch_unguarded (results : Nibble → NodeR) :
    packBranch keccak (.Unguarded now) results = packBranch keccak (.Current now) results := by
  unfold packBranch
  simp only [slot_unguarded]

theorem orphanGuard_original {which : ValueSet} (hwhich : which.current = false) (types : Nibble → NodeType)
    (nibble : Nibble) (r : NodeR) : orphanGuard which types nibble r = .ok () := by
  unfold orphanGuard checkOrphan
  simp only [hwhich, Bool.false_and, Bool.false_eq_true, if_false]
  cases r <;> simp

theorem reduceBranch_same {types : Nibble → NodeType} {results : Nibble → NodeR}
    (h : ∀ k, (results k).Same now) :
    reduceBranch keccak .Original types results = reduceBranch keccak (.Unguarded now) types results := by
  rw [reduceBranch_eq, reduceBranch_eq, packBranch_same h]
  simp only [fun k => orphanGuard_original (show ValueSet.Original.current = false from rfl) types k,
    fun k => orphanGuard_original (show (ValueSet.Unguarded now).current = false from rfl) types k]

theorem reduceBranch_result_same {which : ValueSet} {types : Nibble → NodeType} {results : Nibble → NodeR}
    {r : NodeR} (hsame : ∀ k, (results k).Same now) (h : reduceBranch keccak which types results = .ok r) :
    r.Same now := by
  rw [reduceBranch_eq] at h
  split at h
  · obtain ⟨_, _, rfl⟩ := map_eq_ok.1 h
    trivial
  · split at h
    · cases h
      trivial
    · obtain ⟨_, _, h⟩ := bind_eq_ok.1 h
      exact foldNibble_same (hsame _) h
    · obtain ⟨_, _, rfl⟩ := map_eq_ok.1 h
      trivial

theorem reduceBranch_guarded {types : Nibble → NodeType} {results : Nibble → NodeR} {r : NodeR}
    (h : reduceBranch keccak (.Current now) types results = .ok r) :
    reduceBranch keccak (.Unguarded now) types results = .ok r := by
  rw [reduceBranch_eq] at h ⊢
  rw [packBranch_unguarded]
  split
  · next hmany => rwa [if_pos hmany] at h
  · next hmany =>
    rw [if_neg hmany] at h
    split
    · next hocc => rwa [hocc] at h
    · next nibble hocc =>
      rw [hocc] at h
      obtain ⟨_, _, h⟩ := bind_eq_ok.1 h
      exact bind_eq_ok.2 ⟨(), orphanGuard_original rfl types nibble _, h⟩
    · next hocc => rwa [hocc] at h

theorem fixed_same {node : Node} (h : node.isFixed = true) : node.result.Same now := by
  cases node <;> trivial

theorem recomputeNode_fixed {which : ValueSet} {node : Node} (h : node.isFixed = true) (depth : Nat) :
    recomputeNode keccak which node depth = .ok node.result := by
  cases node <;> first | rfl | cases h

theorem updateAccount_unchanged {idx : Nat} {row : AccountRow} {nib : PackedPath} {root : Bytes32}
    {cached : NodeR} (hsame : row.original = now.accounts idx)
    (hcached : buildAccountValue idx row nib root = .ok cached) :
    updateAccount now idx row nib root = cached ∧ cached.Same now := by
  unfold buildAccountValue at hcached
  rw [hsame] at hcached
  unfold updateAccount
  split at hcached
  · next hempty =>
    split at hcached
    · cases hcached
      exact ⟨if_pos hempty, trivial⟩
    · cases hcached
  · next hempty =>
    cases hcached
    exact ⟨if_neg hempty, hsame⟩

theorem updateSlot_unchanged {idx : Nat} {row : StorageRow} {nib : PackedPath}
    (hsame : row.original = now.storages idx) :
    updateSlot now idx row nib = buildSlotValue idx row nib ∧ (buildSlotValue idx row nib).Same now := by
  unfold updateSlot buildSlotValue
  rw [hsame]
  split
  · exact ⟨rfl, trivial⟩
  · exact ⟨rfl, hsame⟩

-- The pass returns the fold of the current values, and calls read-only only what kept its result.
theorem evalNode_exact (node : Node) {walked : Path} (hfolded : node.Folded keccak walked) {r : NodeR} {ro : Bool}
    (h : evalNode keccak now node walked.length = .ok (r, ro)) :
    recomputeNode keccak (.Unguarded now) node walked.length = .ok r ∧
      (ro = true → r = node.result ∧ r.Same now) := by
  induction node generalizing walked r ro with
  | Account idx row addrHash storage cached ih =>
    obtain ⟨hstorage, _, _, _, root, hroot, hcached⟩ := hfolded
    simp only [evalNode] at h
    obtain ⟨⟨result, storageRo⟩, hresult, h⟩ := bind_eq_ok.1 h
    obtain ⟨storageRoot, hfinal, h⟩ := bind_eq_ok.1 h
    obtain ⟨nib, hnib, h⟩ := bind_eq_ok.1 h
    cases h
    obtain ⟨hrec, hsame⟩ := @ih [] hstorage _ _ hresult
    refine ⟨?_, fun hro => ?_⟩
    · rw [← finalize_unguarded] at hfinal
      exact bind_eq_ok.2 ⟨result, hrec, bind_eq_ok.2 ⟨storageRoot, hfinal, bind_eq_ok.2 ⟨nib, hnib, rfl⟩⟩⟩
    · rw [Bool.and_eq_true, decide_eq_true_eq] at hro
      obtain ⟨rfl, hsameResult⟩ := hsame hro.2
      rw [hsameResult.finalize, finalize_unguarded, hfinal] at hroot
      cases hroot
      obtain ⟨_, rfl⟩ := pathFromKey_ok hnib
      obtain ⟨heq, hcachedSame⟩ := updateAccount_unchanged hro.1 hcached
      exact ⟨heq, heq ▸ hcachedSame⟩
  | Storage idx row posHash cached =>
    obtain ⟨_, _, rfl⟩ := hfolded
    simp only [evalNode] at h
    obtain ⟨nib, hnib, h⟩ := bind_eq_ok.1 h
    cases h
    refine ⟨bind_eq_ok.2 ⟨nib, hnib, rfl⟩, fun hro => ?_⟩
    obtain ⟨_, rfl⟩ := pathFromKey_ok hnib
    obtain ⟨heq, hsame⟩ := updateSlot_unchanged (of_decide_eq_true hro)
    exact ⟨heq, heq ▸ hsame⟩
  | Chain run child cached ih =>
    obtain ⟨hchild, _, _, hcached⟩ := hfolded
    simp only [evalNode] at h
    split at h
    · next hfixed =>
      cases h
      exact ⟨bind_eq_ok.2 ⟨_, recomputeNode_fixed hfixed _, hcached⟩,
        fun _ => ⟨rfl, chainResult_same (fixed_same hfixed) hcached⟩⟩
    · obtain ⟨⟨result, childRo⟩, hresult, h⟩ := bind_eq_ok.1 h
      rw [← length_append] at hresult
      obtain ⟨hrec, hsame⟩ := ih hchild hresult
      rw [length_append] at hrec
      dsimp only at h
      split at h
      · next hro =>
        cases h
        obtain ⟨rfl, hsameResult⟩ := hsame hro
        exact ⟨bind_eq_ok.2 ⟨_, hrec, hcached⟩, fun _ => ⟨rfl, chainResult_same hsameResult hcached⟩⟩
      · obtain ⟨folded, hfold, h⟩ := bind_eq_ok.1 h
        cases h
        exact ⟨bind_eq_ok.2 ⟨_, hrec, hfold⟩, nofun⟩
  | Branch children cached ih =>
    obtain ⟨hchildren, hcached⟩ := hfolded
    simp only [evalNode] at h
    obtain ⟨results, hresults, h⟩ := bind_eq_ok.1 h
    rw [collect_eq_ok] at hresults
    have hchild : ∀ k, recomputeNode keccak (.Unguarded now) (children k) (walked.length + 1) =
          .ok (results k).1 ∧
        ((results k).2 = true → (results k).1 = (children k).result ∧ (results k).1.Same now) := by
      intro k
      have hk := hresults k
      split at hk
      · next hfixed =>
        rw [← Except.ok.inj hk]
        exact ⟨recomputeNode_fixed hfixed _, fun _ => ⟨rfl, fixed_same hfixed⟩⟩
      · have hlen : (walked ++ [k]).length = walked.length + 1 := length_append
        rw [← hlen] at hk ⊢
        exact ih k (hchildren k) hk
    have hcollect := collect_eq_ok.2 fun k => (hchild k).1
    split at h
    · next hall =>
      cases h
      have hro : ∀ k, (results k).2 = true := by simpa using hall
      have hsame := fun k => (hchild k).2 (hro k)
      have heq : (fun k => (results k).1) = fun k => (children k).result := funext fun k => (hsame k).1
      rw [heq] at hcollect
      have hsames : ∀ k, (children k).result.Same now := fun k => (hsame k).1 ▸ (hsame k).2
      exact ⟨bind_eq_ok.2 ⟨_, hcollect, reduceBranch_same hsames ▸ hcached⟩,
        fun _ => ⟨rfl, reduceBranch_result_same hsames hcached⟩⟩
    · obtain ⟨result, hreduce, h⟩ := bind_eq_ok.1 h
      cases h
      exact ⟨bind_eq_ok.2 ⟨_, hcollect, reduceBranch_guarded hreduce⟩, nofun⟩
  | PoolHash hash => cases h
  | _ =>
    cases h
    exact ⟨rfl, fun _ => ⟨rfl, trivial⟩⟩

theorem recomputeNode_guarded (node : Node) {depth : Nat} {r : NodeR}
    (h : recomputeNode keccak (.Current now) node depth = .ok r) :
    recomputeNode keccak (.Unguarded now) node depth = .ok r := by
  induction node generalizing depth r with
  | Account idx row addrHash storage cached ih =>
    obtain ⟨result, hresult, h⟩ := bind_eq_ok.1 h
    obtain ⟨root, hroot, h⟩ := bind_eq_ok.1 h
    rw [← finalize_unguarded] at hroot
    exact bind_eq_ok.2 ⟨result, ih hresult, bind_eq_ok.2 ⟨root, hroot, h⟩⟩
  | Chain run child cached ih =>
    obtain ⟨result, hresult, h⟩ := bind_eq_ok.1 h
    exact bind_eq_ok.2 ⟨result, ih hresult, h⟩
  | Branch children cached ih =>
    obtain ⟨results, hresults, h⟩ := bind_eq_ok.1 h
    rw [collect_eq_ok] at hresults
    exact bind_eq_ok.2 ⟨results, collect_eq_ok.2 fun k => ih k (hresults k), reduceBranch_guarded h⟩
  | _ => exact h

theorem evalNode_complete (node : Node) {walked : Path} (hfolded : node.Folded keccak walked)
    (htype : node.type ≠ .PoolHash) {r : NodeR}
    (h : recomputeNode keccak (.Current now) node walked.length = .ok r) :
    ∃ ro, evalNode keccak now node walked.length = .ok (r, ro) := by
  induction node generalizing walked r with
  | Account idx row addrHash storage cached ih =>
    obtain ⟨hstorage, hst, _⟩ := hfolded
    obtain ⟨result, hresult, h⟩ := bind_eq_ok.1 h
    obtain ⟨root, hroot, h⟩ := bind_eq_ok.1 h
    obtain ⟨nib, hnib, h⟩ := bind_eq_ok.1 h
    cases h
    obtain ⟨storageRo, heval⟩ := @ih [] hstorage hst _ hresult
    exact ⟨_, bind_eq_ok.2 ⟨_, heval, bind_eq_ok.2 ⟨root, hroot, bind_eq_ok.2 ⟨nib, hnib, rfl⟩⟩⟩⟩
  | Storage idx row posHash cached =>
    obtain ⟨nib, hnib, h⟩ := bind_eq_ok.1 h
    cases h
    exact ⟨_, bind_eq_ok.2 ⟨nib, hnib, rfl⟩⟩
  | Chain run child cached ih =>
    obtain ⟨hchild, _, _, hcached⟩ := hfolded
    obtain ⟨result, hresult, h⟩ := bind_eq_ok.1 h
    simp only [evalNode]
    split
    · next hfixed =>
      rw [recomputeNode_fixed hfixed] at hresult
      cases hresult
      rw [hcached] at h
      cases h
      exact ⟨true, rfl⟩
    · next hfixed =>
      rw [← length_append] at hresult
      obtain ⟨ro, heval⟩ := ih hchild (type_of_not_fixed (by simpa using hfixed)) hresult
      have hexact := evalNode_exact child hchild heval
      rw [length_append] at heval
      cases ro with
      | true =>
        obtain ⟨rfl, _⟩ := hexact.2 rfl
        rw [hcached] at h
        cases h
        exact ⟨true, bind_eq_ok.2 ⟨_, heval, rfl⟩⟩
      | false => exact ⟨false, bind_eq_ok.2 ⟨_, heval, bind_eq_ok.2 ⟨r, h, rfl⟩⟩⟩
  | Branch children cached ih =>
    have hunguarded := recomputeNode_guarded _ h
    obtain ⟨results, hresults, h⟩ := bind_eq_ok.1 h
    rw [collect_eq_ok] at hresults
    have hchild : ∀ k, ∃ ro, (if (children k).isFixed then Except.ok ((children k).result, true)
        else evalNode keccak now (children k) (walked.length + 1)) = .ok (results k, ro) := by
      intro k
      have hk := hresults k
      split
      · next hfixed =>
        rw [recomputeNode_fixed hfixed] at hk
        exact ⟨true, by rw [Except.ok.inj hk]⟩
      · next hfixed =>
        have hlen : (walked ++ [k]).length = walked.length + 1 := length_append
        rw [← hlen] at hk ⊢
        exact ih k (hfolded.1 k) (type_of_not_fixed (by simpa using hfixed)) hk
    choose ro hro using hchild
    have hcollect := collect_eq_ok.2 hro
    -- Either way the pass returns; when it reuses, the exactness lemma says what.
    by_cases hall : ((List.finRange 16).all fun k => ro k) = true
    · have heval : evalNode keccak now (.Branch children cached) walked.length = .ok (cached, true) := by
        simp only [evalNode]
        exact bind_eq_ok.2 ⟨_, hcollect, if_pos hall⟩
      have hexact := (evalNode_exact _ hfolded heval).1
      rw [hunguarded] at hexact
      cases hexact
      exact ⟨true, heval⟩
    · refine ⟨false, ?_⟩
      simp only [evalNode]
      refine bind_eq_ok.2 ⟨_, hcollect, ?_⟩
      rw [if_neg hall]
      exact bind_eq_ok.2 ⟨r, h, rfl⟩
  | PoolHash hash => exact absurd rfl htype
  | _ =>
    cases h
    exact ⟨true, rfl⟩

def Node.Unchanged (now : Assignment) : Node → Prop
  | .Account idx row _ storage _ => row.original = now.accounts idx ∧ storage.Unchanged now
  | .Storage idx row _ _ => row.original = now.storages idx
  | .Chain _ child _ => child.Unchanged now
  | .Branch children _ => ∀ k, (children k).Unchanged now
  | _ => True

theorem evalNode_unchanged (node : Node) {walked : Path} (hfolded : node.Folded keccak walked)
    (htype : node.type ≠ .PoolHash) (hsame : node.Unchanged now) :
    evalNode keccak now node walked.length = .ok (node.result, true) := by
  induction node generalizing walked with
  | Account idx row addrHash storage cached ih =>
    obtain ⟨hstorage, hst, _, hwalked, root, hroot, hcached⟩ := hfolded
    have heval := @ih [] hstorage hst hsame.2
    obtain ⟨_, hstorageSame⟩ := (@evalNode_exact _ _ storage [] hstorage _ _ heval).2 rfl
    rw [hstorageSame.finalize, finalize_unguarded] at hroot
    obtain ⟨heq, _⟩ := updateAccount_unchanged hsame.1 hcached
    simp only [evalNode]
    refine bind_eq_ok.2 ⟨_, heval, bind_eq_ok.2 ⟨root, hroot, bind_eq_ok.2 ⟨_, pathFromKey_prefix hwalked, ?_⟩⟩⟩
    rw [heq, decide_eq_true hsame.1]
    rfl
  | Storage idx row posHash cached =>
    obtain ⟨_, hwalked, rfl⟩ := hfolded
    have hvalue : row.original = now.storages idx := hsame
    obtain ⟨heq, _⟩ := updateSlot_unchanged hvalue
    simp only [evalNode]
    refine bind_eq_ok.2 ⟨_, pathFromKey_prefix hwalked, ?_⟩
    rw [heq, decide_eq_true hvalue]
    rfl
  | Chain run child cached ih =>
    simp only [evalNode]
    split
    · rfl
    · next hfixed =>
      have heval := ih hfolded.1 (type_of_not_fixed (by simpa using hfixed)) hsame
      rw [length_append] at heval
      exact bind_eq_ok.2 ⟨_, heval, rfl⟩
  | Branch children cached ih =>
    have hchild : ∀ k, (if (children k).isFixed then Except.ok ((children k).result, true)
        else evalNode keccak now (children k) (walked.length + 1)) = .ok ((children k).result, true) := by
      intro k
      split
      · rfl
      · next hfixed =>
        have heval := ih k (hfolded.1 k) (type_of_not_fixed (by simpa using hfixed)) (hsame k)
        rwa [length_append] at heval
    simp only [evalNode]
    exact bind_eq_ok.2 ⟨_, collect_eq_ok.2 hchild, if_pos (by simp)⟩
  | PoolHash hash => exact absurd rfl htype
  | _ => rfl

theorem Node.StorageTree.unchanged {owner : Address} {node : Node} (htree : node.StorageTree owner)
    (hslots : ∀ i row, node.HasSlot i row → row.original = now.storages i) : node.Unchanged now := by
  induction node with
  | Account => exact htree.elim
  | Storage idx row posHash cached => exact hslots idx row ⟨rfl, rfl⟩
  | Chain run child cached ih => exact ih htree hslots
  | Branch children cached ih => exact fun k => ih k (htree k) fun i row h => hslots i row ⟨k, h⟩
  | _ => trivial

theorem Node.StateTree.unchanged {node : Node} (htree : node.StateTree)
    (haccounts : ∀ i row, node.HasAccount i row → row.original = now.accounts i)
    (hslots : ∀ i row, node.HasSlot i row → row.original = now.storages i) : node.Unchanged now := by
  induction node with
  | Account idx row addrHash storage cached ih =>
    exact ⟨haccounts idx row ⟨rfl, rfl⟩, Node.StorageTree.unchanged htree hslots⟩
  | Storage => exact htree.elim
  | Chain run child cached ih => exact ih htree haccounts hslots
  | Branch children cached ih =>
    exact fun k => ih k (htree k) (fun i row h => haccounts i row ⟨k, h⟩) fun i row h => hslots i row ⟨k, h⟩
  | _ => trivial

-- The new-root pass over the node tree of an accepted stream, at every node it evaluates: what it
-- returns is the fold of the current values without the orphan guard; whenever folding every node
-- anew with the guard returns, the pass returns the same; and a read-only node encodes as in the old root.
theorem reuse_exact (keccak : Bytes → Bytes32) (stream : Bytes) (built : Built) (now : Assignment)
    (h : construct keccak stream = .ok built) :
    (∀ node depth, Visited built.root 0 node depth →
      (∀ r ro, evalNode keccak now node depth = .ok (r, ro) →
        recomputeNode keccak (.Unguarded now) node depth = .ok r ∧
        (ro = true → r.slot keccak (.Current now) = node.result.slot keccak .Original ∧
          r.finalize keccak (.Current now) = node.result.finalize keccak .Original)) ∧
      (∀ r, recomputeNode keccak (.Current now) node depth = .ok r →
        ∃ ro, evalNode keccak now node depth = .ok (r, ro))) ∧
    ((∀ i row, built.accounts[i]? = some row → row.original = now.accounts i) →
      (∀ i row, built.storages[i]? = some row → row.original = now.storages i) →
      calculateNewStateRoot keccak now built.root = .ok built.oldRoot) := by
  obtain ⟨hroot, htype⟩ := construct_folded h
  refine ⟨fun node depth hvisited => ?_, fun haccounts hslots => ?_⟩
  · obtain ⟨⟨walked, rfl, hfolded⟩, hntype⟩ := hvisited.folded hroot htype
    refine ⟨fun r ro heval => ?_, fun r hrec => evalNode_complete node hfolded hntype hrec⟩
    obtain ⟨hexact, hsame⟩ := evalNode_exact node hfolded heval
    refine ⟨hexact, fun hro => ?_⟩
    obtain ⟨rfl, hsameResult⟩ := hsame hro
    rw [← slot_unguarded, ← finalize_unguarded, hsameResult.slot, hsameResult.finalize]
    exact ⟨rfl, rfl⟩
  · obtain ⟨hrowsA, hrowsS⟩ := construct_rows h
    have hsame : built.root.Unchanged now := (construct_stateTree h).unchanged
      (fun i row hrow => haccounts i row ((hrowsA i row).1 hrow))
      fun i row hrow => hslots i row ((hrowsS i row).1 hrow)
    have heval := evalNode_unchanged built.root hroot htype hsame
    obtain ⟨_, hresult⟩ := (evalNode_exact built.root hroot heval).2 rfl
    obtain ⟨_, _, _, _, _, hold, _⟩ := construct_ok h
    rw [hresult.finalize, finalize_unguarded] at hold
    exact bind_eq_ok.2 ⟨_, heval, hold⟩

-- Two accounts below the root: address 2 exists, address 1 is absent beside an unrevealed subtree.
def digestOne : Bytes32 :=
  digestOf 0x1468288056310c82aa4c01a7e12a10f8111a0560e72b700555479031b86c357d

def digestTwo : Bytes32 :=
  digestOf 0xd52688a8f926c816ca1e079067caba944f158e764817b83fc43594370ca9cf62

def sibling (nonce : UInt64) : Fields := ⟨nonce, 5, kEmptyCodeHash⟩

def absent : Fields := ⟨0, 0, kEmptyCodeHash⟩

def collapsed : InputGen.Tree :=
  .Branch fun i =>
    if i = 1 then
      .Branch fun j =>
        if j = 0 then .Hash (digestOf 0xaa)
        else if j = 4 then .Account ((nibblesOf digestOne.toList).drop 2) (addressOf 1) absent .Empty
        else .Empty
    else if i = 13 then
      .Account ((nibblesOf digestTwo.toList).drop 1) (addressOf 2) (sibling 1) .Empty
    else .Empty

def siblingLeaf (nonce : UInt64) : Bytes :=
  encode (leafItem ((nibblesOf digestTwo.toList).drop 1) (accountValue (sibling nonce) kEmptyTrieRoot))

def rootNode (leaf : Bytes32) : Bytes :=
  encode (branchItem fun i =>
    if i = 1 then
      .Str (digestOf 0xdf2b91c47a15f33bfd4714540531810dcc2f10a4c51c8937bac6e278751c7af8).toList
    else if i = 13 then .Str leaf.toList
    else .Str [])

def leafBefore : Bytes32 :=
  digestOf 0x3b0142313edde25ebdd7c8cf1b09865a81bfd34ff5da4d24069d078f6847c2c3

def leafAfter : Bytes32 :=
  digestOf 0xaad42b56c6fb8199dc9878e28fc0b907413dea202a812bc172282150689a7234

def collapsedKeccak : Bytes → Bytes32 :=
  tableKeccak
    [((addressOf 1).toList, digestOne), ((addressOf 2).toList, digestTwo),
     (siblingLeaf 1, leafBefore), (siblingLeaf 2, leafAfter),
     (encode (extItem [0] (.Str (digestOf 0xaa).toList)),
       digestOf 0xdf2b91c47a15f33bfd4714540531810dcc2f10a4c51c8937bac6e278751c7af8),
     (rootNode leafBefore, digestOf 0x26b99a89443177a6dc6b4c56990d54ca947ca2728feb83663e8f127b24fa3a1c),
     (rootNode leafAfter, digestOf 0xca8f199c470750f6b58017184210f36a1f6be4aee34dec044d534163afed70e8)]

def raised : Assignment := ⟨fun i => if i = 1 then sibling 2 else absent, fun _ => 0⟩

theorem collapsed_eval :
    (construct collapsedKeccak (InputGen.writeSection collapsed) >>= fun built =>
      (evalNode collapsedKeccak raised built.root 0).map Prod.snd) = .ok false := by
  decide +kernel

theorem reuse_exact_siblingRaised :
    ∃ built r, construct collapsedKeccak (InputGen.writeSection collapsed) = .ok built ∧
      evalNode collapsedKeccak raised built.root 0 = .ok (r, false) ∧
      recomputeNode collapsedKeccak (.Unguarded raised) built.root 0 = .ok r := by
  obtain ⟨built, hbuilt, h⟩ := bind_eq_ok.1 collapsed_eval
  obtain ⟨⟨r, ro⟩, heval, hro⟩ := map_eq_ok.1 h
  subst hro
  have hexact := reuse_exact collapsedKeccak _ built raised hbuilt
  exact ⟨built, r, hbuilt, heval, ((hexact.1 _ _ .Root).1 r false heval).1⟩

-- The untouched branch above address 1 folds to the one hash the stream does not open. Folding it
-- anew halts on the orphan guard; the pass reuses the old result and returns.
theorem recompute_halts_on_reused_branch :
    ∃ built r ro, construct collapsedKeccak (InputGen.writeSection collapsed) = .ok built ∧
      evalNode collapsedKeccak raised built.root 0 = .ok (r, ro) ∧
      recomputeNode collapsedKeccak (.Current raised) built.root 0 =
        .error "state_root: unresolved orphan sibling after branch collapse" := by
  have hhalt : (construct collapsedKeccak (InputGen.writeSection collapsed) >>= fun built =>
      (recomputeNode collapsedKeccak (.Current raised) built.root 0).map fun _ => ()) =
        .error "state_root: unresolved orphan sibling after branch collapse" := by
    decide +kernel
  obtain ⟨built, hbuilt, h⟩ := bind_eq_ok.1 collapsed_eval
  obtain ⟨⟨r, ro⟩, heval, _⟩ := map_eq_ok.1 h
  refine ⟨built, r, ro, hbuilt, heval, ?_⟩
  rw [hbuilt] at hhalt
  exact map_eq_error.1 hhalt

end Zeg.StateRoot
