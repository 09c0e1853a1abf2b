import Zeg.StateRoot.Reuse

-- A chain stands for a run of one-child branches: replacing every chain by such a run changes no
-- result, in either pass.
namespace Zeg.StateRoot

open Base Base.Rlp Base.Patricia Zeg.Stream List

variable {keccak : Bytes → Bytes32} {now : Assignment}

def single (nibble : Nibble) (node : Node) : Nibble → Node := fun j => if j = nibble then node else .Empty

-- One branch node a nibble above `child`, each folded by `reduce_branch`.
def nest (keccak : Bytes → Bytes32) : Path → Node → Except String Node
  | [], child => .ok child
  | nibble :: run, child => do
    let inner ← nest keccak run child
    let cached ← reduceBranch keccak .Original (fun j => (single nibble inner j).type)
      fun j => (single nibble inner j).result
    return .Branch (single nibble inner) cached

-- The tree with every chain spelled out.
def Node.expand (keccak : Bytes → Bytes32) : Node → Except String Node
  | .Account idx row addrHash storage cached => do
    let storage ← storage.expand keccak
    return .Account idx row addrHash storage cached
  | .Chain run child _ => do
    let child ← child.expand keccak
    nest keccak run.nibbles child
  | .Branch children cached => do
    let children ← collect 16 fun k => (children k).expand keccak
    return .Branch children cached
  | node => .ok node

def Node.NoChain : Node → Prop
  | .Account _ _ _ storage _ => storage.NoChain
  | .Chain _ _ _ => False
  | .Branch children _ => ∀ k, (children k).NoChain
  | _ => True

theorem countSlots_le_one {p : Nibble → Bool} (nibble : Nibble) (h : ∀ j, p j = true → j = nibble) :
    countSlots p ≤ 1 := by
  unfold countSlots
  have hnodup := (nodup_finRange 16).filter p
  have hmem := fun j => mem_filter_finRange p j
  generalize (List.finRange 16).filter p = used at hnodup hmem
  match used with
  | [] => simp
  | [_] => simp
  | i :: j :: rest =>
    have hi := h i ((hmem i).1 (by simp))
    have hj := h j ((hmem j).1 (by simp))
    simp [hi, hj] at hnodup

variable {nibble : Nibble} {types : Nibble → NodeType}

-- A branch with one child folds it as a chain does, and its guard never halts.
theorem reduceBranch_single (which : ValueSet) {results : Nibble → NodeR} (htypes : ∀ j, j ≠ nibble → types j = .Empty)
    (hresults : ∀ j, j ≠ nibble → results j = .EmptyR) :
    reduceBranch keccak which types results = foldNibble nibble (results nibble) := by
  have hpool : countSlots (fun k => types k == .PoolHash) ≤ 1 := by
    apply countSlots_le_one nibble
    intro j hj
    by_contra hne
    simp [htypes j hne] at hj
  have hcount : countSlots (fun k => types k != .Empty) ≤ 1 := by
    apply countSlots_le_one nibble
    intro j hj
    by_contra hne
    simp [htypes j hne] at hj
  have horphan : checkOrphan which types = .ok () := by
    unfold checkOrphan
    rw [decide_eq_false (by omega)]
    simp
  have hguard : orphanGuard which types nibble (results nibble) = .ok () := by
    unfold orphanGuard
    simp only [horphan]
    split
    · split <;> rfl
    · rfl
  rw [reduceBranch_eq, if_neg (by omega)]
  by_cases hempty : (results nibble).isEmpty = true
  · have hnone : (occupied fun k => !(results k).isEmpty) = .None := by
      refine occupied_none.2 fun j => ?_
      by_cases hj : j = nibble
      · simp [hj, hempty]
      · simp [hresults j hj, NodeR.isEmpty]
    rw [hnone]
    cases hr : results nibble <;> rw [hr] at hempty <;> first | rfl | cases hempty
  · have hone : (occupied fun k => !(results k).isEmpty) = .One nibble := by
      refine occupied_one.2 ⟨by simpa using hempty, fun j hj => ?_⟩
      by_contra hne
      simp [hresults j hne, NodeR.isEmpty] at hj
    rw [hone]
    exact (congrArg (· >>= fun _ => foldNibble nibble (results nibble)) hguard).trans rfl

theorem single_self (nibble : Nibble) (node : Node) : single nibble node nibble = node := if_pos rfl

theorem single_ne {j : Nibble} (h : j ≠ nibble) (node : Node) : single nibble node j = .Empty := if_neg h

variable {run : Path} {child : Node} {cached : NodeR}

theorem nest_result (h : chainResult run child.result = .ok cached) :
    ∃ nested, nest keccak run child = .ok nested ∧ nested.result = cached := by
  induction run generalizing cached with
  | nil =>
    cases h
    exact ⟨child, rfl, rfl⟩
  | cons nibble run ih =>
    obtain ⟨folded, hinner, hfold⟩ := bind_eq_ok.1 h
    obtain ⟨inner, hnest, rfl⟩ := ih hinner
    have hreduce : reduceBranch keccak .Original (fun j => (single nibble inner j).type)
        (fun j => (single nibble inner j).result) = .ok cached := by
      rw [reduceBranch_single .Original (fun j hj => by rw [single_ne hj]; rfl)
        (fun j hj => by rw [single_ne hj]; rfl), single_self]
      exact hfold
    exact ⟨_, bind_eq_ok.2 ⟨inner, hnest, bind_eq_ok.2 ⟨cached, hreduce, rfl⟩⟩, rfl⟩

-- What the new-root pass does with a run of branches above a child that gave `child`.
def afterChild (run : Path) (cached : NodeR) (child : Except String (NodeR × Bool)) :
    Except String (NodeR × Bool) := do
  let (result, ro) ← child
  if ro then return (cached, true)
  else
    let result ← chainResult run result
    return (result, false)

theorem evalNode_chain (run : PackedPath) (child : Node) (cached : NodeR) (depth : Nat) :
    evalNode keccak now (.Chain run child cached) depth =
      if child.isFixed then .ok (cached, true)
      else afterChild run.nibbles cached (evalNode keccak now child (depth + run.nibbles.length)) := by
  rw [evalNode]
  rfl

def evalChild (keccak : Bytes → Bytes32) (now : Assignment) (node : Node) (depth : Nat) :
    Except String (NodeR × Bool) :=
  if node.isFixed then .ok (node.result, true) else evalNode keccak now node depth

def afterChildren (keccak : Bytes → Bytes32) (now : Assignment) (types : Nibble → NodeType) (cached : NodeR)
    (results : Nibble → NodeR × Bool) : Except String (NodeR × Bool) :=
  if (List.finRange 16).all fun k => (results k).2 then .ok (cached, true)
  else do
    let result ← reduceBranch keccak (.Current now) types fun k => (results k).1
    return (result, false)

theorem evalNode_branch (children : Nibble → Node) (cached : NodeR) (depth : Nat) :
    evalNode keccak now (.Branch children cached) depth =
      (collect 16 fun k => evalChild keccak now (children k) (depth + 1)) >>=
        afterChildren keccak now (fun k => (children k).type) cached := by
  rw [evalNode]
  rfl

theorem afterChildren_single {results : Nibble → NodeR × Bool} (htypes : ∀ j, j ≠ nibble → types j = .Empty)
    (hresults : ∀ j, j ≠ nibble → results j = (.EmptyR, true)) :
    afterChildren keccak now types cached results = afterChild [nibble] cached (.ok (results nibble)) := by
  have hall : ((List.finRange 16).all fun k => (results k).2) = (results nibble).2 := by
    rw [Bool.eq_iff_iff, all_eq_true]
    refine ⟨fun h => h nibble (mem_finRange nibble), fun h j _ => ?_⟩
    by_cases hj : j = nibble
    · exact hj ▸ h
    · rw [hresults j hj]
  unfold afterChildren
  rw [hall, reduceBranch_single (.Current now) htypes fun j hj => congrArg Prod.fst (hresults j hj)]
  cases results nibble with
  | mk result ro => cases ro <;> rfl

theorem evalNode_single (nibble : Nibble) (inner : Node) (cached : NodeR) (depth : Nat) :
    evalNode keccak now (.Branch (single nibble inner) cached) depth =
      afterChild [nibble] cached (evalChild keccak now inner (depth + 1)) := by
  have hothers : ∀ j, j ≠ nibble →
      evalChild keccak now (single nibble inner j) (depth + 1) = .ok (.EmptyR, true) := by
    intro j hj
    rw [single_ne hj]
    rfl
  have hself : evalChild keccak now (single nibble inner nibble) (depth + 1) =
      evalChild keccak now inner (depth + 1) := by
    rw [single_self]
  rw [evalNode_branch]
  cases hresult : evalChild keccak now inner (depth + 1) with
  | error e =>
    rw [collect_error (hself.trans hresult) fun j hj => ⟨_, hothers j hj⟩]
    rfl
  | ok outcome =>
    have hcollect : (collect 16 fun k => evalChild keccak now (single nibble inner k) (depth + 1)) =
        .ok fun j => if j = nibble then outcome else (.EmptyR, true) := by
      refine collect_eq_ok.2 fun j => ?_
      by_cases hj : j = nibble
      · rw [if_pos hj, hj, hself, hresult]
      · rw [if_neg hj, hothers j hj]
    rw [hcollect]
    refine (afterChildren_single (fun j hj => ?_) fun j hj => if_neg hj).trans ?_
    · rw [single_ne hj]
      rfl
    · rw [if_pos rfl]

theorem afterChild_afterChild (nibble : Nibble) (run : Path) (outer inner : NodeR)
    (child : Except String (NodeR × Bool)) :
    afterChild [nibble] outer (afterChild run inner child) = afterChild (nibble :: run) outer child := by
  cases child with
  | error e => rfl
  | ok outcome =>
    obtain ⟨result, ro⟩ := outcome
    cases ro with
    | true => rfl
    | false =>
      show afterChild [nibble] outer (do let r ← chainResult run result; return (r, false)) =
        (do let r ← (do let r ← chainResult run result; foldNibble nibble r); return (r, false))
      cases chainResult run result with
      | error e => rfl
      | ok r => rfl

variable {nested : Node}

theorem nest_type (hrun : run ≠ []) (h : nest keccak run child = .ok nested) :
    nested.type = .Branch := by
  cases run with
  | nil => exact absurd rfl hrun
  | cons nibble run =>
    obtain ⟨inner, _, h⟩ := bind_eq_ok.1 h
    obtain ⟨_, _, h⟩ := bind_eq_ok.1 h
    cases h
    rfl

variable {node : Node}

theorem not_fixed_of_type (h : node.type = .Branch ∨ node.type = .Chain) : node.isFixed = false := by
  cases node <;> simp_all [Node.type, Node.isFixed]

theorem evalChild_of_type (h : node.type = .Branch) (depth : Nat) :
    evalChild keccak now node depth = evalNode keccak now node depth := by
  unfold evalChild
  rw [not_fixed_of_type (.inl h)]
  rfl

theorem evalNode_nest (hrun : run ≠ []) (hcached : chainResult run child.result = .ok cached)
    (hnest : nest keccak run child = .ok nested) (depth : Nat) :
    evalNode keccak now nested depth =
      afterChild run cached (evalChild keccak now child (depth + run.length)) := by
  induction run generalizing nested cached depth with
  | nil => exact absurd rfl hrun
  | cons nibble run ih =>
    obtain ⟨_, hsame, hresult⟩ := @nest_result keccak _ _ _ hcached
    rw [hnest] at hsame
    cases hsame
    obtain ⟨inner, hinner, hnest⟩ := bind_eq_ok.1 hnest
    obtain ⟨_, _, hnest⟩ := bind_eq_ok.1 hnest
    cases hnest
    cases hresult
    obtain ⟨folded, hfolded, _⟩ := bind_eq_ok.1 hcached
    rw [evalNode_single]
    by_cases hnil : run = []
    · subst hnil
      cases hinner
      rfl
    · rw [evalChild_of_type (nest_type hnil hinner), ih hnil hfolded hinner (depth + 1),
        afterChild_afterChild, length_cons, Nat.add_assoc, Nat.add_comm 1]
      rfl

-- What an expanded node shares with the original, as far as its parent can tell.
structure Alike (keccak : Bytes → Bytes32) (node nested : Node) (depth : Nat) : Prop where
  result : nested.result = node.result
  fixed : nested.isFixed = node.isFixed
  type : nested.type = node.type ∨ (nested.type = .Branch ∧ node.type = .Chain)
  eval : ∀ now, evalNode keccak now nested depth = evalNode keccak now node depth

theorem reduceBranch_types {which : ValueSet} {types' : Nibble → NodeType} {results : Nibble → NodeR}
    (h : ∀ k, types' k = types k ∨ (types' k = .Branch ∧ types k = .Chain)) :
    reduceBranch keccak which types' results = reduceBranch keccak which types results := by
  have htest : ∀ (t : NodeType) k, t ≠ .Branch → t ≠ .Chain → (types' k == t) = (types k == t) := by
    intro t k hb hc
    obtain heq | ⟨hb', hc'⟩ := h k
    · rw [heq]
    · rw [hb', hc', beq_eq_false_iff_ne.2 hb.symm, beq_eq_false_iff_ne.2 hc.symm]
  have hpool := fun k => htest .PoolHash k nofun nofun
  have hhash := fun k => htest .Hash k nofun nofun
  have hempty := fun k => htest .Empty k nofun nofun
  have horphan : checkOrphan which types' = checkOrphan which types := by
    simp only [checkOrphan, bne, hempty]
  have hguard : ∀ k r, orphanGuard which types' k r = orphanGuard which types k r := by
    intro k r
    cases r <;> simp only [orphanGuard, hpool, hhash, horphan]
  rw [reduceBranch_eq, reduceBranch_eq]
  simp only [hpool, hguard]

theorem nest_noChain (hchild : child.NoChain) (h : nest keccak run child = .ok nested) : nested.NoChain := by
  induction run generalizing nested with
  | nil =>
    cases h
    exact hchild
  | cons nibble run ih =>
    obtain ⟨inner, hinner, h⟩ := bind_eq_ok.1 h
    obtain ⟨_, _, h⟩ := bind_eq_ok.1 h
    cases h
    intro j
    by_cases hj : j = nibble
    · rw [hj, single_self]
      exact ih hinner
    · rw [single_ne hj]
      trivial

theorem Visited.trans {a b c : Node} {s d e : Nat} (h : Visited a s b d) (h' : Visited b d c e) :
    Visited a s c e := by
  induction h' with
  | Root => exact h
  | Storage _ ih => exact .Storage ih
  | Chain _ hfixed ih => exact .Chain ih hfixed
  | Branch k _ hfixed ih => exact .Branch k ih hfixed

theorem nest_visited (hfixed : child.isFixed = false) (hnest : nest keccak run child = .ok nested) (depth : Nat) :
    Visited nested depth child (depth + run.length) := by
  induction run generalizing nested depth with
  | nil =>
    cases hnest
    exact .Root
  | cons nibble run ih =>
    obtain ⟨inner, hinner, hnest⟩ := bind_eq_ok.1 hnest
    obtain ⟨cached, _, hnest⟩ := bind_eq_ok.1 hnest
    cases hnest
    have hinnerFixed : inner.isFixed = false := by
      by_cases hnil : run = []
      · subst hnil
        cases hinner
        exact hfixed
      · exact not_fixed_of_type (.inl (nest_type hnil hinner))
    have hstep : Visited (.Branch (single nibble inner) cached) depth inner (depth + 1) := by
      have hroot : Visited (.Branch (single nibble inner) cached) depth
          (.Branch (single nibble inner) cached) depth := .Root
      have hbranch := Visited.Branch nibble hroot (by rw [single_self]; exact hinnerFixed)
      rwa [single_self] at hbranch
    have hrest := ih hinner (depth + 1)
    rw [Nat.add_assoc, Nat.add_comm 1] at hrest
    exact hstep.trans hrest

theorem evalChild_alike {depth : Nat} (h : Alike keccak node nested depth) :
    evalChild keccak now nested depth = evalChild keccak now node depth := by
  unfold evalChild
  rw [h.fixed, h.result, h.eval]

theorem expand_alike (node : Node) {walked : Path} (hfolded : node.Folded keccak walked) :
    ∃ nested, node.expand keccak = .ok nested ∧ nested.NoChain ∧ Alike keccak node nested walked.length := by
  induction node generalizing walked with
  | Account idx row addrHash storage cached ih =>
    obtain ⟨nested, hexpand, hno, halike⟩ := @ih [] hfolded.1
    refine ⟨_, bind_eq_ok.2 ⟨nested, hexpand, rfl⟩, hno, rfl, rfl, .inl rfl, fun now => ?_⟩
    have heval : evalNode keccak now nested 0 = evalNode keccak now storage 0 := halike.eval now
    simp only [evalNode, heval]
  | Chain run child cached ih =>
    obtain ⟨hchild, _, hrun, hcached⟩ := hfolded
    obtain ⟨child', hexpand, hno, halike⟩ := ih hchild
    rw [← halike.result] at hcached
    obtain ⟨nested, hnest, hresult⟩ := @nest_result keccak _ _ _ hcached
    have htype := nest_type hrun hnest
    refine ⟨nested, bind_eq_ok.2 ⟨child', hexpand, hnest⟩, nest_noChain hno hnest, hresult,
      not_fixed_of_type (.inl htype), .inr ⟨htype, rfl⟩, fun now => ?_⟩
    rw [evalNode_nest hrun hcached hnest, evalNode_chain, ← length_append, evalChild_alike halike]
    unfold evalChild
    split <;> rfl
  | Branch children cached ih =>
    have hchild := fun k => ih k (hfolded.1 k)
    choose nested hexpand hno halike using hchild
    refine ⟨_, bind_eq_ok.2 ⟨nested, collect_eq_ok.2 hexpand, rfl⟩, hno, rfl, rfl, .inl rfl, fun now => ?_⟩
    have hvisit : ∀ k, evalChild keccak now (nested k) (walked.length + 1) =
        evalChild keccak now (children k) (walked.length + 1) := by
      intro k
      have h := @evalChild_alike keccak now _ _ _ (halike k)
      rwa [length_append] at h
    rw [evalNode_branch, evalNode_branch]
    simp only [hvisit]
    unfold afterChildren
    simp only [reduceBranch_types fun k => (halike k).type]
  | _ => exact ⟨_, rfl, trivial, rfl, rfl, .inl rfl, fun _ => rfl⟩

-- At every node the new-root pass evaluates, spelling out the chains below it as one branch node a
-- nibble changes neither the old-root result nor the outcome of the pass, halts included; and below
-- the branches of a chain the child is evaluated at the depth the chain passes.
theorem chains_exact (keccak : Bytes → Bytes32) (stream : Bytes) (built : Built)
    (h : construct keccak stream = .ok built) (node : Node) (depth : Nat)
    (hnode : Visited built.root 0 node depth) :
    (∃ nested, node.expand keccak = .ok nested ∧ nested.NoChain ∧ nested.result = node.result ∧
      ∀ now, evalNode keccak now nested depth = evalNode keccak now node depth) ∧
    ∀ run child cached, node = .Chain run child cached →
      ∃ nested, nest keccak run.nibbles child = .ok nested ∧ nested.result = cached ∧
        (∀ now, evalNode keccak now nested depth = evalNode keccak now node depth) ∧
        (child.isFixed = false → Visited nested depth child (depth + run.nibbles.length)) := by
  obtain ⟨hroot, htype⟩ := construct_folded h
  obtain ⟨⟨walked, rfl, hfolded⟩, _⟩ := hnode.folded hroot htype
  constructor
  · obtain ⟨nested, hexpand, hno, halike⟩ := expand_alike node hfolded
    exact ⟨nested, hexpand, hno, halike.result, halike.eval⟩
  · rintro run child cached rfl
    obtain ⟨_, _, hrun, hcached⟩ := hfolded
    obtain ⟨nested, hnest, hresult⟩ := @nest_result keccak _ _ _ hcached
    refine ⟨nested, hnest, hresult, fun now => ?_, fun hfixed => nest_visited hfixed hnest walked.length⟩
    rw [evalNode_nest hrun hcached hnest, evalNode_chain]
    unfold evalChild
    split <;> rfl

-- Address 1 below a run of two one-child branches.
def runTree : InputGen.Tree :=
  .Branch fun i =>
    if i = 1 then
      .Branch fun j =>
        if j = 4 then .Account ((nibblesOf digestOne.toList).drop 2) (addressOf 1) (sibling 1) .Empty
        else .Empty
    else .Empty

def runKeccak : Bytes → Bytes32 :=
  tableKeccak
    [((addressOf 1).toList, digestOne),
     (encode (leafItem (nibblesOf digestOne.toList) (accountValue (sibling 1) kEmptyTrieRoot)),
       digestOf 0x097c864f157464c1b7c60bda553d06a919fc2c1b52b969ee8d2f3faad7249250)]

theorem chains_exact_runOfTwo :
    ∃ built run child cached nested, construct runKeccak (InputGen.writeSection runTree) = .ok built ∧
      built.root = .Chain run child cached ∧ run.nibbles = [1, 4] ∧
      nest runKeccak [1, 4] child = .ok nested ∧ nested.result = cached ∧ Visited nested 0 child 2 := by
  have hrun : (construct runKeccak (InputGen.writeSection runTree)).map (fun built =>
      match built.root with
      | .Chain run child _ => (run.nibbles, child.isFixed)
      | .Branch _ _ => ([], false)
      | _ => ([], true)) = .ok ([1, 4], false) := by
    decide +kernel
  obtain ⟨built, hbuilt, hroot⟩ := map_eq_ok.1 hrun
  cases hcase : built.root with
  | Chain run child cached =>
    rw [hcase] at hroot
    obtain ⟨hnibbles, hfixed⟩ := Prod.mk.inj hroot
    obtain ⟨nested, hnest, hresult, _, hvisited⟩ :=
      (chains_exact runKeccak _ built hbuilt built.root 0 .Root).2 run child cached hcase
    rw [hnibbles] at hnest hvisited
    exact ⟨built, run, child, cached, nested, hbuilt, hcase, hnibbles, hnest, hresult, hvisited hfixed⟩
  | _ =>
    rw [hcase] at hroot
    cases hroot

end Zeg.StateRoot
