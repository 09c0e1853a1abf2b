import Mathlib.Algebra.Group.Nat.Defs
import Mathlib.Data.Set.Function
import Mathlib.Logic.Function.Basic

-- Binary hash trees, bounded and progressive, and what their roots commit to.
namespace Zeg.Base.Merkle

open List

variable {α : Type}

inductive HashTree (α : Type) where
  | Leaf (a : α)
  | Node (left right : HashTree α)

def HashTree.root (hash : α → α → α) : HashTree α → α
  | .Leaf a => a
  | .Node left right => hash (left.root hash) (right.root hash)

def HashTree.pairs (hash : α → α → α) : HashTree α → List (α × α)
  | .Leaf _ => []
  | .Node left right => (left.root hash, right.root hash) :: (left.pairs hash ++ right.pairs hash)

def HashTree.leaves : HashTree α → List α
  | .Leaf a => [a]
  | .Node left right => left.leaves ++ right.leaves

def HashTree.Full : Nat → HashTree α → Prop
  | 0, .Leaf _ => True
  | d + 1, .Node left right => left.Full d ∧ right.Full d
  | _, _ => False

def perfect (zero : α) : Nat → List (HashTree α) → HashTree α
  | 0, ts => ts.headD (.Leaf zero)
  | d + 1, ts => .Node (perfect zero d (ts.take (2 ^ d))) (perfect zero d (ts.drop (2 ^ d)))

-- A spine of trees of depth 0, 2, 4, ... that ends in `zero`. A level takes a tree at least.
def progressive (zero : α) : Nat → Nat → List (HashTree α) → HashTree α
  | 0, _, _ => .Leaf zero
  | fuel + 1, level, ts =>
    if ts.isEmpty then .Leaf zero
    else .Node (perfect zero (2 * level) (ts.take (4 ^ level))) (progressive zero fuel (level + 1) (ts.drop (4 ^ level)))

-- The same with a mark beside it: a length, or which fields are there.
def marked (zero mark : α) (ts : List (HashTree α)) : HashTree α := .Node (progressive zero ts.length 0 ts) (.Leaf mark)

variable {hash : α → α → α} {zero : α} {ts ts' : List (HashTree α)}

theorem pairs_left (left right : HashTree α) : left.pairs hash ⊆ (HashTree.Node left right).pairs hash :=
  List.Subset.trans (subset_append_left _ _) (subset_cons_self _ _)

theorem pairs_right (left right : HashTree α) : right.pairs hash ⊆ (HashTree.Node left right).pairs hash :=
  List.Subset.trans (subset_append_right _ _) (subset_cons_self _ _)

theorem pairs_perfect {d : Nat} (hle : ts.length ≤ 2 ^ d) {t : HashTree α} (ht : t ∈ ts) :
    t.pairs hash ⊆ (perfect zero d ts).pairs hash := by
  induction d generalizing ts with
  | zero =>
    obtain ⟨u, rfl⟩ := length_eq_one_iff.1 (Nat.le_antisymm hle (length_pos_of_mem ht))
    rw [mem_singleton.1 ht]
    exact fun _ h => h
  | succ d ih =>
    rw [← take_append_drop (2 ^ d) ts, mem_append] at ht
    obtain ht | ht := ht
    · exact fun _ h => pairs_left _ _ (ih (length_take_le _ _) ht h)
    · refine fun _ h => pairs_right _ _ (ih ?_ ht h)
      rw [length_drop]
      omega

theorem pairs_progressive {fuel level : Nat} (hle : ts.length ≤ fuel) {t : HashTree α} (ht : t ∈ ts) :
    t.pairs hash ⊆ (progressive zero fuel level ts).pairs hash := by
  induction fuel generalizing level ts with
  | zero =>
    rw [length_eq_zero_iff.1 (Nat.le_zero.1 hle)] at ht
    cases ht
  | succ fuel ih =>
    have hne : ts.isEmpty = false := isEmpty_eq_false_iff_exists_mem.2 ⟨t, ht⟩
    have hpos : 0 < 4 ^ level := Nat.pow_pos (by omega)
    rw [progressive, hne]
    rw [← take_append_drop (4 ^ level) ts, mem_append] at ht
    obtain ht | ht := ht
    · refine fun _ h => pairs_left _ _ (pairs_perfect ?_ ht h)
      rw [Nat.pow_mul]
      exact length_take_le _ _
    · refine fun _ h => pairs_right _ _ (ih ?_ ht h)
      rw [length_drop]
      omega

theorem perfect_full (d : Nat) (leaves : List α) : (perfect zero d (leaves.map .Leaf)).Full d := by
  induction d generalizing leaves with
  | zero =>
    cases leaves with
    | nil => trivial
    | cons a rest => trivial
  | succ d ih =>
    rw [perfect, ← map_take, ← map_drop]
    exact ⟨ih _, ih _⟩

theorem perfect_leaves {d : Nat} {leaves : List α} (hle : leaves.length ≤ 2 ^ d) :
    (perfect zero d (leaves.map .Leaf)).leaves = leaves ++ List.replicate (2 ^ d - leaves.length) zero := by
  induction d generalizing leaves with
  | zero =>
    match leaves, hle with
    | [], _ => rfl
    | [a], _ => rfl
  | succ d ih =>
    have htake := @ih (leaves.take (2 ^ d)) (length_take_le _ _)
    have hdrop := @ih (leaves.drop (2 ^ d)) (by rw [length_drop]; omega)
    rw [perfect, HashTree.leaves, ← map_take, ← map_drop, htake, hdrop, length_take, length_drop,
      Nat.pow_succ]
    by_cases hshort : leaves.length ≤ 2 ^ d
    · rw [take_of_length_le hshort, drop_of_length_le hshort, nil_append, append_assoc,
        replicate_append_replicate]
      congr 2
      omega
    · rw [Nat.min_eq_left (by omega), Nat.sub_self, replicate_zero, append_nil, ← append_assoc,
        take_append_drop]
      congr 2
      omega

theorem eq_of_map_eq {β γ : Type} {f : β → γ} {xs ys : List β} (hf : ∀ x ∈ xs, ∀ y ∈ ys, f x = f y → x = y)
    (h : xs.map f = ys.map f) : xs = ys := by
  induction xs generalizing ys with
  | nil =>
    cases ys with
    | nil => rfl
    | cons y ys => cases h
  | cons x xs ih =>
    cases ys with
    | nil => cases h
    | cons y ys =>
      obtain ⟨hhead, htail⟩ := List.cons.inj h
      rw [hf x mem_cons_self y mem_cons_self hhead,
        ih (fun x hx y hy => hf x (mem_cons_of_mem _ hx) y (mem_cons_of_mem _ hy)) htail]

section

variable {known : List (α × α)} (hinj : Set.InjOn (Function.uncurry hash) { pair | pair ∈ known })

include hinj

theorem node_injective {l r l' r' : HashTree α} (h : (HashTree.Node l r).pairs hash ⊆ known)
    (h' : (HashTree.Node l' r').pairs hash ⊆ known) (hroot : (HashTree.Node l r).root hash = (HashTree.Node l' r').root hash) :
    l.root hash = l'.root hash ∧ r.root hash = r'.root hash :=
  Prod.mk.inj (hinj (h mem_cons_self) (h' mem_cons_self) hroot)

theorem perfect_injective {d : Nat} (hlen : ts.length = ts'.length) (hle : ts.length ≤ 2 ^ d)
    (h : (perfect zero d ts).pairs hash ⊆ known) (h' : (perfect zero d ts').pairs hash ⊆ known)
    (hroot : (perfect zero d ts).root hash = (perfect zero d ts').root hash) :
    ts.map (HashTree.root hash) = ts'.map (HashTree.root hash) := by
  induction d generalizing ts ts' with
  | zero =>
    match ts, ts', hlen, hle with
    | [], [], _, _ => rfl
    | [t], [t'], _, _ => exact congrArg (· :: []) hroot
  | succ d ih =>
    obtain ⟨hleft, hright⟩ := node_injective hinj h h' hroot
    have htake := ih (by rw [length_take, length_take, hlen]) (length_take_le _ _)
      (fun _ hp => h (pairs_left _ _ hp)) (fun _ hp => h' (pairs_left _ _ hp)) hleft
    have hdrop := ih (by rw [length_drop, length_drop, hlen]) (by rw [length_drop]; omega)
      (fun _ hp => h (pairs_right _ _ hp)) (fun _ hp => h' (pairs_right _ _ hp)) hright
    rw [← take_append_drop (2 ^ d) ts, ← take_append_drop (2 ^ d) ts', map_append, map_append,
      htake, hdrop]

theorem progressive_injective {fuel level : Nat} (hlen : ts.length = ts'.length) (hle : ts.length ≤ fuel)
    (h : (progressive zero fuel level ts).pairs hash ⊆ known) (h' : (progressive zero fuel level ts').pairs hash ⊆ known)
    (hroot : (progressive zero fuel level ts).root hash = (progressive zero fuel level ts').root hash) :
    ts.map (HashTree.root hash) = ts'.map (HashTree.root hash) := by
  induction fuel generalizing level ts ts' with
  | zero =>
    have hts := length_eq_zero_iff.1 (Nat.le_zero.1 hle)
    subst hts
    rw [length_eq_zero_iff.1 hlen.symm]
  | succ fuel ih =>
    cases hts : ts with
    | nil =>
      rw [hts] at hlen
      rw [length_eq_zero_iff.1 hlen.symm]
    | cons t rest =>
      have hne : ts.isEmpty = false := by rw [hts]; rfl
      have hne' : ts'.isEmpty = false := by
        rw [isEmpty_eq_false_iff]
        rintro rfl
        rw [hts] at hlen
        cases hlen
      have hpos : 0 < 4 ^ level := Nat.pow_pos (by omega)
      rw [← hts]
      rw [progressive, hne] at h hroot
      rw [progressive, hne'] at h' hroot
      obtain ⟨hleft, hright⟩ := node_injective hinj h h' hroot
      have htake := perfect_injective hinj (by rw [length_take, length_take, hlen])
        (by rw [Nat.pow_mul]; exact length_take_le _ _)
        (fun _ hp => h (pairs_left _ _ hp)) (fun _ hp => h' (pairs_left _ _ hp)) hleft
      have hdrop := ih (by rw [length_drop, length_drop, hlen])
        (by rw [length_drop]; have := congrArg List.length hts; simp at this; omega)
        (fun _ hp => h (pairs_right _ _ hp)) (fun _ hp => h' (pairs_right _ _ hp)) hright
      rw [← take_append_drop (4 ^ level) ts, ← take_append_drop (4 ^ level) ts', map_append,
        map_append, htake, hdrop]

theorem marked_injective {mark mark' : α} (hlen : mark = mark' → ts.length = ts'.length)
    (h : (marked zero mark ts).pairs hash ⊆ known) (h' : (marked zero mark' ts').pairs hash ⊆ known)
    (hroot : (marked zero mark ts).root hash = (marked zero mark' ts').root hash) :
    mark = mark' ∧ ts.map (HashTree.root hash) = ts'.map (HashTree.root hash) := by
  obtain ⟨hleft, hmark⟩ := node_injective hinj h h' hroot
  have hsame := hlen hmark
  refine ⟨hmark, progressive_injective hinj hsame (Nat.le_refl _) (fun _ hp => h (pairs_left _ _ hp)) ?_ ?_⟩
  · rw [hsame]
    exact fun _ hp => h' (pairs_left _ _ hp)
  · rw [hleft, hsame]

end

theorem pairs_marked {mark : α} {t : HashTree α} (ht : t ∈ ts) : t.pairs hash ⊆ (marked zero mark ts).pairs hash :=
  fun _ h => pairs_left _ _ (pairs_progressive (Nat.le_refl _) ht h)

end Zeg.Base.Merkle
