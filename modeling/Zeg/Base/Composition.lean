import Zeg.Base.Patricia

-- The trie of a map whose keys may begin one another, node by node as the Yellow Paper composes it.
namespace Zeg.Base.Composition

open Base.Rlp Base.Patricia List

abbrev Entries := Path → Option Bytes

def after (m : Entries) (path : Path) : Entries := fun p => m (path ++ p)

def Several (m : Entries) : Prop := ∃ p q, p ≠ q ∧ m p ≠ none ∧ m q ≠ none

structure Shared (m : Entries) (path : Path) : Prop where
  begins : ∀ p, m p ≠ none → path <+: p
  longest : ∀ q, (∀ p, m p ≠ none → q <+: p) → q <+: path

inductive Tree where
  | Empty
  | Leaf (path : Path) (value : Bytes)
  | Branch (path : Path) (value : Option Bytes) (children : Nibble → Tree)

-- One entry makes a leaf; several make a branch below what they share.
def Tree.Represents : Tree → Entries → Prop
  | .Empty, m => ∀ p, m p = none
  | .Leaf path value, m => m path = some value ∧ ∀ p, p ≠ path → m p = none
  | .Branch path value children, m =>
    Several m ∧ Shared m path ∧ m path = value ∧ ∀ k, (children k).Represents (after m (path ++ [k]))

def valuedItem (refs : Nibble → Item) (value : Option Bytes) : Item := .Lst (List.ofFn refs ++ [.Str (value.getD [])])

section

variable (hash : Bytes → Bytes32)

def Tree.item : Tree → Item
  | .Empty => .Str []
  | .Leaf path value => leafItem path value
  | .Branch [] value children => valuedItem (fun k => cap hash (children k).item) value
  | .Branch (k :: path) value children =>
    extItem (k :: path) (cap hash (valuedItem (fun k => cap hash (children k).item) value))

def Tree.encoding (t : Tree) : Bytes := encode (t.item hash)

def Tree.root (t : Tree) : Bytes32 := hash (t.encoding hash)

def Tree.nodes : Tree → Set Bytes
  | .Empty => {Tree.Empty.encoding hash}
  | .Leaf path value => {(Tree.Leaf path value).encoding hash}
  | .Branch path value children =>
    {(Tree.Branch path value children).encoding hash, (Tree.Branch [] value children).encoding hash} ∪
      ⋃ k, (children k).nodes

end

variable {m m' : Entries} {path : Path} {value : Option Bytes} {children : Nibble → Tree} {t t' : Tree}
  {hash : Bytes → Bytes32}

-- Maps.

theorem after_append (m : Entries) (p q : Path) : after (after m p) q = after m (p ++ q) := by
  funext r
  rw [after, after, after, append_assoc]

theorem Shared.unique {path' : Path} (h : Shared m path) (h' : Shared m path') : path = path' :=
  (h'.longest path h.begins).eq_of_length_le (h.longest path' h'.begins).length_le

theorem Several.after (h : Several m) (hshared : Shared m path) : Several (after m path) := by
  obtain ⟨p, q, hne, hp, hq⟩ := h
  obtain ⟨p, rfl⟩ := hshared.begins p hp
  obtain ⟨q, rfl⟩ := hshared.begins q hq
  exact ⟨p, q, fun heq => hne (by rw [heq]), hp, hq⟩

theorem Shared.after (h : Shared m path) : Shared (after m path) [] where
  begins := fun _ _ => nil_prefix
  longest := by
    intro q hq
    have hlong : path ++ q <+: path := by
      apply h.longest
      intro p hp
      obtain ⟨p, rfl⟩ := h.begins p hp
      exact (prefix_append_right_inj path).2 (hq p hp)
    have hlen := hlong.length_le
    rw [length_append] at hlen
    exact List.length_eq_zero_iff.1 (show q.length = 0 by omega) ▸ List.nil_prefix

-- A map and its tree determine each other.

theorem Tree.Represents.unique (h : t.Represents m) (h' : t'.Represents m) : t = t' := by
  induction t generalizing t' m with
  | Empty =>
    cases t' with
    | Empty => rfl
    | Leaf path value => exact absurd (h path) (by rw [h'.1]; nofun)
    | Branch path value children =>
      obtain ⟨⟨p, _, _, hp, _⟩, _⟩ := h'
      exact absurd (h p) hp
  | Leaf path value =>
    cases t' with
    | Empty => exact absurd (h' path) (by rw [h.1]; nofun)
    | Leaf path' value' =>
      have hpath : path' = path := by
        by_contra hne
        have hnone := h.2 path' hne
        rw [h'.1] at hnone
        cases hnone
      subst hpath
      rw [Option.some.inj (h.1.symm.trans h'.1)]
    | Branch path' value' children =>
      obtain ⟨⟨p, q, hne, hp, hq⟩, _⟩ := h'
      have hlone : ∀ p, m p ≠ none → p = path := fun p hp => by_contra fun hne => hp (h.2 p hne)
      exact absurd ((hlone p hp).trans (hlone q hq).symm) hne
  | Branch path value children ih =>
    obtain ⟨⟨p, q, hne, hp, hq⟩, hshared, hvalue, hchildren⟩ := h
    cases t' with
    | Empty => exact absurd (h' p) hp
    | Leaf path' value' =>
      have hlone : ∀ p, m p ≠ none → p = path' := fun p hp => by_contra fun hne => hp (h'.2 p hne)
      exact absurd ((hlone p hp).trans (hlone q hq).symm) hne
    | Branch path' value' children' =>
      obtain ⟨_, hshared', hvalue', hchildren'⟩ := h'
      obtain rfl := hshared.unique hshared'
      rw [← hvalue, ← hvalue', funext fun k => ih k (hchildren k) (hchildren' k)]

theorem Shared.cases (h : Shared m path) {p : Path} (hp : m p ≠ none) : p = path ∨ ∃ k rest, p = path ++ [k] ++ rest := by
  obtain ⟨rest, rfl⟩ := h.begins p hp
  cases rest with
  | nil => exact .inl (append_nil path)
  | cons k rest => exact .inr ⟨k, rest, by rw [append_assoc, singleton_append]⟩

theorem Tree.Represents.map_le (h : t.Represents m) (h' : t.Represents m') {p : Path} {v : Bytes} (hp : m p = some v) :
    m' p = some v := by
  induction t generalizing m m' p with
  | Empty => exact absurd (h p) (by rw [hp]; nofun)
  | Leaf path value =>
    have hpath : p = path := by
      by_contra hne
      rw [h.2 p hne] at hp
      cases hp
    subst hpath
    rw [h'.1, ← hp, h.1]
  | Branch path value children ih =>
    obtain ⟨_, hshared, hvalue, hchildren⟩ := h
    obtain ⟨_, _, hvalue', hchildren'⟩ := h'
    obtain rfl | ⟨k, rest, rfl⟩ := hshared.cases (show m p ≠ none by rw [hp]; nofun)
    · rw [hvalue', ← hvalue, hp]
    · exact ih k (hchildren k) (hchildren' k) hp

theorem Tree.Represents.map_unique (h : t.Represents m) (h' : t.Represents m') : m = m' := by
  funext p
  cases hp : m p with
  | some v => exact (h.map_le h' hp).symm
  | none =>
    cases hp' : m' p with
    | none => rfl
    | some v => exact absurd (h'.map_le h hp') (by rw [hp]; nofun)

theorem Tree.Represents.inner (h : (Tree.Branch path value children).Represents m) :
    (Tree.Branch [] value children).Represents (after m path) := by
  obtain ⟨hseveral, hshared, hvalue, hchildren⟩ := h
  refine ⟨hseveral.after hshared, hshared.after, ?_, fun k => ?_⟩
  · rw [after, append_nil]
    exact hvalue
  · rw [after_append, nil_append]
    exact hchildren k

-- Items.

theorem Tree.item_branch_nil (value : Option Bytes) (children : Nibble → Tree) :
    (Tree.Branch [] value children).item hash = valuedItem (fun k => cap hash ((children k).item hash)) value := by
  rw [Tree.item]

theorem Tree.item_branch (hpath : path ≠ []) (value : Option Bytes) (children : Nibble → Tree) :
    (Tree.Branch path value children).item hash =
      extItem path (cap hash ((Tree.Branch [] value children).item hash)) := by
  cases path with
  | nil => exact absurd rfl hpath
  | cons k rest => rw [Tree.item_branch_nil, Tree.item]

theorem valuedItem_injective {refs refs' : Nibble → Item} {value value' : Option Bytes}
    (h : valuedItem refs value = valuedItem refs' value') : refs = refs' ∧ value.getD [] = value'.getD [] := by
  obtain ⟨hrefs, hvalue⟩ := append_inj (Item.Lst.inj h) (by rw [length_ofFn, length_ofFn])
  exact ⟨ofFn_injective hrefs, Item.Str.inj (singleton_inj.1 hvalue)⟩

theorem valuedItem_ne_pair (refs : Nibble → Item) (value : Option Bytes) (x y : Item) :
    valuedItem refs value ≠ .Lst [x, y] := by
  intro h
  have hlen := congrArg List.length (Item.Lst.inj h)
  simp at hlen

theorem Tree.item_eq_leafItem {p : Path} {v : Bytes} (h : t.item hash = leafItem p v) : t = .Leaf p v := by
  cases t with
  | Empty => cases h
  | Leaf path value =>
    obtain ⟨hhp, hvalue⟩ := List.cons.inj (Item.Lst.inj h)
    rw [(hexPrefix_injective (Item.Str.inj hhp)).1, Item.Str.inj (singleton_inj.1 hvalue)]
  | Branch path value children =>
    by_cases hpath : path = []
    · subst hpath
      exact absurd h (valuedItem_ne_pair _ _ _ _)
    · rw [item_branch hpath] at h
      have hhp := (List.cons.inj (Item.Lst.inj h)).1
      cases (hexPrefix_injective (Item.Str.inj hhp)).2

theorem Tree.item_eq_extItem {p : Path} {child : Item} (h : t.item hash = extItem p child) :
    ∃ value children, p ≠ [] ∧ t = .Branch p value children ∧
      child = cap hash ((Tree.Branch [] value children).item hash) := by
  cases t with
  | Empty => cases h
  | Leaf path value =>
    have hhp := (List.cons.inj (Item.Lst.inj h)).1
    cases (hexPrefix_injective (Item.Str.inj hhp)).2
  | Branch path value children =>
    by_cases hpath : path = []
    · subst hpath
      rw [item_branch_nil] at h
      exact absurd h (valuedItem_ne_pair _ _ _ _)
    · rw [item_branch hpath] at h
      obtain ⟨hhp, hchild⟩ := List.cons.inj (Item.Lst.inj h)
      obtain ⟨rfl, -⟩ := hexPrefix_injective (Item.Str.inj hhp)
      exact ⟨value, children, hpath, rfl, (singleton_inj.1 hchild).symm⟩

theorem Tree.item_eq_valuedItem {refs : Nibble → Item} {v : Option Bytes} (h : t.item hash = valuedItem refs v) :
    ∃ value children, t = .Branch [] value children := by
  cases t with
  | Empty => cases h
  | Leaf path value => exact absurd h.symm (valuedItem_ne_pair _ _ _ _)
  | Branch path value children =>
    by_cases hpath : path = []
    · subst hpath
      exact ⟨value, children, rfl⟩
    · rw [item_branch hpath] at h
      exact absurd h.symm (valuedItem_ne_pair _ _ _ _)

theorem Tree.item_eq_str {bytes : Bytes} (h : t.item hash = .Str bytes) : t = .Empty := by
  cases t with
  | Empty => rfl
  | Leaf path value => cases h
  | Branch path value children => cases path <;> cases h

-- Sizes.

variable {len size room : Nat}

-- Keys of at most `len` nibbles and values of at most `size` bytes. A value at a branch is not empty and has at
-- most `room` bytes.
structure Within (len size room : Nat) (m : Entries) : Prop where
  length : ∀ p v, m p = some v → p.length ≤ len
  size : ∀ p v, m p = some v → v.length ≤ size
  inner : ∀ p v, m p = some v → ∀ q, q ≠ [] → m (p ++ q) ≠ none → v ≠ [] ∧ v.length ≤ room

theorem Within.below (h : Within len size room m) (path : Path) :
    Within (len - path.length) size room (after m path) where
  length := fun p v hp => by
    have hle := h.length _ v hp
    rw [length_append] at hle
    omega
  size := fun p v hp => h.size _ v hp
  inner := fun p v hp q hq hlong => h.inner _ v hp q hq (by rw [append_assoc]; exact hlong)

theorem Within.after (h : Within len size room m) (path : Path) : Within len size room (after m path) where
  length := fun p v hp => Nat.le_trans ((h.below path).length p v hp) (Nat.sub_le _ _)
  size := (h.below path).size
  inner := (h.below path).inner

theorem Within.length_shared (h : Within len size room m) (hseveral : Several m) (hshared : Shared m path) :
    path.length ≤ len := by
  obtain ⟨p, _, _, hp, _⟩ := hseveral
  obtain ⟨v, hv⟩ := Option.ne_none_iff_exists'.1 hp
  exact Nat.le_trans (hshared.begins p hp).length_le (h.length p v hv)

theorem Several.beyond (h : Several m) (hshared : Shared m path) : ∃ q, q ≠ [] ∧ m (path ++ q) ≠ none := by
  obtain ⟨p, q, hne, hp, hq⟩ := h.after hshared
  by_cases hnil : p = []
  · exact ⟨q, fun heq => hne (hnil.trans heq.symm), hq⟩
  · exact ⟨p, hnil, hp⟩

theorem Within.branch_value (h : Within len size room m) (hseveral : Several m) (hshared : Shared m path) {v : Bytes}
    (hv : m path = some v) : v ≠ [] ∧ v.length ≤ room := by
  obtain ⟨q, hq, hlong⟩ := hseveral.beyond hshared
  exact h.inner path v hv q hq hlong

theorem length_encode_valuedItem {refs : Nibble → Item} (hroom : room + 1000 < 2 ^ 64)
    (hrefs : ∀ k, (encode (refs k)).length ≤ 33) (hvalue : ∀ v, value = some v → v.length ≤ room) :
    (encode (valuedItem refs value)).length ≤ room + 600 := by
  have hlast : (value.getD []).length ≤ room := by
    cases hv : value with
    | none => exact Nat.zero_le _
    | some v => exact hvalue v hv
  have hstr := length_encodeStr_le (value.getD []) (by omega)
  have hall : (encodeAll (List.ofFn refs)).length ≤ 16 * 33 := by
    have hle := length_encodeAll_le (List.ofFn refs) 33 fun x hx => by
      obtain ⟨k, rfl⟩ := mem_ofFn.1 hx
      exact hrefs k
    rwa [length_ofFn] at hle
  have hpayload : (encodeAll (List.ofFn refs ++ [.Str (value.getD [])])).length ≤ room + 540 := by
    rw [encodeAll_eq_flatten, map_append, flatten_append, length_append, ← encodeAll_eq_flatten]
    simp only [map_cons, map_nil, flatten_cons, flatten_nil, append_nil, encode]
    omega
  have hle := length_encode_lst_le (List.ofFn refs ++ [.Str (value.getD [])]) (by omega)
  rw [valuedItem]
  omega

theorem length_encoding_valued (hash : Bytes → Bytes32) (hroom : room + 1000 < 2 ^ 64)
    (hvalue : ∀ v, value = some v → v.length ≤ room) (children : Nibble → Tree) :
    ((Tree.Branch [] value children).encoding hash).length ≤ room + 600 := by
  exact length_encode_valuedItem hroom (fun k => length_encode_cap hash _) hvalue

section

variable (hsize : len + size + 200 < 2 ^ 64) (hroom : room + 1000 < 2 ^ 64)

include hsize hroom

theorem Tree.Represents.length_encoding (hm : Within len size room m) (h : t.Represents m) :
    (t.encoding hash).length < 2 ^ 64 := by
  cases t with
  | Empty => simp [Tree.encoding, Tree.item, encode, encodeStr, header]
  | Leaf path value =>
    have hpath := hm.length path value h.1
    have hvalue := hm.size path value h.1
    have hstr := length_encodeStr_le value (by omega)
    exact length_encode_pair (by rw [encode]; omega)
  | Branch path value children =>
    obtain ⟨hseveral, hshared, hvalue, _⟩ := h
    by_cases hpath : path = []
    · subst hpath
      have hle := length_encoding_valued hash hroom
        (fun v hv => (hm.branch_value hseveral hshared (hvalue.trans hv)).2) children
      omega
    · have hcap := length_encode_cap hash ((Tree.Branch [] value children).item hash)
      have hlen := hm.length_shared hseveral hshared
      rw [Tree.encoding, Tree.item_branch hpath]
      exact length_encode_pair (by omega)

end

theorem Tree.mem_nodes (t : Tree) : t.encoding hash ∈ t.nodes hash := by
  cases t <;> simp [Tree.nodes]

theorem Tree.mem_nodes_inner (path : Path) (value : Option Bytes) (children : Nibble → Tree) :
    (Tree.Branch [] value children).encoding hash ∈ (Tree.Branch path value children).nodes hash := by
  simp [Tree.nodes]

theorem Tree.nodes_child (path : Path) (value : Option Bytes) (children : Nibble → Tree) (k : Nibble) :
    (children k).nodes hash ⊆ (Tree.Branch path value children).nodes hash := by
  intro s hs
  exact .inr (Set.mem_iUnion.2 ⟨k, hs⟩)

theorem getD_injective {value' : Option Bytes} (h : ∀ v, value = some v → v ≠ []) (h' : ∀ v, value' = some v → v ≠ [])
    (heq : value.getD [] = value'.getD []) : value = value' := by
  cases value with
  | none =>
    cases value' with
    | none => rfl
    | some v => exact absurd heq.symm (h' v rfl)
  | some v =>
    cases value' with
    | none => exact absurd heq (h v rfl)
    | some w => exact congrArg some heq

section

variable (hsize : len + size + 200 < 2 ^ 64) (hroom : room + 1000 < 2 ^ 64)

include hsize hroom

-- Commitment: where the hash is injective on the nodes, the encoding determines the tree.
theorem Tree.eq_of_encoding {known : Set Bytes} (hinj : Set.InjOn hash known) (hm : Within len size room m)
    (hm' : Within len size room m') (ht : t.Represents m) (ht' : t'.Represents m') (hknown : t.nodes hash ⊆ known) (hknown' : t'.nodes hash ⊆ known)
    (h : t.encoding hash = t'.encoding hash) : t = t' := by
  induction t generalizing t' m m' with
  | Empty =>
    have hitem := encode_injective (ht.length_encoding hsize hroom hm) h
    exact (item_eq_str hitem.symm).symm
  | Leaf path value =>
    have hitem := encode_injective (ht.length_encoding hsize hroom hm) h
    exact (item_eq_leafItem hitem.symm).symm
  | Branch path value children ih =>
    have hitem := encode_injective (ht.length_encoding hsize hroom hm) h
    -- The branch node itself, below the extension if there is one.
    have hbranch : ∃ value' children', t' = .Branch path value' children' ∧
        (Tree.Branch [] value children).encoding hash = (Tree.Branch [] value' children').encoding hash := by
      by_cases hpath : path = []
      · subst hpath
        obtain ⟨value', children', rfl⟩ := item_eq_valuedItem (hitem.symm.trans (item_branch_nil value children))
        exact ⟨value', children', rfl, h⟩
      · obtain ⟨value', children', -, rfl, hcap⟩ :=
          item_eq_extItem (hitem.symm.trans (item_branch hpath value children))
        exact ⟨value', children', rfl, cap_injective hinj (hknown (mem_nodes_inner path value children))
          (hknown' (mem_nodes_inner path value' children')) hcap⟩
    obtain ⟨value', children', rfl, henc⟩ := hbranch
    have hrefs := encode_injective (ht.inner.length_encoding hsize hroom (hm.after path)) henc
    obtain ⟨hrefs, hlast⟩ := valuedItem_injective hrefs
    obtain ⟨hseveral, hshared, hvalue, hchildren⟩ := ht
    obtain ⟨hseveral', hshared', hvalue', hchildren'⟩ := ht'
    have hsame : value = value' :=
      getD_injective (fun v hv => (hm.branch_value hseveral hshared (hvalue.trans hv)).1)
        (fun v hv => (hm'.branch_value hseveral' hshared' (hvalue'.trans hv)).1) hlast
    rw [hsame, funext fun k => ih k (hm.after _) (hm'.after _) (hchildren k) (hchildren' k)
      (fun s hs => hknown (nodes_child path value children k hs))
      (fun s hs => hknown' (nodes_child path value' children' k hs))
      (cap_injective hinj (hknown (nodes_child path value children k (mem_nodes _)))
        (hknown' (nodes_child path value' children' k (mem_nodes _))) (congrFun hrefs k))]

theorem eq_of_root (hinj : Set.InjOn hash (t.nodes hash ∪ t'.nodes hash)) (hm : Within len size room m)
    (hm' : Within len size room m') (ht : t.Represents m) (ht' : t'.Represents m') (h : t.root hash = t'.root hash) :
    m = m' := by
  have henc := hinj (.inl (Tree.mem_nodes t)) (.inr (Tree.mem_nodes t')) h
  have htree := Tree.eq_of_encoding hsize hroom hinj hm hm' ht ht' Set.subset_union_left Set.subset_union_right henc
  rw [← htree] at ht'
  exact ht.map_unique ht'

end

def ofTrie : Trie → Tree
  | .Empty => .Empty
  | .Leaf path value => .Leaf path value
  | .Branch path children => .Branch path none fun k => ofTrie (children k)

theorem item_ofTrie (t : Trie) : (ofTrie t).item hash = t.item hash := by
  induction t with
  | Empty => rfl
  | Leaf path value => rfl
  | Branch path children ih =>
    cases path with
    | nil => simp only [ofTrie, Tree.item, Trie.item, ih, valuedItem, branchItem, Option.getD_none]
    | cons k path => simp only [ofTrie, Tree.item, Trie.item, ih, valuedItem, branchItem, Option.getD_none]

theorem encoding_ofTrie (t : Trie) : (ofTrie t).encoding hash = t.encoding hash := by
  rw [Tree.encoding, Trie.encoding, item_ofTrie]

theorem nodes_ofTrie (t : Trie) : (ofTrie t).nodes hash = t.strings hash := by
  induction t with
  | Empty => rfl
  | Leaf path value => rfl
  | Branch path children ih =>
    have hinner := @encoding_ofTrie hash (.Branch [] children)
    have houter := @encoding_ofTrie hash (.Branch path children)
    rw [ofTrie] at hinner houter
    rw [ofTrie, Tree.nodes, Trie.strings, hinner, houter]
    simp only [ih]

end Zeg.Base.Composition
