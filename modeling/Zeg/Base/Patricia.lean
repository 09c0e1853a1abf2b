import Zeg.Base.HexPrefix
import Zeg.Base.Rlp
import Mathlib.Data.List.OfFn
import Mathlib.Data.Set.Lattice

-- Canonical Merkle Patricia tries over keys of one length.
namespace Zeg.Base.Patricia

open Base.Rlp List

inductive Occupancy where
  | None
  | One (k : Nibble)
  | Many

def occupied (present : Nibble → Bool) : Occupancy :=
  match (List.finRange 16).filter present with
  | [] => .None
  | [k] => .One k
  | _ => .Many

-- A branch below `path`: an extension node over a branch node, or the branch node alone for no path.
inductive Trie where
  | Empty
  | Leaf (path : Path) (value : Bytes)
  | Branch (path : Path) (children : Nibble → Trie)

def leafItem (path : Path) (value : Bytes) : Item := .Lst [.Str (hexPrefix path true), .Str value]

def extItem (path : Path) (child : Item) : Item := .Lst [.Str (hexPrefix path false), child]

def branchItem (refs : Nibble → Item) : Item := .Lst (List.ofFn refs ++ [.Str []])

section

variable (hash : Bytes → Bytes32)

-- A node inside its parent: itself when short, its hash otherwise.
def cap (x : Item) : Item := if (encode x).length < 32 then x else .Str (hash (encode x)).toList

def Trie.item : Trie → Item
  | .Empty => .Str []
  | .Leaf path value => leafItem path value
  | .Branch [] children => branchItem fun k => cap hash (children k).item
  | .Branch (k :: path) children =>
    extItem (k :: path) (cap hash (branchItem fun k => cap hash (children k).item))

def Trie.encoding (t : Trie) : Bytes := encode (t.item hash)

def Trie.strings : Trie → Set Bytes
  | .Empty => {Trie.Empty.encoding hash}
  | .Leaf path value => {(Trie.Leaf path value).encoding hash}
  | .Branch path children =>
    {(Trie.Branch path children).encoding hash, (Trie.Branch [] children).encoding hash} ∪
      ⋃ k, (children k).strings

end

-- Occupancy.

variable {present : Nibble → Bool} {hash : Bytes → Bytes32}

theorem mem_filter_finRange (present : Nibble → Bool) (k : Nibble) : k ∈ (List.finRange 16).filter present ↔ present k = true := by
  simp

theorem occupied_none : occupied present = .None ↔ ∀ k, present k = false := by
  unfold occupied
  split
  · next h =>
    refine ⟨fun _ k => ?_, fun _ => rfl⟩
    have hk := mem_filter_finRange present k
    rw [h] at hk
    simpa using hk
  · next j h =>
    have hj := mem_filter_finRange present j
    rw [h] at hj
    refine ⟨nofun, fun hall => ?_⟩
    simp [hall j] at hj
  · next h _ =>
    refine ⟨nofun, fun hall => absurd ?_ h⟩
    simp [hall]

theorem occupied_many :
    occupied present = .Many ↔ ∃ j k, j ≠ k ∧ present j = true ∧ present k = true := by
  have hmem := fun j => mem_filter_finRange present j
  have hnodup := (nodup_finRange 16).filter present
  unfold occupied
  generalize (List.finRange 16).filter present = used at hmem hnodup
  cases used with
  | nil =>
    refine ⟨nofun, fun ⟨j, _, _, hj, _⟩ => ?_⟩
    have := (hmem j).2 hj
    simp at this
  | cons i rest =>
    cases rest with
    | nil =>
      refine ⟨nofun, fun ⟨j, k, hne, hj, hk⟩ => absurd ?_ hne⟩
      rw [mem_singleton.1 ((hmem j).2 hj), mem_singleton.1 ((hmem k).2 hk)]
    | cons j rest =>
      refine ⟨fun _ => ⟨i, j, ?_, (hmem i).1 (by simp), (hmem j).1 (by simp)⟩, fun _ => rfl⟩
      intro h
      simp [h] at hnodup

variable {k : Nibble}

theorem present_of_one (h : occupied present = .One k) : present k = true := by
  unfold occupied at h
  split at h <;> cases h
  next heq => exact (mem_filter_finRange _ k).1 (by simp [heq])

theorem occupied_one :
    occupied present = .One k ↔ present k = true ∧ ∀ j, present j = true → j = k := by
  constructor
  · intro h
    refine ⟨present_of_one h, fun j hj => Classical.byContradiction fun hne => ?_⟩
    rw [occupied_many.2 ⟨j, k, hne, hj, present_of_one h⟩] at h
    cases h
  · rintro ⟨hk, hall⟩
    cases h : occupied present with
    | None => simp [occupied_none.1 h k] at hk
    | One j => rw [hall j (present_of_one h)]
    | Many =>
      obtain ⟨i, j, hne, hi, hj⟩ := occupied_many.1 h
      exact absurd ((hall i hi).trans (hall j hj).symm) hne

-- Assembling.

variable {t : Trie}

variable {ts : Nibble → Trie}

variable {p : Path} {v : Bytes}

-- Items.

-- Sizes.

theorem length_encode_digest (h : Bytes32) : (encode (.Str h.toList)).length = 33 := by
  rw [encode, encodeStr]
  · simp only [length_append, List.Vector.toList_length]
    rfl
  · intro b hb
    have := congrArg List.length hb
    simp at this

theorem length_encode_cap (hash : Bytes → Bytes32) (x : Item) : (encode (cap hash x)).length ≤ 33 := by
  unfold cap
  split
  · omega
  · exact Nat.le_of_eq (length_encode_digest _)

theorem length_encode_pair {path : Path} {leaf : Bool} {x : Item} (hsize : path.length + (encode x).length + 32 < 2 ^ 64) :
    (encode (.Lst [.Str (hexPrefix path leaf), x])).length < 2 ^ 64 := by
  have hhp := length_hexPrefix path leaf
  have hstr := length_encodeStr_le (hexPrefix path leaf) (by omega)
  have hall : (encodeAll [.Str (hexPrefix path leaf), x]).length + 10 < 2 ^ 64 := by
    simp only [encodeAll, encode, length_append, length_nil]
    omega
  have := length_encode_lst_le [.Str (hexPrefix path leaf), x] (by omega)
  omega

theorem cap_injective {known : Set Bytes} (hinj : Set.InjOn hash known) {x y : Item} (hx : encode x ∈ known)
    (hy : encode y ∈ known) (h : cap hash x = cap hash y) : encode x = encode y := by
  unfold cap at h
  split at h
  · next hshort =>
    split at h
    · rw [h]
    · rw [h, length_encode_digest] at hshort
      omega
  · split at h
    · next hshort =>
      rw [← h, length_encode_digest] at hshort
      omega
    · have hdigest : hash (encode x) = hash (encode y) := List.Vector.eq _ _ (Item.Str.inj h)
      exact hinj hx hy hdigest

end Zeg.Base.Patricia
