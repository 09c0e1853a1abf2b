import Zeg.Mpt.Compose

-- Lists as tries: the root commits to the list.
namespace Zeg.Mpt

open Base RlpCodec Base.Patricia Base.Composition List

-- The trie of some entries of which no path begins another; the fuel is as in `buildNode`.
def trieOf : Nat → List PathEntry → Trie
  | 0, _ => .Empty
  | fuel + 1, entries =>
    match entries with
    | [] => .Empty
    | [e] => .Leaf e.path e.value
    | entries => .Branch (sharedPath entries) fun k => trieOf fuel (belowNibble k (skipShared entries))

variable {entries : List PathEntry}

theorem trieOf_several (hsize : 2 ≤ entries.length) (fuel : Nat) :
    trieOf (fuel + 1) entries =
      .Branch (sharedPath entries) fun k => trieOf fuel (belowNibble k (skipShared entries)) := by
  match entries, hsize with
  | _ :: _ :: _, _ => rfl

def PrefixFree (m : Entries) : Prop := ∀ p q, m p ≠ none → m (p ++ q) ≠ none → q = []

variable {m : Entries}

theorem PrefixFree.after (h : PrefixFree m) (path : Path) : PrefixFree (after m path) := by
  intro p q hp hq
  rw [Composition.after, ← append_assoc] at hq
  exact h _ q hp hq

theorem Lists.several (h : Lists entries m) (hordered : Ordered entries) (hsize : 2 ≤ entries.length) : Several m := by
  match entries, hsize with
  | a :: b :: rest, _ =>
    have hab := (pairwise_cons.1 hordered).1 b mem_cons_self
    refine ⟨a.path, b.path, fun heq => ?_, h.ne_none (by simp), h.ne_none (by simp)⟩
    rw [heq] at hab
    exact not_precedes_self _ hab

theorem trieOf_represents (hordered : Ordered entries) (hlists : Lists entries m) (hfree : PrefixFree m) {fuel : Nat}
    (hfuel : ∀ e ∈ entries, e.path.length < fuel) :
    (ofTrie (trieOf fuel entries)).Represents m := by
  induction fuel generalizing entries m with
  | zero =>
    intro p
    cases hp : m p with
    | none => rfl
    | some v => exact absurd (hfuel _ ((hlists p v).1 hp)) (Nat.not_lt_zero _)
  | succ fuel ih =>
    by_cases hsize : 2 ≤ entries.length
    · have hseveral := hlists.several hordered hsize
      have hshared := hlists.shared hordered hsize
      rw [trieOf_several hsize]
      refine ⟨hseveral, hshared, ?_, fun k => ?_⟩
      · cases hv : m (sharedPath entries) with
        | none => rfl
        | some v =>
          obtain ⟨q, hq, hlong⟩ := hseveral.beyond hshared
          exact absurd (hfree _ q (by rw [hv]; nofun) hlong) hq
      · have hbelow := (hlists.skipShared hordered hsize).belowNibble k
        rw [after_append] at hbelow
        refine ih ((hordered.skipShared hsize).belowNibble k) hbelow (hfree.after _) fun e he => ?_
        have hlt := hfuel _ ((mem_skipShared hordered hsize).1 (mem_belowNibble.1 he))
        simp only [length_append, length_cons] at hlt
        omega
    · match entries, hsize with
      | [], _ =>
        intro p
        cases hp : m p with
        | none => rfl
        | some v => cases (hlists p v).1 hp
      | [e], _ =>
        refine ⟨(hlists e.path e.value).2 mem_cons_self, fun p hne => ?_⟩
        cases hp : m p with
        | none => rfl
        | some v =>
          have hmem := mem_singleton.1 ((hlists p v).1 hp)
          exact absurd (congrArg PathEntry.path hmem) hne
      | _ :: _ :: _, hsize => exact absurd (Nat.le_add_left 2 _) hsize

-- Lists as tries.

def indexPath (i : Nat) : Path := nibblesOf (encodeU64 (UInt64.ofNat i))

def indexEntries (values : List Bytes) : List PathEntry := (indexed values).map fun e => ⟨nibblesOf e.1, e.2⟩

-- The trie of a list's elements under their places.
def indexTrie (values : List Bytes) : Trie :=
  trieOf (longest (sortEntries (indexEntries values)) + 1) (sortEntries (indexEntries values))

theorem nibblesOf_prefix_cancel {a b : Bytes} (h : nibblesOf a <+: nibblesOf b) : a <+: b := by
  induction a generalizing b with
  | nil => exact nil_prefix
  | cons x a ih =>
    cases b with
    | nil => simp [nibblesOf] at h
    | cons y b =>
      simp only [nibblesOf, cons_prefix_cons] at h
      obtain ⟨hhigh, hlow, hrest⟩ := h
      have hxy : x = y := by rw [← byteOf_high_low x, hhigh, hlow, byteOf_high_low]
      exact cons_prefix_cons.2 ⟨hxy, ih hrest⟩

theorem length_encodeU64 (n : UInt64) : (encodeU64 n).length ≤ 17 := by
  have hlen := length_beBytes_u64 n
  have := Rlp.length_encodeStr_le (Rlp.beBytes n.toNat) (by omega)
  rw [encodeU64_eq, Rlp.encode]
  omega

theorem encodeU64_prefix_free {m n : UInt64} (h : encodeU64 m <+: encodeU64 n) : m = n := by
  obtain ⟨rest, hrest⟩ := h
  have hm := length_encodeU64 m
  have hn := length_encodeU64 n
  rw [encodeU64_eq] at hrest hm
  rw [encodeU64_eq] at hrest hn
  have hleft := Rlp.decode_encode (.Str (Rlp.beBytes m.toNat)) rest (by omega) 40 (by omega)
  have hright := Rlp.decode_encode (.Str (Rlp.beBytes n.toNat)) [] (by omega) 40 (by omega)
  rw [append_nil, ← hrest, hleft] at hright
  have hbytes := Rlp.Item.Str.inj (congrArg Prod.fst (Except.ok.inj hright))
  exact beBytes_u64_injective hbytes

theorem indexPath_prefix_free {i j : Nat} (hi : i < 2 ^ 64) (hj : j < 2 ^ 64) (h : indexPath i <+: indexPath j) : i = j := by
  have heq := congrArg UInt64.toNat (encodeU64_prefix_free (nibblesOf_prefix_cancel h))
  rwa [UInt64.toNat_ofNat_of_lt' hi, UInt64.toNat_ofNat_of_lt' hj] at heq

theorem length_indexPath (i : Nat) : (indexPath i).length ≤ 64 := by
  have := length_encodeU64 (UInt64.ofNat i)
  rw [indexPath, length_nibblesOf]
  omega

section

variable {values values' : List Bytes} (hlen : values.length ≤ 2 ^ 64)

variable {value : Bytes}

theorem mem_indexed {key : Bytes} :
    (key, value) ∈ indexed values ↔ ∃ i, values[i]? = some value ∧ key = encodeU64 (UInt64.ofNat i) := by
  rw [indexed, mem_mapIdx]
  constructor
  · rintro ⟨i, hi, heq⟩
    obtain ⟨rfl, rfl⟩ := Prod.mk.inj heq
    exact ⟨i, List.getElem?_eq_getElem hi, rfl⟩
  · rintro ⟨i, hvalue, rfl⟩
    obtain ⟨hi, rfl⟩ := List.getElem?_eq_some_iff.1 hvalue
    exact ⟨i, hi, rfl⟩

include hlen

theorem enumerates_indexed : Enumerates (indexed values) (mapOf (indexed values)) := by
  refine enumerates_mapOf ?_
  rw [nodup_iff_injective_getElem]
  intro i j heq
  have hi := i.isLt
  have hj := j.isLt
  simp only [indexed, length_map, length_mapIdx] at hi hj
  simp only [indexed, getElem_map, getElem_mapIdx] at heq
  have hsame : indexPath i = indexPath j := by rw [indexPath, indexPath, heq]
  have hpath : indexPath i <+: indexPath j := hsame ▸ List.prefix_rfl
  exact Fin.ext (indexPath_prefix_free (by omega) (by omega) hpath)

theorem byPath_indexed {p : Path} :
    byPath (mapOf (indexed values)) p = some value ↔ ∃ i, values[i]? = some value ∧ p = indexPath i := by
  rw [byPath_eq_some]
  constructor
  · rintro ⟨key, hkey, rfl⟩
    obtain ⟨i, hvalue, rfl⟩ := mem_indexed.1 (((enumerates_indexed hlen).mem key value).1 hkey)
    exact ⟨i, hvalue, rfl⟩
  · rintro ⟨i, hvalue, rfl⟩
    exact ⟨_, ((enumerates_indexed hlen).mem _ value).2 (mem_indexed.2 ⟨i, hvalue, rfl⟩), rfl⟩

theorem lt_of_getElem? {i : Nat} (h : values[i]? = some value) : i < 2 ^ 64 := by
  obtain ⟨hi, -⟩ := List.getElem?_eq_some_iff.1 h
  omega

theorem prefixFree_indexed : PrefixFree (byPath (mapOf (indexed values))) := by
  intro p q hp hq
  obtain ⟨v, hv⟩ := Option.ne_none_iff_exists'.1 hp
  obtain ⟨w, hw⟩ := Option.ne_none_iff_exists'.1 hq
  obtain ⟨i, hi, rfl⟩ := (byPath_indexed hlen).1 hv
  obtain ⟨j, hj, heq⟩ := (byPath_indexed hlen).1 hw
  have hij := indexPath_prefix_free (lt_of_getElem? hlen hi) (lt_of_getElem? hlen hj) ⟨q, heq⟩
  subst hij
  exact append_right_eq_self.1 heq

variable {size : Nat}

theorem within_indexed (hvalues : ∀ value ∈ values, value.length ≤ size) :
    Within 64 size 0 (byPath (mapOf (indexed values))) where
  length := fun p v hp => by
    obtain ⟨i, -, rfl⟩ := (byPath_indexed hlen).1 hp
    exact length_indexPath i
  size := fun p v hp => by
    obtain ⟨i, hi, -⟩ := (byPath_indexed hlen).1 hp
    exact hvalues v (mem_of_getElem? hi)
  inner := fun p v hp q hq hlong =>
    absurd (prefixFree_indexed hlen p q (by rw [hp]; nofun) hlong) hq

theorem indexTrie_represents : (ofTrie (indexTrie values)).Represents (byPath (mapOf (indexed values))) :=
  trieOf_represents (enumerates_indexed hlen).ordered (enumerates_indexed hlen).lists (prefixFree_indexed hlen)
    fun _ he => Nat.lt_succ_of_le (le_longest he)

theorem rootHash_indexed (hvalues : ∀ value ∈ values, value.length ≤ size) (keccak : Bytes → Bytes32) :
    rootHash keccak (indexed values) = (ofTrie (indexTrie values)).root keccak :=
  rootHash_eq (by decide) (within_indexed hlen hvalues) (enumerates_indexed hlen) (indexTrie_represents hlen) keccak

variable (hlen' : values'.length ≤ 2 ^ 64)

include hlen'

theorem byPath_indexed_injective (h : byPath (mapOf (indexed values)) = byPath (mapOf (indexed values'))) :
    values = values' := by
  have hget : ∀ {vs : List Bytes}, vs.length ≤ 2 ^ 64 → ∀ i < 2 ^ 64,
      byPath (mapOf (indexed vs)) (indexPath i) = vs[i]? := by
    intro vs hvs i hi
    have hread : ∀ value, byPath (mapOf (indexed vs)) (indexPath i) = some value ↔ vs[i]? = some value := by
      intro value
      rw [byPath_indexed hvs]
      constructor
      · rintro ⟨j, hvalue, hpath⟩
        have hij := indexPath_prefix_free hi (lt_of_getElem? hvs hvalue) (hpath ▸ @List.prefix_rfl _ (indexPath i))
        rw [hij]
        exact hvalue
      · exact fun hvalue => ⟨i, hvalue, rfl⟩
    exact Option.ext hread
  apply ext_getElem?
  intro i
  by_cases hi : i < 2 ^ 64
  · rw [← hget hlen i hi, ← hget hlen' i hi, h]
  · rw [List.getElem?_eq_none (by omega), List.getElem?_eq_none (by omega)]

theorem rootHash_binding {keccak : Bytes → Bytes32} {known : Set Bytes} (hinj : Set.InjOn keccak known)
    (hsize : size + 300 < 2 ^ 64) (hvalues : ∀ value ∈ values, value.length ≤ size)
    (hvalues' : ∀ value ∈ values', value.length ≤ size) (hknown : (indexTrie values).strings keccak ⊆ known)
    (hknown' : (indexTrie values').strings keccak ⊆ known)
    (h : rootHash keccak (indexed values) = rootHash keccak (indexed values')) : values = values' := by
  rw [rootHash_indexed hlen hvalues, rootHash_indexed hlen' hvalues'] at h
  rw [← nodes_ofTrie] at hknown hknown'
  exact byPath_indexed_injective hlen hlen' (eq_of_root (by omega) (by decide)
    (hinj.mono (Set.union_subset hknown hknown')) (within_indexed hlen hvalues) (within_indexed hlen' hvalues')
    (indexTrie_represents hlen) (indexTrie_represents hlen') h)

end

end Zeg.Mpt
