import Zeg.Digest
import Zeg.ExEx.Ssz
import Zeg.Ssz.Trees

-- The guest's roots, the ExEx's and those of the SSZ definitions are the same, and the progressive
-- ones with their length commit to what they are the roots of.
namespace Zeg.Ssz

open Base Base.Merkle List

theorem depthFor_eq_clog {n : Nat} (h : n ≤ 2 ^ kMaxDepth) : depthFor n = Nat.clog 2 n := by
  have hle : Nat.clog 2 n ≤ kMaxDepth := (Nat.clog_le_iff_le_pow (by decide)).2 h
  obtain hlt | heq := Nat.lt_or_eq_of_le hle
  · have hfind : (List.range kMaxDepth).find? (fun d => n ≤ 2 ^ d) = some (Nat.clog 2 n) := by
      rw [List.find?_range_eq_some]
      refine ⟨by simpa using Nat.le_pow_clog (by decide) n, mem_range.2 hlt, fun d hd => ?_⟩
      simpa using Nat.pow_lt_of_lt_clog hd
    rw [depthFor, hfind]
    rfl
  · have hfind : (List.range kMaxDepth).find? (fun d => n ≤ 2 ^ d) = none := by
      rw [List.find?_range_eq_none]
      intro d hd
      simpa using Nat.pow_lt_of_lt_clog (heq ▸ hd)
    rw [depthFor, hfind, heq]
    rfl

theorem trailingZeros_two_pow {d : Nat} (h : d < 64) : ExEx.Ssz.trailingZeros (2 ^ d) = d := by
  have hfind : (List.range 64).find? (fun i => (2 ^ d).testBit i) = some d := by
    rw [List.find?_range_eq_some]
    refine ⟨Nat.testBit_two_pow_self, mem_range.2 h, fun i hi => ?_⟩
    rw [Nat.testBit_two_pow_of_ne (by omega)]
    rfl
  rw [ExEx.Ssz.trailingZeros, hfind]
  rfl

theorem depthOf_eq {limit : Nat} (h : limit ≤ 2 ^ 62) : ExEx.Ssz.depthOf limit = Nat.clog 2 limit := by
  have hle : Nat.clog 2 limit ≤ 62 := (Nat.clog_le_iff_le_pow (by decide)).2 h
  have hmax : Nat.clog 2 (max limit 1) = Nat.clog 2 limit := by
    obtain rfl | hpos := Nat.eq_zero_or_pos limit
    · rfl
    · rw [Nat.max_eq_left hpos]
  rw [ExEx.Ssz.depthOf, ExEx.Ssz.nextPowerOfTwo, hmax, trailingZeros_two_pow (by omega)]

section

variable (sha256 : Bytes → Bytes32)

theorem exex_zeroHash (depth : Nat) : ExEx.Ssz.zeroHash sha256 depth = zeroHash sha256 depth := by
  induction depth with
  | zero => rfl
  | succ depth ih =>
    rw [ExEx.Ssz.zeroHash] at ih ⊢
    rw [range_succ, foldl_append, ih]
    rfl

-- Completing the odd tail first and pairing then is one level of the guest's loop.
theorem hashPairs_pushOdd (zero : Chunk) (level : List Chunk) :
    ExEx.Ssz.hashPairs sha256 (ExEx.Ssz.pushOdd zero level) = mergeLevel sha256 zero level := by
  match level with
  | [] => rfl
  | [a] => rfl
  | a :: b :: rest =>
    have hpush : ExEx.Ssz.pushOdd zero (a :: b :: rest) = a :: b :: ExEx.Ssz.pushOdd zero rest := by
      simp only [ExEx.Ssz.pushOdd, length_cons, Nat.add_assoc, Nat.add_mod_right]
      split <;> rfl
    rw [hpush, ExEx.Ssz.hashPairs, hashPairs_pushOdd zero rest]
    rfl

theorem levels_eq {depth d n : Nat} {level : List Chunk} (h : level ≠ []) :
    ExEx.Ssz.levels sha256 depth d n level = levelRoot sha256 d n level := by
  induction n generalizing d level with
  | zero =>
    obtain ⟨a, rest, rfl⟩ := exists_cons_of_ne_nil h
    rfl
  | succ n ih =>
    rw [ExEx.Ssz.levels, if_neg h, hashPairs_pushOdd, exex_zeroHash, ih (mergeLevel_ne_nil sha256 h), levelRoot_succ]

theorem exex_merkleize_eq {chunks : List Chunk} {limit : Nat} (h : chunks.length ≤ limit) (hlimit : limit ≤ 2 ^ 62) :
    ExEx.Ssz.merkleize sha256 chunks limit = .ok (levelRoot sha256 0 (Nat.clog 2 limit) chunks) := by
  rw [ExEx.Ssz.merkleize, if_neg (by omega), depthOf_eq hlimit]
  by_cases hnil : chunks = []
  · subst hnil
    rw [levelRoot_nil, Nat.zero_add]
    cases Nat.clog 2 limit with
    | zero => rfl
    | succ depth => rw [ExEx.Ssz.levels, if_pos rfl, exex_zeroHash]
  · rw [levels_eq sha256 hnil]

theorem merkleize_levelRoot {chunks : List Chunk} {limit : Nat} (h : chunks.length ≤ limit) (hlimit : limit ≤ 2 ^ kMaxDepth) :
    merkleize sha256 chunks limit = .ok (levelRoot sha256 0 (Nat.clog 2 limit) chunks) := by
  rw [merkleize, if_neg (by omega), depthFor_eq_clog hlimit]
  split
  · next hnil => rw [hnil, levelRoot_nil, Nat.zero_add]
  · next hne => rw [mergeLevels_headD sha256 hne]

-- The root of the full tree of next_pow2(limit) leaves, zero chunks after the given ones.
def FullRoot (chunks : List Chunk) (limit : Nat) (root : Chunk) : Prop :=
  ∃ tree : HashTree Chunk, tree.Full (Nat.clog 2 limit) ∧
    tree.leaves = chunks ++ List.replicate (2 ^ Nat.clog 2 limit - chunks.length) zeroChunk ∧
    root = tree.root (hash sha256)

theorem levelRoot_full {chunks : List Chunk} {limit : Nat} (h : chunks.length ≤ limit) :
    FullRoot sha256 chunks limit (levelRoot sha256 0 (Nat.clog 2 limit) chunks) := by
  have hroots : (chunks.map HashTree.Leaf).map (HashTree.root (hash sha256)) = chunks := by
    rw [map_map]
    exact map_id chunks
  refine ⟨perfect zeroChunk (Nat.clog 2 limit) (chunks.map .Leaf), perfect_full _ _, perfect_leaves ?_, ?_⟩
  · exact Nat.le_trans h (Nat.le_pow_clog (by decide) limit)
  · rw [perfect_root, hroots]

-- merkleize_progressive of EIP-7916, from a subtree of the given width on.
inductive ProgressiveRoot : Nat → List Chunk → Chunk → Prop where
  | Empty {numLeaves : Nat} : ProgressiveRoot numLeaves [] zeroChunk
  | Step {numLeaves : Nat} {chunks : List Chunk} {first rest : Chunk} (hne : chunks ≠ [])
      (hfirst : FullRoot sha256 (chunks.take numLeaves) numLeaves first)
      (hrest : ProgressiveRoot (numLeaves * 4) (chunks.drop numLeaves) rest) :
      ProgressiveRoot numLeaves chunks (hash sha256 first rest)

-- merkleize_progressive with its 64-bit width. A turn of width 0 takes nothing.
def subtreesU64 : Nat → UInt64 → List Chunk → Except String (List Chunk)
  | 0, _, chunks => if chunks = [] then .ok [] else .error "no end"
  | fuel + 1, width, chunks =>
    if chunks = [] then .ok []
    else do
      let root ← merkleize sha256 (chunks.take width.toNat) width.toNat
      let roots ← subtreesU64 fuel (width * 4) (chunks.drop width.toNat)
      return root :: roots

def merkleizeProgressiveU64 (chunks : List Chunk) : Except String Chunk :=
  (subtreesU64 sha256 chunks.length 1 chunks).map fun roots => roots.foldr (hash sha256) zeroChunk

theorem toNat_widen {width : UInt64} {level : Nat} (hwidth : width.toNat = 4 ^ level) (hlevel : level ≤ 30) :
    (width * 4).toNat = 4 ^ (level + 1) := by
  have hle : 4 ^ (level + 1) ≤ 4 ^ 31 := Nat.pow_le_pow_right (by decide) (by omega)
  rw [UInt64.toNat_mul, hwidth, show (4 : UInt64).toNat = 4 from rfl, ← Nat.pow_succ, Nat.mod_eq_of_lt (by omega)]

-- By induction on the subtrees. What is left at one of them bounds its level, and so its width.
theorem progressive_agree (fuel level : Nat) (width : UInt64) (chunks : List Chunk) (hfuel : chunks.length ≤ fuel)
    (hwidth : width.toNat = 4 ^ level) (hsize : chunks ≠ [] → 4 ^ level + 3 * chunks.length ≤ 3 * 2 ^ 60) :
    ∃ root, ProgressiveRoot sha256 (4 ^ level) chunks root ∧
      (subtreesU64 sha256 fuel width chunks).map (fun roots => roots.foldr (hash sha256) zeroChunk) = .ok root ∧
      ExEx.Ssz.merkleizeProgressive sha256 fuel chunks width = .ok root := by
  induction fuel generalizing level width chunks with
  | zero =>
    obtain rfl := length_eq_zero_iff.1 (Nat.le_zero.1 hfuel)
    exact ⟨zeroChunk, .Empty, rfl, rfl⟩
  | succ fuel ih =>
    by_cases hne : chunks = []
    · subst hne
      exact ⟨zeroChunk, .Empty, rfl, rfl⟩
    · have hpos := length_pos_iff.2 hne
      have hroom := hsize hne
      have hfour : 0 < 4 ^ level := Nat.pow_pos (by decide)
      have hlevel : level ≤ 30 := by
        have hlt : 4 ^ level < 4 ^ 31 := by omega
        have := (Nat.pow_lt_pow_iff_right (by decide)).1 hlt
        omega
      have hlimit : 4 ^ level ≤ 2 ^ 62 := by
        have := Nat.pow_le_pow_right (show 0 < 4 by decide) hlevel
        omega
      have htake := length_take_le (4 ^ level) chunks
      obtain ⟨rest, hspec, hguest, hexex⟩ := ih (level + 1) (width * 4) (chunks.drop (4 ^ level))
        (by rw [length_drop]; omega) (toNat_widen hwidth hlevel) (fun hdrop => by
          have := length_pos_iff.2 hdrop
          rw [length_drop] at this ⊢
          rw [Nat.pow_succ]
          omega)
      obtain ⟨roots, hroots, hfold⟩ := map_eq_ok.1 hguest
      refine ⟨_, .Step hne (levelRoot_full sha256 htake) hspec, ?_, ?_⟩
      · rw [subtreesU64, if_neg hne, hwidth, merkleize_levelRoot sha256 htake (Nat.le_trans hlimit (by decide))]
        simp only [bind, Except.bind, hroots]
        exact congrArg (fun r => Except.ok (hash sha256 _ r)) hfold
      · have hmin : chunks.take (min (4 ^ level) chunks.length) = chunks.take (4 ^ level) := by
          rw [← take_eq_take_min]
        have hmin' : chunks.drop (min (4 ^ level) chunks.length) = chunks.drop (4 ^ level) := by
          by_cases hle : 4 ^ level ≤ chunks.length
          · rw [Nat.min_eq_left hle]
          · rw [Nat.min_eq_right (by omega), drop_length, drop_of_length_le (by omega)]
        rw [ExEx.Ssz.merkleizeProgressive, if_neg hne]
        simp only [hwidth, hmin, hmin', exex_merkleize_eq sha256 htake hlimit, hexex]
        rfl

theorem subtreesU64_stuck (fuel : Nat) {chunks : List Chunk} (h : chunks ≠ []) :
    ∃ message, subtreesU64 sha256 fuel 0 chunks = .error message := by
  induction fuel with
  | zero => exact ⟨_, if_neg h⟩
  | succ fuel ih =>
    obtain ⟨message, hmessage⟩ := ih
    refine ⟨message, ?_⟩
    rw [subtreesU64, if_neg h]
    have hroot : merkleize sha256 (chunks.take (0 : UInt64).toNat) (0 : UInt64).toNat = .ok zeroChunk := rfl
    rw [hroot]
    exact congrArg (fun r => r >>= fun roots => Except.ok (zeroChunk :: roots)) hmessage

theorem subtrees_of_u64 {fuel level : Nat} {width : UInt64} {chunks roots : List Chunk}
    (hwidth : width.toNat = 4 ^ level ∨ width = 0) (h : subtreesU64 sha256 fuel width chunks = .ok roots) :
    subtrees sha256 fuel (4 ^ level) chunks = .ok roots := by
  induction fuel generalizing level width chunks roots with
  | zero =>
    rw [subtreesU64] at h
    split at h
    · exact h
    · cases h
  | succ fuel ih =>
    by_cases hne : chunks = []
    · rw [subtreesU64, if_pos hne] at h
      rw [subtrees, if_pos hne]
      exact h
    · obtain hwidth | rfl := hwidth
      · rw [subtreesU64, if_neg hne, hwidth] at h
        obtain ⟨root, hroot, h⟩ := bind_eq_ok.1 h
        obtain ⟨rest, hrest, h⟩ := bind_eq_ok.1 h
        have hnext : (width * 4).toNat = 4 ^ (level + 1) ∨ width * 4 = 0 := by
          by_cases hlevel : level ≤ 30
          · exact .inl (toNat_widen hwidth hlevel)
          · have hlt : 4 ^ level < 4 ^ 32 := hwidth ▸ width.toNat_lt
            have hlevel : level = 31 := by
              have := (Nat.pow_lt_pow_iff_right (show 1 < 4 by decide)).1 hlt
              omega
            subst hlevel
            refine .inr (UInt64.toNat_inj.1 ?_)
            rw [UInt64.toNat_mul, hwidth]
            rfl
        rw [subtrees, if_neg hne, hroot, ← Nat.pow_succ]
        exact bind_eq_ok.2 ⟨root, rfl, bind_eq_ok.2 ⟨rest, ih hnext hrest, h⟩⟩
      · obtain ⟨message, hstuck⟩ := subtreesU64_stuck sha256 (fuel + 1) hne
        rw [hstuck] at h
        cases h

-- The strings hashed for the progressive root of the chunks with a length mixed in.
def mixedInputs (chunks : List Chunk) (length : Nat) : List Bytes :=
  ((marked zeroChunk (uint64Root (UInt64.ofNat length)) (chunks.map .Leaf)).pairs (hash sha256)).map fun pair =>
    pair.1.toList ++ pair.2.toList

theorem injOn_hash {known : List (Chunk × Chunk)}
    (h : Set.InjOn sha256 { s | s ∈ known.map fun pair => pair.1.toList ++ pair.2.toList }) :
    Set.InjOn (Function.uncurry (hash sha256)) { pair | pair ∈ known } := by
  intro pair hpair pair' hpair' heq
  have hjoined := h (mem_map.2 ⟨pair, hpair, rfl⟩) (mem_map.2 ⟨pair', hpair', rfl⟩) heq
  obtain ⟨hleft, hright⟩ := append_inj hjoined (by simp)
  exact Prod.ext (List.Vector.eq _ _ hleft) (List.Vector.eq _ _ hright)

theorem mixed_root {chunks : List Chunk} {length : Nat} {root : Chunk} (hlen : chunks.length < 2 ^ 64)
    (h : merkleizeProgressiveU64 sha256 chunks = .ok root) :
    mixInLength sha256 root length =
      (marked zeroChunk (uint64Root (UInt64.ofNat length)) (chunks.map .Leaf)).root (hash sha256) := by
  obtain ⟨roots, hroots, rfl⟩ := map_eq_ok.1 h
  have hsubtrees := @subtrees_of_u64 sha256 _ 0 1 chunks roots (.inl rfl) hroots
  have hleaves : (chunks.map HashTree.Leaf).map (HashTree.root (hash sha256)) = chunks := by
    rw [map_map]
    exact map_id chunks
  have htree := @merkleizeProgressive_eq sha256 (chunks.map .Leaf) (by rwa [length_map])
  rw [hleaves, merkleizeProgressive] at htree
  rw [Nat.pow_zero] at hsubtrees
  rw [hsubtrees] at htree
  rw [mixInLength, marked, HashTree.root, ← Except.ok.inj htree]
  rfl

theorem mixed_injective {chunks chunks' : List Chunk} {length length' : Nat} {root root' : Chunk}
    (hlen : chunks.length < 2 ^ 64) (hlen' : chunks'.length < 2 ^ 64) (hlength : length < 2 ^ 64)
    (hlength' : length' < 2 ^ 64) (hcount : length = length' → chunks.length = chunks'.length)
    (h : merkleizeProgressiveU64 sha256 chunks = .ok root) (h' : merkleizeProgressiveU64 sha256 chunks' = .ok root')
    (hinj : Set.InjOn sha256 { s | s ∈ mixedInputs sha256 chunks length ++ mixedInputs sha256 chunks' length' })
    (hroot : mixInLength sha256 root length = mixInLength sha256 root' length') : length = length' ∧ chunks = chunks' := by
  rw [mixed_root sha256 hlen h, mixed_root sha256 hlen' h'] at hroot
  rw [mixedInputs, mixedInputs, ← map_append] at hinj
  obtain ⟨hmark, hroots⟩ := marked_injective (injOn_hash sha256 hinj)
    (fun hmark => by
      rw [length_map, length_map]
      exact hcount (uint64Root_ofNat hlength hlength' hmark))
    (subset_append_left _ _) (subset_append_right _ _) hroot
  simp only [map_map, Function.comp_def, HashTree.root, map_id'] at hroots
  exact ⟨uint64Root_ofNat hlength hlength' hmark, hroots⟩

theorem merkleization_agrees :
    (∀ chunks limit, chunks.length ≤ limit → limit ≤ 2 ^ 62 →
      ∃ root, FullRoot sha256 chunks limit root ∧ merkleize sha256 chunks limit = .ok root ∧
        ExEx.Ssz.merkleize sha256 chunks limit = .ok root) ∧
    (∀ chunks, chunks.length < 2 ^ 60 →
      ∃ root, ProgressiveRoot sha256 1 chunks root ∧ merkleizeProgressiveU64 sha256 chunks = .ok root ∧
        ExEx.Ssz.merkleizeProgressive sha256 chunks.length chunks 1 = .ok root) ∧
    (∀ chunks chunks' root root', chunks.length < 2 ^ 64 → chunks'.length < 2 ^ 64 →
      merkleizeProgressiveU64 sha256 chunks = .ok root → merkleizeProgressiveU64 sha256 chunks' = .ok root' →
      Set.InjOn sha256
        { s | s ∈ mixedInputs sha256 chunks chunks.length ++ mixedInputs sha256 chunks' chunks'.length } →
      mixInLength sha256 root chunks.length = mixInLength sha256 root' chunks'.length → chunks = chunks') ∧
    ∀ bytes bytes' root root', bytes.length < 2 ^ 64 → bytes'.length < 2 ^ 64 →
      merkleizeProgressiveU64 sha256 (pack bytes) = .ok root →
      merkleizeProgressiveU64 sha256 (pack bytes') = .ok root' →
      Set.InjOn sha256
        { s | s ∈ mixedInputs sha256 (pack bytes) bytes.length ++ mixedInputs sha256 (pack bytes') bytes'.length } →
      mixInLength sha256 root bytes.length = mixInLength sha256 root' bytes'.length → bytes = bytes' := by
  refine ⟨?_, ?_, ?_, ?_⟩
  · intro chunks limit hle hlimit
    exact ⟨_, levelRoot_full sha256 hle, merkleize_levelRoot sha256 hle (Nat.le_trans hlimit (by decide)),
      exex_merkleize_eq sha256 hle hlimit⟩
  · intro chunks hlen
    exact progressive_agree sha256 chunks.length 0 1 chunks (Nat.le_refl _) rfl fun _ => by
      rw [Nat.pow_zero]
      omega
  · intro chunks chunks' root root' hlen hlen' h h' hinj hroot
    exact (mixed_injective sha256 hlen hlen' hlen hlen' id h h' hinj hroot).2
  · intro bytes bytes' root root' hlen hlen' h h' hinj hroot
    have hpack {bs : Bytes} (hbs : bs.length < 2 ^ 64) : (pack bs).length < 2 ^ 64 := by
      rw [length_pack, chunkCount]
      omega
    have hcount : bytes.length = bytes'.length → (pack bytes).length = (pack bytes').length := by
      intro hsame
      rw [length_pack, length_pack, hsame]
    obtain ⟨hlength, hchunks⟩ := mixed_injective sha256 (hpack hlen) (hpack hlen') hlen hlen' hcount h h' hinj hroot
    exact pack_injective hlength hchunks

end

-- A digest by the sum of the bytes tells the strings of these small lists apart.
def sumDigest (bytes : Bytes) : Bytes32 := digestOf (bytes.foldl (fun n b => n + b.toNat) 7)

-- One zero chunk and none have different roots, and one zero byte and two.
theorem merkleization_agrees_zeros :
    (∃ root, FullRoot sumDigest [zeroChunk] 3 root ∧ merkleize sumDigest [zeroChunk] 3 = .ok root) ∧
      (∃ root, ProgressiveRoot sumDigest 1 [zeroChunk, zeroChunk] root) ∧
      (∀ root root', merkleizeProgressiveU64 sumDigest [] = .ok root →
        merkleizeProgressiveU64 sumDigest [zeroChunk] = .ok root' →
        mixInLength sumDigest root 0 ≠ mixInLength sumDigest root' 1) ∧
      ∀ root root', merkleizeProgressiveU64 sumDigest (pack [0]) = .ok root →
        merkleizeProgressiveU64 sumDigest (pack [0, 0]) = .ok root' →
        mixInLength sumDigest root 1 ≠ mixInLength sumDigest root' 2 := by
  obtain ⟨hbounded, hprogressive, hchunks, hbytes⟩ := merkleization_agrees sumDigest
  refine ⟨?_, ?_, ?_, ?_⟩
  · obtain ⟨root, hfull, hguest, -⟩ := hbounded [zeroChunk] 3 (by decide) (by decide)
    exact ⟨root, hfull, hguest⟩
  · obtain ⟨root, hspec, -⟩ := hprogressive [zeroChunk, zeroChunk] (by decide)
    exact ⟨root, hspec⟩
  · intro root root' h h' hroot
    have hapart : ∀ s ∈ mixedInputs sumDigest [] 0 ++ mixedInputs sumDigest [zeroChunk] 1,
        ∀ t ∈ mixedInputs sumDigest [] 0 ++ mixedInputs sumDigest [zeroChunk] 1,
        sumDigest s = sumDigest t → s = t := by decide +kernel
    exact absurd (hchunks [] [zeroChunk] root root' (by decide) (by decide) h h'
      (fun s hs t ht => hapart s hs t ht) hroot) (by decide)
  · intro root root' h h' hroot
    have hapart : ∀ s ∈ mixedInputs sumDigest (pack [0]) 1 ++ mixedInputs sumDigest (pack [0, 0]) 2,
        ∀ t ∈ mixedInputs sumDigest (pack [0]) 1 ++ mixedInputs sumDigest (pack [0, 0]) 2,
        sumDigest s = sumDigest t → s = t := by decide +kernel
    exact absurd (hbytes [0] [0, 0] root root' (by decide) (by decide) h h'
      (fun s hs t ht => hapart s hs t ht) hroot) (by decide)

end Zeg.Ssz
