import Zeg.Base.Merkle
import Zeg.Ssz

-- The level loops hash the trees of the SSZ definition.
namespace Zeg.Ssz

open Base Base.Merkle Zeg.Stream List

theorem le_two_pow_depthFor {n : Nat} (h : n ≤ 2 ^ kMaxDepth) : n ≤ 2 ^ depthFor n := by
  cases hfind : (List.range kMaxDepth).find? fun d => n ≤ 2 ^ d with
  | none =>
    rw [depthFor, hfind]
    exact h
  | some d =>
    have hle := List.find?_some hfind
    rw [depthFor, hfind]
    exact of_decide_eq_true hle

theorem depthFor_two_pow {k : Nat} (h : k ≤ kMaxDepth) : depthFor (2 ^ k) = k := by
  obtain hlt | rfl := Nat.lt_or_eq_of_le h
  · have hfind : (List.range kMaxDepth).find? (fun d => 2 ^ k ≤ 2 ^ d) = some k := by
      rw [List.find?_range_eq_some]
      refine ⟨by simp, mem_range.2 hlt, fun d hd => ?_⟩
      simpa using Nat.pow_lt_pow_right (by omega) hd
    rw [depthFor, hfind]
    rfl
  · decide

theorem length_leBytes (n v : Nat) : (leBytes n v).length = n := by simp [leBytes]

theorem leNat_leBytes (n v : Nat) : leNat (leBytes n v) = v % 256 ^ n := by
  induction n generalizing v with
  | zero => simp [leBytes, leNat, Nat.mod_one]
  | succ n ih =>
    have hcons : leBytes (n + 1) v = UInt8.ofNat v :: leBytes n (v / 256) := by
      simp only [leBytes, range_succ_eq_map, map_cons, map_map, Nat.pow_zero, Nat.div_one,
        Function.comp_def, Nat.pow_succ', ← Nat.div_div_eq_div_mul]
    rw [hcons, leNat, ih, Nat.pow_succ', Nat.mod_mul]
    simp

theorem take_bytesAt {n : Nat} {record : Bytes} (h : record.length ≤ n) :
    (bytesAt n record 0).toList.take record.length = record := by
  apply ext_getElem
  · simp [h]
  · intro i h₁ h₂
    simp [bytesAt, List.Vector.toList_mk, h₂]

theorem bytesAt_injective {n : Nat} {record record' : Bytes} (h : record.length ≤ n)
    (hlen : record.length = record'.length) (heq : bytesAt n record 0 = bytesAt n record' 0) : record = record' := by
  have hrecord := take_bytesAt h
  have hrecord' := take_bytesAt (hlen ▸ h)
  rw [heq, hlen] at hrecord
  exact hrecord.symm.trans hrecord'

theorem uint64Root_injective : Function.Injective uint64Root := by
  intro v w h
  have hbytes := bytesAt_injective (by rw [length_leBytes]; decide) (by rw [length_leBytes, length_leBytes]) h
  have hnat := congrArg leNat hbytes
  have hlt (k : UInt64) : k.toNat < 256 ^ 8 := k.toNat_lt
  rw [leNat_leBytes, leNat_leBytes, Nat.mod_eq_of_lt (hlt v), Nat.mod_eq_of_lt (hlt w)] at hnat
  exact UInt64.toNat.inj hnat

theorem uint64Root_ofNat {n m : Nat} (hn : n < 2 ^ 64) (hm : m < 2 ^ 64)
    (h : uint64Root (UInt64.ofNat n) = uint64Root (UInt64.ofNat m)) : n = m := by
  have hnat := congrArg UInt64.toNat (uint64Root_injective h)
  rwa [UInt64.toNat_ofNat_of_lt' hn, UInt64.toNat_ofNat_of_lt' hm] at hnat

theorem length_pack (bytes : Bytes) : (pack bytes).length = chunkCount bytes.length := by simp [pack]

theorem getD_pack {bytes : Bytes} {i : Nat} (h : i < bytes.length) :
    ((pack bytes).getD (i / 32) zeroChunk).toList.getD (i % 32) 0 = bytes.getD i 0 := by
  have hchunk : i / 32 < chunkCount bytes.length := by
    unfold chunkCount
    omega
  have hplace : i % 32 < 32 := Nat.mod_lt _ (by omega)
  have hget : (pack bytes).getD (i / 32) zeroChunk = bytesAt 32 bytes (32 * (i / 32)) := by
    rw [pack, getD_eq_getElem?_getD, List.getElem?_map, List.getElem?_range hchunk]
    rfl
  rw [hget]
  simp [bytesAt, List.Vector.toList_mk, hplace, Nat.div_add_mod]

theorem pack_injective {bytes bytes' : Bytes} (hlen : bytes.length = bytes'.length) (h : pack bytes = pack bytes') :
    bytes = bytes' := by
  apply ext_getElem hlen
  intro i h₁ h₂
  have hget : bytes.getD i 0 = bytes'.getD i 0 := by rw [← getD_pack h₁, ← getD_pack h₂, h]
  simpa [h₁, h₂] using hget

section

variable (sha256 : Bytes → Bytes32)

-- The root of the chunks under `n` more levels, where the missing ones are zero subtrees of depth `d`.
def levelRoot (d : Nat) : Nat → List Chunk → Chunk
  | 0, level => level.headD (zeroHash sha256 d)
  | n + 1, level => hash sha256 (levelRoot d n (level.take (2 ^ n))) (levelRoot d n (level.drop (2 ^ n)))

theorem mergeLevel_take (zero : Chunk) (m : Nat) (level : List Chunk) :
    mergeLevel sha256 zero (level.take (2 * m)) = (mergeLevel sha256 zero level).take m := by
  induction m generalizing level with
  | zero => simp [mergeLevel]
  | succ m ih =>
    match level with
    | [] => simp [mergeLevel]
    | [a] => simp [mergeLevel, Nat.mul_add]
    | a :: b :: rest => simp [mergeLevel, Nat.mul_add, ih]

theorem mergeLevel_drop (zero : Chunk) (m : Nat) (level : List Chunk) :
    mergeLevel sha256 zero (level.drop (2 * m)) = (mergeLevel sha256 zero level).drop m := by
  induction m generalizing level with
  | zero => simp
  | succ m ih =>
    match level with
    | [] => simp [mergeLevel]
    | [a] => simp [mergeLevel, Nat.mul_add]
    | a :: b :: rest => simp [mergeLevel, Nat.mul_add, ih]

theorem levelRoot_succ (d n : Nat) (level : List Chunk) :
    levelRoot sha256 d (n + 1) level = levelRoot sha256 (d + 1) n (mergeLevel sha256 (zeroHash sha256 d) level) := by
  induction n generalizing level with
  | zero =>
    match level with
    | [] => rfl
    | [a] => rfl
    | a :: b :: rest => rfl
  | succ n ih =>
    rw [levelRoot, ih, ih, Nat.pow_succ', mergeLevel_take, mergeLevel_drop]
    rfl

theorem mergeLevel_ne_nil {zero : Chunk} {level : List Chunk} (h : level ≠ []) : mergeLevel sha256 zero level ≠ [] := by
  match level, h with
  | [a], _ => exact cons_ne_nil _ _
  | a :: b :: rest, _ => exact cons_ne_nil _ _

theorem mergeLevels_headD {d n : Nat} {level : List Chunk} (h : level ≠ []) :
    (mergeLevels sha256 d n level).headD zeroChunk = levelRoot sha256 d n level := by
  induction n generalizing d level with
  | zero =>
    obtain ⟨a, rest, rfl⟩ := exists_cons_of_ne_nil h
    rfl
  | succ n ih => rw [mergeLevels, ih (mergeLevel_ne_nil sha256 h), levelRoot_succ]

theorem levelRoot_nil (d n : Nat) : levelRoot sha256 d n [] = zeroHash sha256 (d + n) := by
  induction n with
  | zero => rfl
  | succ n ih => rw [levelRoot, take_nil, drop_nil, ih, ← Nat.add_assoc, zeroHash]

theorem perfect_root (n : Nat) (ts : List (HashTree Chunk)) :
    (perfect zeroChunk n ts).root (hash sha256) = levelRoot sha256 0 n (ts.map (HashTree.root (hash sha256))) := by
  induction n generalizing ts with
  | zero =>
    cases ts with
    | nil => rfl
    | cons t rest => rfl
  | succ n ih => rw [perfect, HashTree.root, ih, ih, map_take, map_drop, levelRoot]

theorem merkleize_eq {ts : List (HashTree Chunk)} {limit : Nat} (h : ts.length ≤ limit) :
    merkleize sha256 (ts.map (HashTree.root (hash sha256))) limit =
      .ok ((perfect zeroChunk (depthFor limit) ts).root (hash sha256)) := by
  rw [merkleize, length_map, if_neg (by omega), perfect_root]
  split
  · next hnil => rw [hnil, levelRoot_nil, Nat.zero_add]
  · next hne => rw [mergeLevels_headD sha256 hne]

-- A turn at level `level` finds chunks only where the earlier ones took all they had room for.
theorem subtrees_eq {fuel level : Nat} {ts : List (HashTree Chunk)} (hfuel : ts.length ≤ fuel)
    (hsize : ts ≠ [] → 4 ^ level + 3 * ts.length ≤ 3 * 2 ^ 64) :
    (subtrees sha256 fuel (4 ^ level) (ts.map (HashTree.root (hash sha256)))).map
        (fun roots => roots.foldr (hash sha256) zeroChunk) =
      .ok ((progressive zeroChunk fuel level ts).root (hash sha256)) := by
  induction fuel generalizing level ts with
  | zero => rfl
  | succ fuel ih =>
    cases hts : ts with
    | nil => rfl
    | cons t rest =>
      rw [← hts]
      have hne : ts.isEmpty = false := by rw [hts]; rfl
      have hmap : ts.map (HashTree.root (hash sha256)) ≠ [] := by rw [hts]; exact cons_ne_nil _ _
      have hpos : 0 < ts.length := by rw [hts]; exact Nat.succ_pos _
      have hroom := hsize (by rw [hts]; exact cons_ne_nil _ _)
      have hlevel : 2 * level ≤ kMaxDepth := by
        have hlt : 4 ^ level < 4 ^ 33 := by omega
        have := (Nat.pow_lt_pow_iff_right (by omega)).1 hlt
        simp only [kMaxDepth]
        omega
      have hwidth : 4 ^ level = 2 ^ (2 * level) := by rw [Nat.pow_mul]
      have hfour : 0 < 4 ^ level := Nat.pow_pos (by omega)
      have hroot := merkleize_eq sha256 (length_take_le (4 ^ level) ts)
      rw [hwidth, depthFor_two_pow hlevel, ← hwidth] at hroot
      have hrest := @ih (level + 1) (ts.drop (4 ^ level)) (by rw [length_drop]; omega)
        (fun hdrop => by
          have := length_pos_iff.2 hdrop
          rw [length_drop] at this ⊢
          rw [Nat.pow_succ]
          omega)
      obtain ⟨roots, hroots, hfold⟩ := map_eq_ok.1 hrest
      rw [progressive, hne, subtrees, if_neg hmap, ← map_take, hroot, ← Nat.pow_succ, ← map_drop]
      simp only [bind, Except.bind, hroots]
      exact congrArg (fun r => Except.ok (hash sha256 _ r)) hfold

theorem merkleizeProgressive_eq {ts : List (HashTree Chunk)} (h : ts.length < 2 ^ 64) :
    merkleizeProgressive sha256 (ts.map (HashTree.root (hash sha256))) =
      .ok ((progressive zeroChunk ts.length 0 ts).root (hash sha256)) := by
  rw [merkleizeProgressive, length_map]
  exact @subtrees_eq sha256 _ 0 ts (Nat.le_refl _) fun _ => by rw [Nat.pow_zero]; omega

end

end Zeg.Ssz
