import Mathlib.Logic.Relation
import Zeg.Base.BigEndian
import Zeg.Zevm.Code

-- The left-to-right sweep of a bytecode: where its instructions start, the bitset of its jump
-- destinations, and the data of its PUSHes.
namespace Zeg.Zevm

open Base Base.Rlp Relation List

def dataBytes (op : UInt8) : Nat := if 0x60 ≤ op.toNat ∧ op.toNat ≤ 0x7f then op.toNat - 0x5f else 0

-- The instruction at `p` is followed by the one at `q`.
def Precedes (code : Bytes) (p q : Nat) : Prop := ∃ op, code[p]? = some op ∧ q = p + 1 + dataBytes op

def InstructionStart (code : Bytes) : Nat → Prop := ReflTransGen (Precedes code) 0

-- At an instruction, or at or past the end of the code.
def OnBoundary (code : Bytes) (p : Nat) : Prop := InstructionStart code p ∨ code.length ≤ p

variable {code : Bytes} {p q : Nat} {op : UInt8}

theorem instrWidth_eq (op : UInt8) : instrWidth op = 1 + dataBytes op := by
  have hall : ∀ n : Fin 256, instrWidth (UInt8.ofNat n) = 1 + dataBytes (UInt8.ofNat n) := by decide +kernel
  have hop := hall ⟨op.toNat, op.toNat_lt⟩
  rwa [UInt8.ofNat_toNat] at hop

theorem precedes_rightUnique : Relator.RightUnique (Precedes code) := by
  rintro p q q' ⟨op, hop, rfl⟩ ⟨op', hop', rfl⟩
  rw [hop] at hop'
  cases hop'
  rfl

theorem le_of_sweeps (h : ReflTransGen (Precedes code) p q) : p ≤ q := by
  induction h with
  | refl => exact Nat.le_refl p
  | tail _ hstep ih =>
    obtain ⟨op, _, rfl⟩ := hstep
    omega

theorem InstructionStart.next (hp : InstructionStart code p) (hop : code[p]? = some op) :
    InstructionStart code (p + 1 + dataBytes op) :=
  hp.tail ⟨op, hop, rfl⟩

theorem InstructionStart.gap (hp : InstructionStart code p) (hop : code[p]? = some op)
    (hq : InstructionStart code q) (hlt : p < q) : p + 1 + dataBytes op ≤ q := by
  rcases ReflTransGen.total_of_right_unique precedes_rightUnique hp hq with hpq | hqp
  · rcases hpq.cases_head with rfl | ⟨r, ⟨op', hop', rfl⟩, hr⟩
    · omega
    · rw [hop] at hop'
      cases hop'
      exact le_of_sweeps hr
  · have := le_of_sweeps hqp
    omega

-- `p` is the first instruction at or after `bound`.
structure FirstFrom (code : Bytes) (bound p : Nat) : Prop where
  start : InstructionStart code p
  bound_le : bound ≤ p
  least : ∀ q, InstructionStart code q → bound ≤ q → p ≤ q

def HoldsJumpdest (code : Bytes) (i : Nat) : Prop := InstructionStart code i ∧ code[i]? = some 0x5b

-- The bits that the walk sets from the cursor `p` on.
def Marks (code : Bytes) (gStart gEnd p : Nat) (word word' : BitVec 64) : Prop :=
  ∀ j < 64, word'.getLsbD j = true ↔
    word.getLsbD j = true ∨ (p ≤ gStart + j ∧ gStart + j < gEnd ∧ HoldsJumpdest code (gStart + j))

theorem marks_refl {gStart gEnd : Nat} {word : BitVec 64} (hp : gEnd ≤ p) : Marks code gStart gEnd p word word := by
  intro j _
  constructor
  · exact .inl
  · rintro (hbit | ⟨hle, hlt, _⟩)
    · exact hbit
    · omega

theorem getLsbD_set {word : BitVec 64} {k j : Nat} (hj : j < 64) :
    (word ||| (1 <<< k)).getLsbD j = true ↔ word.getLsbD j = true ∨ j = k := by
  have hbit : (BitVec.ofNat 64 (1 <<< k)).getLsbD j = decide (k = j) := by
    rw [BitVec.getLsbD_ofNat, Nat.one_shiftLeft, Nat.testBit_two_pow]
    simp [hj]
  rw [BitVec.getLsbD_or, Bool.or_eq_true, BitVec.natCast_eq_ofNat, hbit, decide_eq_true_iff, @eq_comm Nat k]

theorem marks_step {gStart gEnd : Nat} {word word' : BitVec 64} (hp : InstructionStart code p)
    (hop : code[p]? = some op) (hstart : gStart ≤ p) (hend : p < gEnd)
    (hrest : Marks code gStart gEnd (p + 1 + dataBytes op)
      (if op = 0x5b then word ||| (1 <<< (p - gStart)) else word) word') :
    Marks code gStart gEnd p word word' := by
  intro j hj
  -- the first instruction at or after `p` is that at `p`, the next one starts behind its data
  have hsplit : (p ≤ gStart + j ∧ gStart + j < gEnd ∧ HoldsJumpdest code (gStart + j)) ↔
      (op = 0x5b ∧ j = p - gStart) ∨
        (p + 1 + dataBytes op ≤ gStart + j ∧ gStart + j < gEnd ∧ HoldsJumpdest code (gStart + j)) := by
    constructor
    · rintro ⟨hle, hlt, hholds⟩
      rcases Nat.eq_or_lt_of_le hle with heq | hpj
      · left
        have hbyte := hholds.2
        rw [← heq, hop] at hbyte
        exact ⟨by simpa using hbyte, by omega⟩
      · exact .inr ⟨hp.gap hop hholds.1 hpj, hlt, hholds⟩
    · rintro (⟨rfl, rfl⟩ | ⟨hle, hlt, hholds⟩)
      · have hpos : gStart + (p - gStart) = p := by omega
        rw [hpos]
        exact ⟨Nat.le_refl p, hend, hp, hop⟩
      · exact ⟨by omega, hlt, hholds⟩
  rw [hrest j hj, hsplit]
  by_cases hdest : op = 0x5b
  · rw [if_pos hdest, getLsbD_set hj]
    simp only [hdest, true_and, or_assoc]
  · simp only [hdest, if_false, false_and, false_or]

theorem getD_eq {i : Nat} (hi : i < code.length) : code[i]? = some (code.getD i 0) := by
  simp [List.getD, hi]

-- The walk over a group ends at the first instruction behind it and marks the JUMPDESTs in it.
theorem walkGroup_spec {gStart gEnd : Nat} (hlen : gEnd ≤ code.length)
    (fuel : Nat) (word : BitVec 64) (hp : InstructionStart code p) (hstart : gStart ≤ p) (hfuel : gEnd ≤ p + fuel) :
    InstructionStart code (walkGroup code gStart gEnd fuel p word).1 ∧
      gEnd ≤ (walkGroup code gStart gEnd fuel p word).1 ∧
      (∀ q, InstructionStart code q → gEnd ≤ q → p ≤ q → (walkGroup code gStart gEnd fuel p word).1 ≤ q) ∧
      Marks code gStart gEnd p word (walkGroup code gStart gEnd fuel p word).2 := by
  induction fuel generalizing p word with
  | zero => exact ⟨hp, hfuel, fun _ _ _ hle => hle, marks_refl hfuel⟩
  | succ fuel ih =>
    unfold walkGroup
    by_cases hend : p < gEnd
    · have hop := @getD_eq code p (by omega)
      have hwidth : p + instrWidth (code.getD p 0) = p + 1 + dataBytes (code.getD p 0) := by
        rw [instrWidth_eq, Nat.add_assoc]
      simp only [if_pos hend, hwidth]
      obtain ⟨hstart', hend', hleast, hmarks⟩ := ih _ (hp.next hop) (by omega) (by omega)
      refine ⟨hstart', hend', fun q hq hbound hle => hleast q hq hbound ?_, ?_⟩
      · exact hp.gap hop hq (by omega)
      · exact marks_step hp hop hstart hend hmarks
    · rw [if_neg hend]
      exact ⟨hp, by omega, fun _ _ _ hle => hle, marks_refl (by omega)⟩

theorem HoldsJumpdest.lt_length {i : Nat} (h : HoldsJumpdest code i) : i < code.length :=
  (List.getElem?_eq_some_iff.mp h.2).1

theorem walkGroup_word {gStart gEnd j : Nat} (hwide : gEnd ≤ gStart + 64) (hlen : gEnd ≤ code.length)
    (hp : FirstFrom code gStart p) (hj : j < 64) (hin : HoldsJumpdest code (gStart + j) → gStart + j < gEnd) :
    (walkGroup code gStart gEnd 64 p 0).2.getLsbD j = true ↔ HoldsJumpdest code (gStart + j) := by
  have hbound := hp.bound_le
  have hmarks := (walkGroup_spec hlen 64 0 hp.start hbound (by omega)).2.2.2
  rw [hmarks j hj]
  constructor
  · rintro (hzero | ⟨_, _, hholds⟩)
    · simp at hzero
    · exact hholds
  · intro hholds
    exact .inr ⟨hp.least _ hholds.1 (by omega), hin hholds, hholds⟩

theorem walkGroup_first {gStart : Nat} (hlen : gStart + 64 ≤ code.length) (hp : FirstFrom code gStart p) :
    FirstFrom code (gStart + 64) (walkGroup code gStart (gStart + 64) 64 p 0).1 := by
  have hbound := hp.bound_le
  obtain ⟨hstart, hend, hleast, _⟩ := walkGroup_spec hlen 64 0 hp.start hbound (by omega)
  exact ⟨hstart, hend, fun q hq hle => hleast q hq hle (hp.least q hq (by omega))⟩

theorem getLsbD_none {words : List (BitVec 64)} {k j i : Nat} (hk : words.length ≤ k) (hi : code.length ≤ i) :
    (words.getD k 0).getLsbD j = true ↔ HoldsJumpdest code i := by
  rw [getD_eq_getElem?_getD, List.getElem?_eq_none hk]
  constructor
  · intro hzero
    simp at hzero
  · intro hholds
    have := hholds.lt_length
    omega

-- The words from group `g` on, of which the first `full` are whole groups.
theorem bitsetGroups_word {full g k j : Nat} (hfull : g + full = code.length / 64) (hp : FirstFrom code (g * 64) p)
    (hj : j < 64) :
    ((bitsetGroups code full g p).getD k 0).getLsbD j = true ↔ HoldsJumpdest code ((g + k) * 64 + j) := by
  induction full generalizing g k p with
  | zero =>
    unfold bitsetGroups
    by_cases hrem : code.length % 64 = 0
    · rw [if_pos hrem]
      exact getLsbD_none (Nat.zero_le k) (by omega)
    · rw [if_neg hrem]
      cases k with
      | zero => exact walkGroup_word (by omega) (Nat.le_refl _) hp hj fun hholds => hholds.lt_length
      | succ k => exact getLsbD_none (Nat.le_add_left 1 k) (by omega)
  | succ full ih =>
    cases k with
    | zero => exact walkGroup_word (Nat.le_refl _) (by omega) hp hj fun _ => by omega
    | succ k =>
      have hfirst := walkGroup_first (by omega) hp
      have hnext : g * 64 + 64 = (g + 1) * 64 := by omega
      have hgroup : g + (k + 1) = g + 1 + k := by omega
      rw [hgroup]
      exact ih (by omega) (hnext ▸ hfirst)

-- The jump destinations are the instructions 0x5b, the ones inside the data of a PUSH are not.
theorem bitset_bit (code : Bytes) (i : Nat) :
    ((buildJumpdestBitset code).getD (i / 64) 0).getLsbD (i % 64) = true ↔ HoldsJumpdest code i := by
  have hfirst : FirstFrom code (0 * 64) 0 := ⟨.refl, by omega, fun q _ _ => Nat.zero_le q⟩
  have hpos : (0 + i / 64) * 64 + i % 64 = i := by omega
  have hbit := @bitsetGroups_word code 0 (code.length / 64) 0 (i / 64) (i % 64) (by omega) hfirst
    (Nat.mod_lt i (by omega))
  rwa [hpos] at hbit

theorem isJumpdest_iff (code : Bytes) (i : Nat) : isJumpdest code i = true ↔ HoldsJumpdest code i := by
  unfold isJumpdest
  rw [Bool.and_eq_true, decide_eq_true_iff, bitset_bit]
  exact ⟨fun h => h.2, fun h => ⟨h.lt_length, h⟩⟩

-- Positions behind a boundary

-- The immediates that DUPN, SWAPN and EXCHANGE take would be instructions without data.
theorem dataBytes_eq_zero (hop : op.toNat < 0x60 ∨ 0x7f < op.toNat) : dataBytes op = 0 := by
  rw [dataBytes, if_neg (by omega)]

theorem OnBoundary.start (h : OnBoundary code p) (hp : p < code.length) : InstructionStart code p := by
  rcases h with h | h
  · exact h
  · omega

theorem OnBoundary.next (h : OnBoundary code p) (hop : dataBytes (code.getD p 0) = 0) : OnBoundary code (p + 1) := by
  by_cases hp : p < code.length
  · have hnext := (h.start hp).next (getD_eq hp)
    rw [hop] at hnext
    exact .inl hnext
  · exact .inr (by omega)

theorem OnBoundary.jump (h : isJumpdest code p = true) : OnBoundary code (p + 1) :=
  .inl (((isJumpdest_iff code p).mp h).1.next ((isJumpdest_iff code p).mp h).2)

-- The data of a PUSH

-- The `n` bytes from `p` on, zeros past the end of the code.
def following (code : Bytes) (p n : Nat) : Bytes := (List.range n).map fun i => code.getD (p + i) 0

theorem length_following (p n : Nat) : (following code p n).length = n := by
  rw [following, length_map, length_range]

theorem following_add (p n m : Nat) : following code p (n + m) = following code p n ++ following code (p + n) m := by
  simp [following, range_add, Nat.add_assoc]

theorem getElem?_following {p n i : Nat} (hi : i < n) : (following code p n)[i]? = some (code.getD (p + i) 0) := by
  rw [following, List.getElem?_map, List.getElem?_range hi, Option.map_some]

theorem paddedSlice_eq (code : Bytes) (p n : Nat) : paddedSlice code p n = following code p n := by
  have hfound : ((code.drop p).take n).length = min n (code.length - p) := by
    rw [length_take, length_drop]
  have hlen : (paddedSlice code p n).length = n := by
    rw [paddedSlice, length_append, length_replicate]
    omega
  apply ext_getElem?
  intro i
  by_cases hi : i < n
  · rw [getElem?_following hi]
    by_cases hp : p + i < code.length
    · rw [paddedSlice, List.getElem?_append_left (by omega), List.getElem?_take_of_lt hi, List.getElem?_drop]
      exact getD_eq hp
    · rw [paddedSlice, List.getElem?_append_right (by omega), List.getElem?_replicate_of_lt (by omega),
        getD_eq_getElem?_getD, List.getElem?_eq_none (by omega), Option.getD_none]
  · rw [List.getElem?_eq_none (by omega), List.getElem?_eq_none (by rw [length_following]; omega)]

theorem take_drop_eq {n : Nat} (h : p + n ≤ code.length) : (code.drop p).take n = following code p n := by
  have hzero : n - ((code.drop p).take n).length = 0 := by
    rw [length_take, length_drop]
    omega
  rw [← paddedSlice_eq, paddedSlice, hzero, replicate_zero, append_nil]

theorem toNat_foldl_shiftIn (bytes : Bytes) (hlen : bytes.length ≤ 8) :
    (bytes.foldl shiftIn 0).toNat = readBe bytes := by
  induction bytes using List.reverseRecOn with
  | nil => rfl
  | append_singleton bytes b ih =>
    rw [length_append, length_singleton] at hlen
    have hread := readBe_lt bytes
    have hpow : 256 ^ bytes.length ≤ 256 ^ 7 := Nat.pow_le_pow_right (by decide) (by omega)
    have hb := b.toNat_lt
    have hhigh : readBe bytes <<< 8 % 2 ^ 64 = readBe bytes <<< 8 :=
      Nat.mod_eq_of_lt (by rw [Nat.shiftLeft_eq]; omega)
    have hbyte : b.toNat % 2 ^ 64 = b.toNat := Nat.mod_eq_of_lt (by omega)
    rw [foldl_append, foldl_cons, foldl_nil, readBe_append, shiftIn, BitVec.toNat_or,
      BitVec.toNat_shiftLeft, ih (by omega), BitVec.toNat_ofNat, hhigh, hbyte,
      ← Nat.shiftLeft_add_eq_or_of_lt hb, Nat.shiftLeft_eq]

theorem readBe_following_lt (p n : Nat) : readBe (following code p n) < 256 ^ n := by
  have h := readBe_lt (following code p n)
  rwa [length_following] at h

-- The load of eight bytes, of which the last ones are shifted out.
theorem readBe_shift {p n : Nat} (hn : n ≤ 8) :
    readBe (following code p 8) >>> ((8 - n) * 8) = readBe (following code p n) := by
  have hsplit : following code p 8 = following code p n ++ following code (p + n) (8 - n) := by
    rw [← following_add]
    congr 1
    omega
  have hlow := @readBe_following_lt code (p + n) (8 - n)
  have hread : readBe (following code p 8) =
      readBe (following code p n) * 256 ^ (8 - n) + readBe (following code (p + n) (8 - n)) := by
    have h := readBe_foldl (following code (p + n) (8 - n)) (readBe (following code p n))
    rw [length_following] at h
    rw [hsplit, ← h, readBe, foldl_append]
    rfl
  have hpow : 2 ^ ((8 - n) * 8) = 256 ^ (8 - n) := by rw [Nat.mul_comm, Nat.pow_mul]
  rw [hread, Nat.shiftRight_eq_div_pow, hpow]
  exact Nat.div_eq_of_lt_le (by omega) (by rw [Nat.add_mul]; omega)

theorem smallImmediate_eq {p n : Nat} (hn : n ≤ 8) :
    smallImmediate code p n = BitVec.ofNat 256 (readBe (following code p n)) := by
  have hlt := @readBe_following_lt code p n
  have hpow : 256 ^ n ≤ 256 ^ 8 := Nat.pow_le_pow_right (by decide) hn
  apply BitVec.eq_of_toNat_eq
  rw [BitVec.toNat_ofNat, smallImmediate]
  by_cases hload : p + 8 ≤ code.length
  · rw [if_pos hload, BitVec.toNat_setWidth, BitVec.toNat_ushiftRight, take_drop_eq hload,
      toNat_foldl_shiftIn _ (by rw [length_following]), readBe_shift hn]
  · rw [if_neg hload, BitVec.toNat_setWidth, paddedSlice_eq,
      toNat_foldl_shiftIn _ (by rw [length_following]; exact hn)]

theorem readBe_zeros (n : Nat) (bytes : Bytes) : readBe (List.replicate n 0 ++ bytes) = readBe bytes := by
  induction n with
  | zero => rfl
  | succ n ih => rw [replicate_succ, cons_append, readBe_cons, ih]; simp

theorem bigImmediate_eq {p n : Nat} :
    bigImmediate code p n = BitVec.ofNat 256 (readBe (following code p n)) := by
  apply BitVec.eq_of_toNat_eq
  rw [BitVec.toNat_ofNat, bigImmediate, BigEndian.toNat_ofBytes, readBe_zeros, paddedSlice_eq]

end Zeg.Zevm
