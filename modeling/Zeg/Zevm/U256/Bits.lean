import Mathlib.Tactic.IntervalCases
import Zeg.Base.EvmWord
import Zeg.Zevm.U256.Values

-- Shifts, bytes and sign extension, bit by bit.
namespace Zeg.Zevm

open Base Base.Limbs U256 List BitVec

variable {x v : U256} {i k n s : Nat}

namespace U256

theorem getLsbD_map (f : Nat → Limb) (hi : i < 256) :
    (ofList ((List.range 4).map f)).word.getLsbD i = (f (i / 64)).getLsbD (i % 64) := by
  have hk : i / 64 < 4 := by omega
  rw [getLsbD_word, limb_ofList _ hk, getD_eq_getElem?_getD, List.getElem?_map, List.getElem?_range hk]
  rfl

theorem word_map_eq {w : Word} {f : Nat → Limb}
    (h : ∀ k j, k < 4 → j < 64 → (f k).getLsbD j = w.getLsbD (64 * k + j)) : (ofList ((List.range 4).map f)).word = w := by
  apply eq_of_getLsbD_eq
  intro i hi
  have hpos : 64 * (i / 64) + i % 64 = i := by omega
  rw [getLsbD_map f hi, h (i / 64) (i % 64) (by omega) (by omega), hpos]

theorem getLsbD_limb (a : U256) {j : Nat} (hj : j < 64) (k : Nat) : (a.limb k).getLsbD j = a.word.getLsbD (64 * k + j) := by
  have hdiv : (64 * k + j) / 64 = k := by omega
  have hmod : (64 * k + j) % 64 = j := by omega
  rw [getLsbD_word, hdiv, hmod]

theorem getLsbD_fill (c : Bool) {j : Nat} (hj : j < 64) : (if c then ~~~0 else 0 : Limb).getLsbD j = c := by
  cases c with
  | false => exact getLsbD_zero
  | true => exact (getLsbD_allOnes (v := 64)).trans (decide_eq_true hj)

end U256

-- Shifts by any number of bits

def leftLimb (a : U256) (n k : Nat) : Limb :=
  (if n / 64 ≤ k then a.limb (k - n / 64) else 0) <<< (n % 64) |||
    (if n % 64 ≠ 0 ∧ n / 64 + 1 ≤ k then a.limb (k - n / 64 - 1) >>> (64 - n % 64) else 0)

theorem leftLimb_word (a : U256) (n : Nat) : (ofList ((List.range 4).map (leftLimb a n))).word = a.word <<< n := by
  apply word_map_eq
  intro k j hk hj
  have hwidth : 64 * k + j < 256 := by omega
  rw [leftLimb, getLsbD_or, getLsbD_shiftLeft, getLsbD_shiftLeft, decide_eq_true hj,
    decide_eq_true hwidth]
  by_cases hlow : j < n % 64
  · -- the bit comes from the limb below
    by_cases hbelow : n / 64 + 1 ≤ k
    · have hpos : 64 * (k - n / 64 - 1) + (64 - n % 64 + j) = 64 * k + j - n := by omega
      have hzero : n % 64 ≠ 0 := by omega
      have hcond : n % 64 ≠ 0 ∧ n / 64 + 1 ≤ k := ⟨hzero, hbelow⟩
      rw [if_pos hcond, getLsbD_ushiftRight, getLsbD_limb a (by omega : 64 - n % 64 + j < 64), hpos,
        decide_eq_true hlow, decide_eq_false (by omega : ¬64 * k + j < n)]
      simp
    · have hcond : ¬(n % 64 ≠ 0 ∧ n / 64 + 1 ≤ k) := fun h => hbelow h.2
      rw [if_neg hcond, decide_eq_true hlow, decide_eq_true (by omega : 64 * k + j < n)]
      simp
  · have hsecond : (if n % 64 ≠ 0 ∧ n / 64 + 1 ≤ k then a.limb (k - n / 64 - 1) >>> (64 - n % 64) else 0).getLsbD j =
        false := by
      split
      · rw [getLsbD_ushiftRight, getLsbD_of_ge _ _ (by omega)]
      · simp
    rw [hsecond, decide_eq_false hlow]
    by_cases hbelow : n / 64 ≤ k
    · have hpos : 64 * (k - n / 64) + (j - n % 64) = 64 * k + j - n := by omega
      rw [if_pos hbelow, getLsbD_limb a (by omega), hpos, decide_eq_false (by omega : ¬64 * k + j < n)]
      simp
    · rw [if_neg hbelow, decide_eq_true (by omega : 64 * k + j < n)]
      simp

theorem getLsbD_above {c : Bool} {above : Limb} (hc : ∀ j < 64, above.getLsbD j = c) (a : U256) (k : Nat) {j : Nat}
    (hj : j < 64) : (if k < 4 then a.limb k else above).getLsbD j =
      if 64 * k + j < 256 then a.word.getLsbD (64 * k + j) else c := by
  by_cases hk : k < 4
  · rw [if_pos hk, if_pos (by omega), getLsbD_limb a hj]
  · rw [if_neg hk, if_neg (by omega), hc j hj]

theorem getLsbD_shiftRight {c : Bool} {above : Limb} (hc : ∀ j < 64, above.getLsbD j = c) (a : U256) (s : Nat)
    (hi : i < 256) : (Guest.shiftRight a s above).word.getLsbD i =
      if i + s < 256 then a.word.getLsbD (i + s) else c := by
  rw [Guest.shiftRight, getLsbD_map _ hi]
  dsimp only
  by_cases hzero : s % 64 = 0
  · have hpos : 64 * (i / 64 + s / 64) + i % 64 = i + s := by omega
    rw [if_neg (not_not.mpr hzero), getLsbD_above hc a _ (by omega), hpos]
  · rw [if_pos hzero, getLsbD_or, getLsbD_ushiftRight, getLsbD_shiftLeft]
    by_cases hlow : s % 64 + i % 64 < 64
    · have hpos : 64 * (i / 64 + s / 64) + (s % 64 + i % 64) = i + s := by omega
      rw [getLsbD_above hc a _ hlow, hpos, decide_eq_true (by omega : i % 64 < 64 - s % 64)]
      simp
    · have hpos : 64 * (i / 64 + s / 64 + 1) + (i % 64 - (64 - s % 64)) = i + s := by omega
      rw [getLsbD_of_ge (if i / 64 + s / 64 < 4 then _ else _) (s % 64 + i % 64) (by omega),
        getLsbD_above hc a _ (by omega : i % 64 - (64 - s % 64) < 64), hpos,
        decide_eq_false (by omega : ¬i % 64 < 64 - s % 64), decide_eq_true (by omega : i % 64 < 64)]
      simp

theorem shiftRight_zero_word (a : U256) (s : Nat) : (Guest.shiftRight a s 0).word = a.word >>> s := by
  apply eq_of_getLsbD_eq
  intro i hi
  have hc : ∀ j < 64, (0 : Limb).getLsbD j = false := fun j _ => getLsbD_zero
  rw [getLsbD_shiftRight hc a s hi, getLsbD_ushiftRight, Nat.add_comm s i]
  split
  · rfl
  · rw [getLsbD_of_ge _ _ (by omega)]

theorem shiftRight_sign_word (a : U256) (s : Nat) :
    (Guest.shiftRight a s (if a.word.msb then ~~~0 else 0)).word = a.word.sshiftRight s := by
  apply eq_of_getLsbD_eq
  intro i hi
  rw [getLsbD_shiftRight (fun j hj => getLsbD_fill _ hj) a s hi, getLsbD_sshiftRight,
    decide_eq_false (by omega : ¬256 ≤ i), Nat.add_comm s i]
  simp

namespace Portable

theorem shl_eq (a : U256) (hn : n < 256) : shl a n = ofList ((List.range 4).map (leftLimb a n)) := by
  rw [shl, if_neg (by omega)]
  unfold leftLimb
  apply congrArg ofList
  have hq : n / 64 < 4 := by omega
  generalize n / 64 = q at hq
  generalize n % 64 = r
  interval_cases q <;> by_cases hr : r = 0 <;> simp [range_succ, hr, BitVec.or_comm]

theorem shl_word (a : U256) (hn : n < 256) : (shl a n).word = a.word <<< n := by rw [shl_eq a hn, leftLimb_word]

theorem shr_eq (a : U256) (hn : n < 256) : shr a n = Guest.shiftRight a n 0 := by
  rw [shr, if_neg (by omega), Guest.shiftRight]
  apply congrArg ofList
  have hq : n / 64 < 4 := by omega
  generalize n / 64 = q at hq
  generalize n % 64 = r
  interval_cases q <;> by_cases hr : r = 0 <;> simp [range_succ, hr]

theorem shr_word (a : U256) (hn : n < 256) : (shr a n).word = a.word >>> n := by rw [shr_eq a hn, shiftRight_zero_word]

theorem fill_word : (fill (~~~0)).word = BitVec.allOnes 256 := by decide

theorem sar_word (a : U256) (hn : n < 256) : (sar a n).word = a.word.sshiftRight n := by
  rw [sar, if_neg (by omega)]
  by_cases hsign : a.sign = true ∧ n ≠ 0
  · rw [if_pos hsign]
    apply word_map_eq
    intro k j hk hj
    have hmsb : a.word.msb = true := by rw [← sign_eq_msb, hsign.1]
    have hwidth : 64 * k + j < 256 := by omega
    rw [getLsbD_or, getLsbD_limb _ hj, getLsbD_limb _ hj, shr_word a hn, shl_word _ (by omega), fill_word,
      getLsbD_ushiftRight, getLsbD_shiftLeft, getLsbD_allOnes, getLsbD_sshiftRight, hmsb]
    by_cases hin : n + (64 * k + j) < 256
    · rw [if_pos hin, decide_eq_true (by omega : 64 * k + j < 256 - n), decide_eq_false (by omega : ¬256 ≤ 64 * k + j)]
      simp
    · rw [if_neg hin, decide_eq_false (by omega : ¬64 * k + j < 256 - n), decide_eq_false (by omega : ¬256 ≤ 64 * k + j),
        decide_eq_true (by omega : 64 * k + j - (256 - n) < 256), decide_eq_true hwidth]
      simp
  · rw [if_neg hsign, shr_word a hn]
    by_cases hzero : n = 0
    · rw [hzero, ushiftRight_zero, sshiftRight_zero]
    · have hmsb : a.word.msb = false := by
        rw [← sign_eq_msb]
        exact Bool.eq_false_iff.mpr fun h => hsign ⟨h, hzero⟩
      rw [sshiftRight_eq_of_msb_false hmsb]

-- Moves of whole bytes

theorem word_ofBytes (bs : List UInt8) (hlen : bs.length = 32) : (ofList (ofBytes bs)).word.toNat = leNat bs := by
  rw [toNat_word, value_ofList_of_length (by rw [length_ofBytes, hlen]), value_ofBytes bs (n := 4) hlen]

theorem leNat_bytes_toList (v : U256) : leNat (bytes v.toList) = v.word.toNat := by rw [leNat_bytes, toNat_word]

theorem length_bytes_toList (v : U256) : (bytes v.toList).length = 32 := by rw [length_bytes, length_toList]

theorem pow_byte (n : Nat) : 256 ^ n = 2 ^ (8 * n) := by rw [Nat.pow_mul]

theorem byteShl_word (v : U256) (hk : k ≤ 32) : (byteShl v k).word = v.word <<< (8 * k) := by
  have hlen : (List.replicate k 0 ++ (bytes v.toList).take (32 - k)).length = 32 := by
    rw [length_append, length_replicate, length_take, length_bytes_toList]
    omega
  have hzeros : leNat (List.replicate k 0) = 0 := by
    have h := leNat_replicate k 0
    simpa using h
  have hpow : 256 ^ k * 256 ^ (32 - k) = 2 ^ 256 := by
    rw [← Nat.pow_add, Nat.add_sub_cancel' hk]
    decide
  apply eq_of_toNat_eq
  rw [byteShl, word_ofBytes _ hlen, leNat_append, hzeros, length_replicate,
    leNat_take _ (by rw [length_bytes_toList]; omega), leNat_bytes_toList, Nat.zero_add, ← Nat.mul_mod_mul_left, hpow,
    toNat_shiftLeft, Nat.shiftLeft_eq, Nat.mul_comm, Nat.pow_mul]

theorem getLsbD_moved {c : Bool} (v : U256) (hk : k ≤ 32) (hi : i < 256) :
    (ofList (ofBytes ((bytes v.toList).drop k ++ List.replicate k (if c then 0xFF else 0)))).word.getLsbD i =
      if i + 8 * k < 256 then v.word.getLsbD (i + 8 * k) else c := by
  have hdrop : ((bytes v.toList).drop k).length = 32 - k := by rw [length_drop, length_bytes_toList]
  have hlen : ((bytes v.toList).drop k ++ List.replicate k (if c then 0xFF else 0)).length = 32 := by
    rw [length_append, hdrop, length_replicate]
    omega
  have hfill : leNat (List.replicate k (if c then 0xFF else 0)) = if c then 2 ^ (8 * k) - 1 else 0 := by
    have h := leNat_replicate k (if c then 0xFF else 0)
    rw [Nat.pow_mul]
    cases c with
    | false => simpa using h
    | true =>
      have hvalue : (0xFF : UInt8).toNat = 255 := rfl
      rw [if_pos rfl, hvalue] at h
      exact Nat.eq_of_mul_eq_mul_left (by decide) h
  have hlow : v.word.toNat / 2 ^ (8 * k) < 2 ^ (8 * (32 - k)) := by
    rw [Nat.div_lt_iff_lt_mul (Nat.two_pow_pos _), ← Nat.pow_add, (by omega : 8 * (32 - k) + 8 * k = 256)]
    exact v.word.isLt
  rw [BitVec.getLsbD, word_ofBytes _ hlen, leNat_append, hdrop, hfill, leNat_drop _ (by rw [length_bytes_toList]; omega),
    leNat_bytes_toList, Nat.add_comm, pow_byte, pow_byte, Nat.testBit_two_pow_mul_add _ hlow, Nat.testBit_div_two_pow]
  by_cases hin : i + 8 * k < 256
  · rw [if_pos hin, if_pos (by omega)]
    rfl
  · rw [if_neg hin, if_neg (by omega)]
    cases c with
    | false => exact Nat.zero_testBit _
    | true => rw [if_pos rfl, Nat.testBit_two_pow_sub_one, decide_eq_true (by omega)]

theorem top_bit_of_byte (b : UInt8) : b &&& 0x80 ≠ 0 ↔ 128 ≤ b.toNat := by
  have hb := b.toNat_lt
  have hand : (b &&& 0x80).toNat = (b.toNat.testBit 7).toNat * 2 ^ 7 := Nat.and_two_pow b.toNat 7
  rw [Nat.testBit_eq_decide_div_mod_eq] at hand
  rw [ne_eq, ← UInt8.toNat_inj, hand]
  by_cases h : b.toNat / 2 ^ 7 % 2 = 1
  · rw [decide_eq_true h]
    exact iff_of_true (by decide) (by omega)
  · rw [decide_eq_false h]
    exact iff_of_false (by decide) (by omega)

theorem signByte_eq_msb (v : U256) : signByte v = v.word.msb := by
  have hlt := v.word.isLt
  rw [signByte, msb_eq_decide, decide_eq_decide, top_bit_of_byte, leNat_getD, leNat_bytes_toList]
  omega

theorem byteShr_word (v : U256) (hk : k ≤ 32) : (byteShr v k).word = v.word >>> (8 * k) := by
  apply eq_of_getLsbD_eq
  intro i hi
  have hmoved := @getLsbD_moved i k false v hk hi
  rw [byteShr, getLsbD_ushiftRight, Nat.add_comm]
  refine hmoved.trans ?_
  split
  · rfl
  · rw [getLsbD_of_ge _ _ (by omega)]

theorem byteSar_word (v : U256) (hk : k ≤ 32) : (byteSar v k).word = v.word.sshiftRight (8 * k) := by
  apply eq_of_getLsbD_eq
  intro i hi
  rw [byteSar, signByte_eq_msb, getLsbD_moved v hk hi, getLsbD_sshiftRight,
    decide_eq_false (by omega : ¬256 ≤ i), Nat.add_comm (8 * k)]
  simp

-- The operands of the shifts

theorem high_bits_eq_zero (x : Limb) : x &&& ~~~0xFF = 0 ↔ x.toNat < 256 := by
  have hapart : (x &&& 0xFF) &&& (x &&& ~~~0xFF) = 0#64 := by
    rw [BitVec.and_assoc, ← BitVec.and_assoc 0xFF, BitVec.and_comm 0xFF x, BitVec.and_assoc x 0xFF, BitVec.and_not_self]
    simp
  have hmod : (x &&& 0xFF).toNat = x.toNat % 2 ^ 8 := Nat.and_two_pow_sub_one_eq_mod _ 8
  have hsum := toNat_add_of_and_eq_zero hapart
  rw [add_eq_or_of_and_eq_zero _ _ hapart, ← and_or_distrib_left, hmod] at hsum
  have hall : x &&& (0xFF ||| ~~~0xFF) = x := and_allOnes
  rw [hall] at hsum
  rw [← toNat_eq_zero]
  omega

theorem lowScalar_eq (v : U256) : lowScalar v = min v.word.toNat 256 := by
  have hlimbs := value_limbs v
  rw [← toNat_word] at hlimbs
  rw [lowScalar]
  by_cases h : v.word.toNat < 256
  · have hzero : (v.limb 1 ||| v.limb 2 ||| v.limb 3 ||| (v.limb 0 &&& ~~~0xFF)) = 0 := by
      rw [or_eq_zero, or_eq_zero, or_eq_zero, high_bits_eq_zero, ← toNat_eq_zero, ← toNat_eq_zero, ← toNat_eq_zero]
      omega
    have hmod : (v.limb 0 &&& 0xFF).toNat = (v.limb 0).toNat % 2 ^ 8 := Nat.and_two_pow_sub_one_eq_mod _ 8
    rw [if_neg (not_not.mpr hzero), hmod]
    omega
  · have hzero : (v.limb 1 ||| v.limb 2 ||| v.limb 3 ||| (v.limb 0 &&& ~~~0xFF)) ≠ 0 := by
      rw [ne_eq, or_eq_zero, or_eq_zero, or_eq_zero, high_bits_eq_zero, ← toNat_eq_zero, ← toNat_eq_zero,
        ← toNat_eq_zero]
      omega
    rw [if_pos hzero]
    omega

theorem small_zero_word : (small 0).word = 0 := by decide

-- A shift that the four routines divide among them.
theorem shift_word {op : Word → Nat → Word} {v top : U256} {bytewise bitwise : U256 → Nat → U256} (shift : U256)
    (hzero : op v.word 0 = v.word) (hbytes : ∀ k ≤ 32, (bytewise v k).word = op v.word (8 * k))
    (hbits : ∀ n < 256, (bitwise v n).word = op v.word n) (htop : ∀ n, 256 ≤ n → top.word = op v.word n) :
    (if 256 ≤ lowScalar shift then top else if lowScalar shift = 0 then v
      else if lowScalar shift % 8 = 0 then bytewise v (lowScalar shift / 8) else bitwise v (lowScalar shift)).word =
      op v.word shift.word.toNat := by
  rw [lowScalar_eq]
  by_cases h : shift.word.toNat < 256
  · rw [Nat.min_eq_left (Nat.le_of_lt h), if_neg (Nat.not_le.mpr h)]
    split
    · next hnone => rw [hnone, hzero]
    · split
      · rw [hbytes _ (by omega), Nat.mul_div_cancel' (Nat.dvd_of_mod_eq_zero ‹_›)]
      · exact hbits _ h
  · rw [Nat.min_eq_right (Nat.not_lt.mp h), if_pos (Nat.le_refl _), htop _ (Nat.not_lt.mp h)]

theorem opShl_word (shift v : U256) : (opShl shift v).word = Evm.shl shift.word v.word := by
  rw [Evm.shl_eq]
  exact shift_word shift (shiftLeft_zero _) (fun _ => byteShl_word v) (fun _ => shl_word v)
    fun _ hn => small_zero_word.trans (shiftLeft_eq_zero hn).symm

theorem opShr_word (shift v : U256) : (opShr shift v).word = Evm.shr shift.word v.word := by
  rw [Evm.shr_eq]
  exact shift_word shift (ushiftRight_zero _) (fun _ => byteShr_word v) (fun _ => shr_word v)
    fun _ hn => small_zero_word.trans (ushiftRight_eq_zero hn).symm

theorem sshiftRight_of_le (w : Word) (hn : 256 ≤ n) : w.sshiftRight n = w.sshiftRight 256 := by
  apply eq_of_getLsbD_eq
  intro i hi
  rw [getLsbD_sshiftRight, getLsbD_sshiftRight, if_neg (by omega), if_neg (by omega)]

theorem opSar_word (shift v : U256) : (opSar shift v).word = Evm.sar shift.word v.word := by
  have hall : (bytes v.toList).drop 32 = [] := by
    rw [drop_eq_nil_iff, length_bytes_toList]
  have hsar := byteSar_word v (Nat.le_refl 32)
  rw [byteSar, hall, nil_append] at hsar
  rw [Evm.sar_eq]
  exact shift_word shift sshiftRight_zero (fun _ => byteSar_word v) (fun _ => sar_word v)
    fun _ hn => hsar.trans (sshiftRight_of_le _ hn).symm

theorem opByte_word (i x : U256) : (opByte i x).word = Evm.byte i.word x.word := by
  rw [opByte, lowScalar_eq, Evm.byte]
  by_cases h : i.word.toNat < 32
  · have hmin : min i.word.toNat 256 = i.word.toNat := by omega
    have hlt : x.word.toNat / 256 ^ (31 - i.word.toNat) % 256 < 2 ^ 64 := by omega
    rw [hmin, if_pos h, if_pos h, word_small, leNat_getD, leNat_bytes_toList, toNat_ofNat,
      Nat.mod_eq_of_lt hlt]
  · rw [if_neg (by omega), if_neg h, small_zero_word]

-- Sign extension

theorem extendFrom_word {bit : Nat} {x : U256} {w : Word} {v above : Limb}
    (hw : ∀ j < 256, w.getLsbD j = x.word.getLsbD (min j bit))
    (hv : ∀ j < 64, v.getLsbD j = if j ≤ bit % 64 then (x.limb (bit / 64)).getLsbD j else x.word.getLsbD bit)
    (habove : ∀ j < 64, above.getLsbD j = x.word.getLsbD bit) : (extendFrom x (bit / 64) v above).word = w := by
  rw [extendFrom]
  apply word_map_eq
  intro k j hk hj
  rw [hw _ (by omega)]
  by_cases hlow : k < bit / 64
  · rw [if_pos hlow, getLsbD_limb x hj, Nat.min_eq_left (by omega)]
  · rw [if_neg hlow]
    by_cases hat : k = bit / 64
    · rw [if_pos hat, hv j hj, getLsbD_limb x hj, ← hat]
      split
      · rw [Nat.min_eq_left (by omega)]
      · rw [Nat.min_eq_right (by omega)]
    · rw [if_neg hat, habove j hj, Nat.min_eq_right (by omega)]

theorem getLsbD_mask {p : Nat} {m : Limb} (hm : m.toNat = 2 ^ (p + 1) - 1) (j : Nat) : m.getLsbD j = decide (j ≤ p) := by
  rw [BitVec.getLsbD, hm, Nat.testBit_two_pow_sub_one, decide_eq_decide]
  exact Nat.lt_succ_iff

theorem toNat_mask {p : Nat} {y : Limb} (hy : y.toNat = 2 ^ (p + 1) % 2 ^ 64) (hp : p < 64) :
    (if p = 63 then ~~~0 else y - 1 : Limb).toNat = 2 ^ (p + 1) - 1 := by
  by_cases h : p = 63
  · rw [if_pos h, h]
    decide
  · have hlt : 2 ^ (p + 1) < 2 ^ 64 := Nat.pow_lt_pow_right (by decide) (by omega)
    have hpos : 0 < 2 ^ (p + 1) := Nat.two_pow_pos _
    rw [if_neg h, toNat_sub_of_le, hy, Nat.mod_eq_of_lt hlt]
    · rfl
    · rw [le_def, hy, Nat.mod_eq_of_lt hlt]
      exact hpos

theorem bit_of_word (x : U256) (bit : Nat) :
    (x.limb (bit / 64) >>> (bit % 64)) &&& 1 ≠ 0 ↔ x.word.getLsbD bit = true := by
  rw [bit_ne_zero, getLsbD_word, BitVec.getLsbD, Nat.testBit_eq_decide_div_mod_eq, decide_eq_true_iff]

theorem opSignextend_word (i x : U256) : (opSignextend i x).word = Evm.signextend i.word x.word := by
  have hsmall : (i.fitsLimb = true ∧ i.limb 0 ≤ 30) ↔ i.word.toNat < 31 := by
    have hlimbs := value_limbs i
    rw [fitsLimb_iff, toNat_word, le_def]
    show _ ∧ (i.limb 0).toNat ≤ 30 ↔ _
    omega
  rw [opSignextend]
  by_cases h : i.word.toNat < 31
  · have hlow : (i.limb 0).toNat = i.word.toNat := by
      rw [toNat_word, ← (fitsLimb_iff i).mp (hsmall.mpr h).1]
    rw [if_pos (hsmall.mpr h)]
    dsimp only
    rw [hlow, Nat.mul_comm _ 8]
    have hw : ∀ j < 256, (Evm.signextend i.word x.word).getLsbD j = x.word.getLsbD (min j (8 * i.word.toNat + 7)) :=
      fun j hj => Evm.getLsbD_signextend h hj
    generalize 8 * i.word.toNat + 7 = bit at hw
    have hone : (1#64 <<< (bit % 64 + 1)).toNat = 2 ^ (bit % 64 + 1) % 2 ^ 64 := by
      rw [toNat_shiftLeft, Nat.shiftLeft_eq]
      exact congrArg (· % 2 ^ 64) (Nat.one_mul _)
    have hmask := getLsbD_mask (toNat_mask hone (Nat.mod_lt _ (by decide)))
    by_cases hsign : x.word.getLsbD bit = true
    · rw [if_pos ((bit_of_word x bit).mpr hsign)]
      refine extendFrom_word hw (fun j hj => ?_) fun j hj => (getLsbD_fill true hj).trans hsign.symm
      rw [getLsbD_or, getLsbD_not, hmask, decide_eq_true hj, hsign]
      by_cases hle : j ≤ bit % 64 <;> simp [hle]
    · rw [if_neg (mt (bit_of_word x bit).mp hsign)]
      have hclear : x.word.getLsbD bit = false := Bool.eq_false_iff.mpr hsign
      refine extendFrom_word hw (fun j _ => ?_) fun j hj => (getLsbD_fill false hj).trans hclear.symm
      rw [getLsbD_and, hmask, hclear]
      by_cases hle : j ≤ bit % 64 <;> simp [hle]
  · rw [if_neg (mt hsmall.mp h), Evm.signextend, if_neg h]

-- Leading zeros

theorem size_eq {n t : Nat} (hlow : 2 ^ t ≤ n) (hhigh : n < 2 ^ (t + 1)) : n.size = t + 1 :=
  Nat.le_antisymm (Nat.size_le.mpr hhigh) (Nat.lt_size.mpr hlow)

theorem size_log2 {n : Nat} (hn : n ≠ 0) : n.size = n.log2 + 1 := size_eq (Nat.log2_self_le hn) Nat.lt_log2_self

theorem size_top {lo x : Nat} (hlo : lo < 2 ^ k) (hx : x ≠ 0) : (lo + 2 ^ k * x).size = k + x.log2 + 1 := by
  have hlow := Nat.log2_self_le hx
  have hhigh : x + 1 ≤ 2 ^ (x.log2 + 1) := Nat.lt_log2_self
  apply size_eq
  · calc 2 ^ (k + x.log2) = 2 ^ k * 2 ^ x.log2 := Nat.pow_add ..
      _ ≤ 2 ^ k * x := Nat.mul_le_mul_left _ hlow
      _ ≤ lo + 2 ^ k * x := Nat.le_add_left ..
  · calc lo + 2 ^ k * x < 2 ^ k * x + 2 ^ k := by omega
      _ = 2 ^ k * (x + 1) := (Nat.mul_succ _ _).symm
      _ ≤ 2 ^ k * 2 ^ (x.log2 + 1) := Nat.mul_le_mul_left _ hhigh
      _ = 2 ^ (k + x.log2 + 1) := (Nat.pow_add ..).symm

theorem size_take_of_ne (a : U256) (hk : a.limb k ≠ 0) :
    (value (a.toList.take (k + 1))).size + clzll (a.limb k) = 64 * (k + 1) := by
  have hne : (a.limb k).toNat ≠ 0 := mt toNat_eq_zero.mp hk
  have hlog : (a.limb k).toNat.log2 < 64 := (Nat.log2_lt hne).mpr (a.limb k).isLt
  rw [value_take_succ]
  show (value (a.toList.take k) + 2 ^ (64 * k) * (a.limb k).toNat).size + _ = _
  rw [size_top (value_take_lt _ _) hne, clzll]
  omega

theorem leading_zeros_step (a : U256) (hk : k < 4) : 256 - (value (a.toList.take (k + 1))).size =
    if a.limb k ≠ 0 then 64 * (3 - k) + clzll (a.limb k) else 256 - (value (a.toList.take k)).size := by
  split
  · next hne =>
    have hsize := size_take_of_ne a hne
    omega
  · next hzero => rw [value_take_of_eq a (not_not.mp hzero)]

theorem opClz_word (a : U256) : (opClz a).word = Evm.clz a.word := by
  have hcount : (if a.limb 3 ≠ 0 then clzll (a.limb 3) else if a.limb 2 ≠ 0 then 64 + clzll (a.limb 2)
      else if a.limb 1 ≠ 0 then 128 + clzll (a.limb 1) else if a.limb 0 ≠ 0 then 192 + clzll (a.limb 0) else 256) =
      256 - a.word.toNat.size := by
    rw [toNat_word, ← take_of_length_le (Nat.le_of_eq (length_toList a)), leading_zeros_step a (by decide),
      leading_zeros_step a (by decide), leading_zeros_step a (by decide), leading_zeros_step a (by decide)]
    simp only [Nat.sub_self, Nat.mul_zero, Nat.zero_add]
    rfl
  rw [opClz, word_small, Evm.clz, toNat_ofNat, hcount, Nat.mod_eq_of_lt (by omega)]

end Portable

end Zeg.Zevm
