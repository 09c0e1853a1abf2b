import Zeg.Zevm.U256

-- The numbers that the limbs of a word stand for.
namespace Zeg.Zevm

open Base Base.Limbs BitVec

namespace U256

variable {a b : U256} {l : List Limb}

theorem exists_limbs (a : U256) : ∃ l0 l1 l2 l3, a = ⟨[l0, l1, l2, l3], rfl⟩ := by
  obtain ⟨l, hl⟩ := a
  match l, hl with
  | [l0, l1, l2, l3], _ => exact ⟨l0, l1, l2, l3, rfl⟩

theorem length_toList (a : U256) : a.toList.length = 4 := a.2

theorem value_toList_lt (a : U256) : value a.toList < 2 ^ 256 := by
  have h := value_lt a.toList
  rwa [length_toList] at h

theorem toNat_word (a : U256) : a.word.toNat = value a.toList := by
  rw [word, toNat_ofNat, Nat.mod_eq_of_lt (value_toList_lt a)]

theorem word_inj (h : a.word = b.word) : a = b := by
  have hvalue : value a.toList = value b.toList := by rw [← toNat_word, ← toNat_word, h]
  exact List.Vector.eq a b (value_inj (by rw [length_toList, length_toList]) hvalue)

theorem word_eq {w : Word} (h : value a.toList = w.toNat) : a.word = w :=
  eq_of_toNat_eq (by rw [toNat_word, h])

theorem value_ofList (l : List Limb) : value (ofList l).toList = value (l.take 4) := by
  rw [value_take_succ, value_take_succ, value_take_succ, value_take_succ, List.take_zero]
  show value [l.getD 0 0, l.getD 1 0, l.getD 2 0, l.getD 3 0] = _
  simp only [value]
  omega

theorem value_ofList_of_length (h : l.length = 4) : value (ofList l).toList = value l := by
  rw [value_ofList, List.take_of_length_le (Nat.le_of_eq h)]

theorem value_small (v : Limb) : value (small v).toList = v.toNat := by
  rw [small, value_ofList]
  simp [value]

theorem limb_ofList (l : List Limb) {i : Nat} (hi : i < 4) : (ofList l).limb i = l.getD i 0 := by
  match i, hi with
  | 0, _ => rfl
  | 1, _ => rfl
  | 2, _ => rfl
  | 3, _ => rfl

theorem value_limbs (a : U256) : value a.toList =
    (a.limb 0).toNat + 2 ^ 64 * (a.limb 1).toNat + 2 ^ 128 * (a.limb 2).toNat + 2 ^ 192 * (a.limb 3).toNat := by
  obtain ⟨l0, l1, l2, l3, rfl⟩ := exists_limbs a
  show value [l0, l1, l2, l3] = l0.toNat + 2 ^ 64 * l1.toNat + 2 ^ 128 * l2.toNat + 2 ^ 192 * l3.toNat
  simp only [value]
  omega

theorem toList_eq_cons (a : U256) : a.toList = a.limb 0 :: a.toList.tail := by
  obtain ⟨l0, l1, l2, l3, rfl⟩ := exists_limbs a
  rfl

theorem length_tail (a : U256) : a.toList.tail.length = 3 := by
  rw [List.length_tail, length_toList]

theorem value_cons_tail (a : U256) : value a.toList = (a.limb 0).toNat + 2 ^ 64 * value a.toList.tail := by
  have h := congrArg value (toList_eq_cons a)
  rwa [value] at h

theorem toNat_eq_zero {x : Limb} : x.toNat = 0 ↔ x = 0 :=
  ⟨fun h => eq_of_toNat_eq h, fun h => by rw [h]; rfl⟩

theorem or_eq_zero {x y : Limb} : x ||| y = 0 ↔ x = 0 ∧ y = 0 := or_eq_zero_iff

theorem fitsLimb_iff (a : U256) : a.fitsLimb = true ↔ value a.toList = (a.limb 0).toNat := by
  rw [fitsLimb, decide_eq_true_iff, or_eq_zero, or_eq_zero, value_limbs, ← toNat_eq_zero,
    ← toNat_eq_zero, ← toNat_eq_zero]
  omega

theorem isZero_iff (a : U256) : a.isZero = true ↔ value a.toList = 0 := by
  rw [isZero, decide_eq_true_iff, or_eq_zero, or_eq_zero, or_eq_zero, value_limbs,
    ← toNat_eq_zero, ← toNat_eq_zero, ← toNat_eq_zero, ← toNat_eq_zero]
  omega

theorem isZero_word (a : U256) : a.isZero = true ↔ a.word = 0 := by
  rw [isZero_iff, ← toNat_word]
  exact ⟨fun h => eq_of_toNat_eq h, fun h => by rw [h]; rfl⟩

theorem sign_iff (a : U256) : a.sign = true ↔ 2 ^ 255 ≤ value a.toList := by
  have h0 := (a.limb 0).isLt
  have h1 := (a.limb 1).isLt
  have h2 := (a.limb 2).isLt
  rw [sign, decide_eq_true_iff, ne_eq, ← toNat_eq_zero, toNat_ushiftRight, Nat.shiftRight_eq_div_pow,
    value_limbs]
  omega

theorem sign_eq_msb (a : U256) : a.sign = a.word.msb := by
  rw [msb_eq_decide, toNat_word, Bool.eq_iff_iff, sign_iff, decide_eq_true_iff]

theorem value_neg (a : U256) : value a.neg.toList = (2 ^ 256 - value a.toList) % 2 ^ 256 := by
  have hlt := value_toList_lt a
  rw [neg, value_ofList_of_length (by rw [length_negate, length_toList]), value_negate, length_toList]
  show (2 ^ 256 - 1 - value a.toList + 1) % 2 ^ 256 = _
  omega

theorem word_neg (a : U256) : a.neg.word = -a.word :=
  word_eq (by rw [value_neg, toNat_neg, toNat_word])

theorem word_small (v : Limb) : (small v).word = BitVec.ofNat 256 v.toNat := by
  rw [word, value_small]

theorem getLsbD_word (a : U256) (i : Nat) : a.word.getLsbD i = (a.limb (i / 64)).getLsbD (i % 64) := by
  have h := testBit_value a.toList i
  rw [← toNat_word] at h
  exact h

theorem value_take_of_eq (a : U256) {k : Nat} (hk : a.limb k = 0) :
    value (a.toList.take (k + 1)) = value (a.toList.take k) := by
  rw [value_take_succ]
  show _ + 2 ^ (64 * k) * (a.limb k).toNat = _
  rw [toNat_eq_zero.mpr hk, Nat.mul_zero, Nat.add_zero]

theorem bit_ne_zero (lane : Limb) (n : Nat) : (lane >>> n) &&& 1 ≠ 0 ↔ lane.toNat / 2 ^ n % 2 = 1 := by
  have hbit : ((lane >>> n) &&& 1).toNat = lane.toNat / 2 ^ n % 2 := by
    rw [toNat_and, toNat_ushiftRight, Nat.shiftRight_eq_div_pow]
    exact Nat.and_one_is_mod _
  rw [ne_eq, ← toNat_eq_zero, hbit]
  omega

end U256

end Zeg.Zevm
