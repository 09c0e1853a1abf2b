import Zeg.Zevm.U256.Arith
import Zeg.Zevm.U256.Bits

-- The inline routines of the guest, over a precompile that multiplies exactly.
namespace Zeg.Zevm.Guest

open Base Base.Limbs U256 BitVec
open Portable (square_multiply modEq_step power_top word_of_modEq take_four extendFrom_word getLsbD_mask toNat_mask
  bit_of_word small_zero_word sshiftRight_of_le)

-- Both halves of a * b + c.
def Exact (arith : U256 → U256 → U256 → U256 × U256) : Prop :=
  ∀ a b c, value (arith a b c).1.toList + 2 ^ 256 * value (arith a b c).2.toList =
    value a.toList * value b.toList + value c.toList

theorem exact_arith256 : Exact Portable.arith256 := Portable.value_arith256

theorem negative_iff (x : Limb) : negative x = true ↔ 2 ^ 63 ≤ x.toNat := by
  have h : negative x = x.msb := slt_zero_eq_msb
  rw [h, msb_eq_decide, decide_eq_true_iff]

section Exp

variable {arith : U256 → U256 → U256 → U256 × U256} {acc base : U256}

theorem modEq_times (hexact : Exact arith) (a b : U256) :
    value (arith a b (small 0)).1.toList ≡ value a.toList * value b.toList [MOD 2 ^ 256] := by
  have h := hexact a b (small 0)
  rw [value_small] at h
  have hzero : value a.toList * value b.toList + (0 : Limb).toNat = value a.toList * value b.toList := rfl
  rw [← hzero, ← h]
  exact (Nat.add_mul_mod_self_left _ _ _).symm

-- The low j bits of m stand above the sentinel bit, at the top of the word.
def Sentinel (m j : Nat) (t : Limb) : Prop := t.toNat = m % 2 ^ j * 2 ^ (64 - j) + 2 ^ (63 - j)

-- A word with j + 1 bits of m: the top bit, the bits A below it, and the unit q of the sentinel.
theorem sentinel_parts {m j : Nat} {t : Limb} (hj : j < 63) (ht : Sentinel m (j + 1) t) :
    ∃ A B q, 0 < q ∧ A + q ≤ B ∧ 2 * B = 2 ^ 63 ∧ t.toNat = 2 * A + 2 * (B * (m / 2 ^ j % 2)) + q ∧
      m % 2 ^ j * 2 ^ (64 - j) + 2 ^ (63 - j) = 4 * A + 2 * q := by
  have hlow : m % 2 ^ j + 1 ≤ 2 ^ j := Nat.mod_lt m (Nat.two_pow_pos j)
  have h64 : 2 ^ (64 - j) = 4 * 2 ^ (62 - j) := by rw [(by omega : 64 - j = 62 - j + 2), Nat.pow_add, Nat.mul_comm]
  have h63 : 2 ^ (63 - j) = 2 * 2 ^ (62 - j) := by rw [(by omega : 63 - j = 62 - j + 1), Nat.pow_succ, Nat.mul_comm]
  refine ⟨2 ^ (62 - j) * (m % 2 ^ j), 2 ^ (62 - j) * 2 ^ j, 2 ^ (62 - j), Nat.two_pow_pos _, ?_, ?_, ?_, ?_⟩
  · exact Nat.mul_le_mul_left (2 ^ (62 - j)) hlow
  · rw [← Nat.pow_add, (by omega : 62 - j + j = 62)]
    rfl
  · rw [ht, Nat.mod_pow_succ, (by omega : 64 - (j + 1) = 63 - j), (by omega : 63 - (j + 1) = 62 - j), h63]
    ring
  · rw [h64, h63]
    ring

theorem expBits_spec (hexact : Exact arith) (base : U256) (m j fuel : Nat) (t : Limb) (acc : U256)
    (hj : j < 64) (hfuel : j ≤ fuel) (ht : Sentinel m j t) :
    value (expBits arith base fuel t acc).toList ≡
      value acc.toList ^ 2 ^ j * value base.toList ^ (m % 2 ^ j) [MOD 2 ^ 256] := by
  induction j generalizing fuel t acc with
  | zero =>
    have htop : t = 1#64 <<< 63 := by
      apply eq_of_toNat_eq
      rw [ht, Nat.pow_zero, Nat.mod_one, Nat.zero_mul]
      rfl
    have hdone : expBits arith base fuel t acc = acc := by
      cases fuel with
      | zero => rfl
      | succ fuel => exact if_neg (not_not.mpr htop)
    rw [hdone, Nat.pow_zero, Nat.pow_one, Nat.mod_one, Nat.pow_zero, Nat.mul_one]
  | succ j ih =>
    obtain ⟨fuel, rfl⟩ : ∃ f, fuel = f + 1 := ⟨fuel - 1, by omega⟩
    obtain ⟨A, B, q, hq, hAB, hB, htop, hrest⟩ := sentinel_parts (by omega) ht
    have hbit : m / 2 ^ j % 2 < 2 := Nat.mod_lt _ (by decide)
    generalize hb : m / 2 ^ j % 2 = bit at hbit htop
    have hBbit : B * bit = 0 ∧ bit = 0 ∨ B * bit = B ∧ bit = 1 := by
      match bit, hbit with
      | 0, _ => exact .inl ⟨Nat.mul_zero B, rfl⟩
      | 1, _ => exact .inr ⟨Nat.mul_one B, rfl⟩
    have hnext : Sentinel m j (t <<< 1) := by
      rw [Sentinel, hrest, toNat_shiftLeft, Nat.shiftLeft_eq, htop]
      omega
    have hmore : t ≠ 1#64 <<< 63 := by
      intro h
      have hvalue : t.toNat = 2 ^ 63 := by
        rw [h]
        rfl
      omega
    have hneg : negative t = true ↔ bit = 1 := by
      rw [negative_iff, htop]
      omega
    have hstep := @modEq_step (times arith) (modEq_times hexact) _ _ _ acc base hbit hneg
    rw [expBits, if_pos hmore, ← square_multiply, hb]
    exact (ih fuel (t <<< 1) _ (by omega) (by omega) hnext).trans ((hstep.pow _).mul_right _)

-- A limb with j + 1 bits, shifted to the top of the word, and the same with the sentinel behind it.
theorem expLimb_spec (hexact : Exact arith) (base : U256) {m j z : Nat} {e t : Limb} (acc : U256) (hjz : j + z = 63)
    (hfits : m * 2 ^ z < 2 ^ 64) (he : e.toNat = m * 2 ^ z) (ht : t.toNat = (2 * m + 1) * 2 ^ z % 2 ^ 64) :
    value (expLimb arith base e t acc).toList ≡
      value acc.toList ^ 2 ^ (j + 1) * value base.toList ^ m [MOD 2 ^ 256] := by
  have hB : 2 ^ j * 2 ^ z = 2 ^ 63 := by rw [← Nat.pow_add, hjz]
  have hm : m < 2 ^ (j + 1) := by
    have hwide : 2 ^ (j + 1) * 2 ^ z = 2 ^ 64 := by rw [← Nat.pow_add, (by omega : j + 1 + z = 64)]
    exact Nat.lt_of_mul_lt_mul_right (hwide.symm ▸ hfits)
  have hq : 0 < 2 ^ z := Nat.two_pow_pos z
  have hlow : m % 2 ^ j * 2 ^ z + 2 ^ z ≤ 2 ^ 63 := by
    have h := Nat.mul_le_mul_right (2 ^ z) (Nat.mod_lt m (Nat.two_pow_pos j))
    rwa [Nat.succ_mul, hB] at h
  have hsplit : m * 2 ^ z = m % 2 ^ j * 2 ^ z + 2 ^ 63 * (m / 2 ^ j % 2) := by
    have htop : m = m % 2 ^ j + 2 ^ j * (m / 2 ^ j % 2) := by rw [← Nat.mod_pow_succ, Nat.mod_eq_of_lt hm]
    calc m * 2 ^ z = (m % 2 ^ j + 2 ^ j * (m / 2 ^ j % 2)) * 2 ^ z := congrArg (· * 2 ^ z) htop
      _ = m % 2 ^ j * 2 ^ z + 2 ^ j * 2 ^ z * (m / 2 ^ j % 2) := by ring
      _ = _ := by rw [hB]
  have hbit : m / 2 ^ j % 2 < 2 := Nat.mod_lt _ (by decide)
  have hneg : negative e = true ↔ m / 2 ^ j % 2 = 1 := by
    rw [negative_iff, he, hsplit]
    omega
  have hsentinel : Sentinel m j t := by
    have hdouble : (2 * m + 1) * 2 ^ z = 2 * (m * 2 ^ z) + 2 ^ z := by ring
    have hunit : m % 2 ^ j * 2 ^ (64 - j) = 2 * (m % 2 ^ j * 2 ^ z) := by
      rw [(by omega : 64 - j = z + 1), Nat.pow_succ]
      ring
    rw [Sentinel, ht, hdouble, hsplit, hunit, (by omega : 63 - j = z)]
    omega
  have hstep := @modEq_step (times arith) (modEq_times hexact) _ _ _ acc base hbit hneg
  have hmod : m % 2 ^ (j + 1) = m := Nat.mod_eq_of_lt hm
  have hpow := square_multiply (value acc.toList) (value base.toList) m j
  rw [hmod] at hpow
  rw [expLimb, ← hpow]
  exact (expBits_spec hexact base m j 64 t _ (by omega) (by omega) hsentinel).trans ((hstep.pow _).mul_right _)

theorem toNat_sentinel (m : Limb) : ((m <<< 1) ||| 1).toNat = (2 * m.toNat + 1) % 2 ^ 64 := by
  rw [toNat_shiftOne m (by decide)]
  show _ + 1 = _
  omega

theorem normalize_spec (fuel : Nat) (e t : Limb) :
    ∃ z, normalize fuel e t = (e <<< z, t <<< z) ∧ e.toNat * 2 ^ z < 2 ^ 64 := by
  have hstay : ∃ z, (e, t) = (e <<< z, t <<< z) ∧ e.toNat * 2 ^ z < 2 ^ 64 :=
    ⟨0, by rw [shiftLeft_zero, shiftLeft_zero], by rw [Nat.pow_zero, Nat.mul_one]; exact e.isLt⟩
  induction fuel generalizing e t with
  | zero => exact hstay
  | succ fuel ih =>
    rw [normalize]
    by_cases hneg : negative e = true
    · rw [if_pos hneg]
      exact hstay
    · have hlow : e.toNat < 2 ^ 63 := Nat.not_le.mp (mt (negative_iff e).mpr hneg)
      obtain ⟨z, hz, hfits⟩ := ih (e <<< 1) (t <<< 1)
        ⟨0, by rw [shiftLeft_zero, shiftLeft_zero], by rw [Nat.pow_zero, Nat.mul_one]; exact (e <<< 1).isLt⟩
      have hdouble : (e <<< 1).toNat = e.toNat * 2 := by
        rw [toNat_shiftLeft, Nat.shiftLeft_eq]
        omega
      refine ⟨1 + z, ?_, ?_⟩
      · rw [if_neg hneg, hz, shiftLeft_add, shiftLeft_add]
      · rw [hdouble, Nat.mul_assoc, ← Nat.pow_succ'] at hfits
        rwa [Nat.add_comm]

theorem expLimbs_spec (hexact : Exact arith) (base exponent : U256) (n : Nat) (acc : U256) :
    value (expLimbs arith base exponent n acc).toList ≡
      value acc.toList ^ 2 ^ (64 * n) * value base.toList ^ value (exponent.toList.take n) [MOD 2 ^ 256] := by
  induction n generalizing acc with
  | zero => simp [expLimbs, value, Nat.ModEq.refl]
  | succ n ih =>
    have hlimb := @expLimb_spec arith hexact base (exponent.limb n).toNat 63 0 (exponent.limb n) _ acc rfl
      (by rw [Nat.pow_zero, Nat.mul_one]; exact (exponent.limb n).isLt) (by rw [Nat.pow_zero, Nat.mul_one])
      (by rw [toNat_sentinel, Nat.pow_zero, Nat.mul_one])
    rw [expLimbs, ← Portable.power_limb]
    exact (ih _).trans ((hlimb.pow _).mul_right _)

theorem topLimb_spec (exponent : U256) (n : Nat) :
    value (exponent.toList.take n) = value (exponent.toList.take (topLimb exponent n)) ∧
      ∀ w, topLimb exponent n = w + 1 → exponent.limb w ≠ 0 := by
  induction n with
  | zero => exact ⟨rfl, fun w h => absurd h (Nat.succ_ne_zero w).symm⟩
  | succ n ih =>
    rw [topLimb]
    by_cases hzero : exponent.limb n = 0
    · rw [if_pos hzero, value_take_of_eq exponent hzero]
      exact ih
    · rw [if_neg hzero]
      exact ⟨rfl, fun w h => Nat.succ.inj h ▸ hzero⟩

theorem exp_word (hexact : Exact arith) (base exponent : U256) :
    (exp arith base exponent).word = Evm.exp base.word exponent.word := by
  rw [Evm.exp, toNat_word, toNat_word]
  apply word_of_modEq
  obtain ⟨hvalue, hne⟩ := topLimb_spec exponent 4
  rw [take_four] at hvalue
  rw [exp, hvalue]
  generalize topLimb exponent 4 = top at hne
  cases top with
  | zero =>
    rw [List.take_zero]
    exact Nat.ModEq.refl 1
  | succ w =>
    have hlimb : (exponent.limb w).toNat ≠ 0 := mt toNat_eq_zero.mp (hne w rfl)
    obtain ⟨z, hz, hfits⟩ := normalize_spec 64 (exponent.limb w) ((exponent.limb w <<< 1) ||| 1)
    have hlt : z < 64 := by
      have hle : 2 ^ z ≤ (exponent.limb w).toNat * 2 ^ z := Nat.le_mul_of_pos_left _ (Nat.pos_of_ne_zero hlimb)
      exact (Nat.pow_lt_pow_iff_right (by decide : 1 < 2)).mp (Nat.lt_of_le_of_lt hle hfits)
    have hshift : (exponent.limb w <<< z).toNat = (exponent.limb w).toNat * 2 ^ z := by
      rw [toNat_shiftLeft, Nat.shiftLeft_eq, Nat.mod_eq_of_lt hfits]
    have hsentinel : (((exponent.limb w <<< 1) ||| 1) <<< z).toNat =
        (2 * (exponent.limb w).toNat + 1) * 2 ^ z % 2 ^ 64 := by
      rw [toNat_shiftLeft, Nat.shiftLeft_eq, toNat_sentinel, Nat.mod_mul_mod]
    have htop := expLimb_spec hexact base (small 1) (by omega : 63 - z + z = 63) hfits hshift hsentinel
    have hone : value (small 1).toList ^ 2 ^ (63 - z + 1) = 1 := Nat.one_pow _
    rw [hone, Nat.one_mul] at htop
    dsimp only
    rw [hz, ← power_top]
    exact (expLimbs_spec hexact base exponent w _).trans ((htop.pow _).mul_right _)

end Exp

-- Shifts and sign extension

theorem smallOperand_eq (x : U256) {limit : Nat} (hlimit : limit < 2 ^ 64) :
    smallOperand x limit = min x.word.toNat limit := by
  have hlimbs := value_limbs x
  have hcond : (x.fitsLimb = true ∧ (x.limb 0).toNat < limit) ↔ x.word.toNat < limit := by
    rw [fitsLimb_iff, toNat_word]
    omega
  rw [smallOperand]
  by_cases h : x.word.toNat < limit
  · have hvalue := (fitsLimb_iff x).mp (hcond.mpr h).1
    rw [if_pos (hcond.mpr h), ← hvalue, ← toNat_word]
    omega
  · rw [if_neg (mt hcond.mp h)]
    omega

theorem shl_word (shift v : U256) : (shl shift v).word = Evm.shl shift.word v.word := by
  rw [shl, smallOperand_eq shift (by decide), Evm.shl_eq]
  by_cases h : shift.word.toNat < 256
  · have hmin : min shift.word.toNat 256 = shift.word.toNat := Nat.min_eq_left (Nat.le_of_lt h)
    dsimp only
    rw [hmin, if_pos h, ← leftLimb_word]
    refine congrArg (fun l => (ofList l).word) (List.map_congr_left fun k _ => ?_)
    rw [leftLimb]
    by_cases hzero : shift.word.toNat % 64 = 0
    · simp [hzero]
    · by_cases hbelow : shift.word.toNat / 64 + 1 ≤ k
      · simp [hzero, hbelow]
      · simp [hzero, hbelow]
  · have hmin : min shift.word.toNat 256 = 256 := Nat.min_eq_right (Nat.not_lt.mp h)
    dsimp only
    rw [hmin, if_neg (Nat.lt_irrefl 256), small_zero_word, shiftLeft_eq_zero (Nat.not_lt.mp h)]
    rfl

theorem shr_word (shift v : U256) : (shr shift v).word = Evm.shr shift.word v.word := by
  rw [shr, smallOperand_eq shift (by decide), Evm.shr_eq]
  by_cases h : shift.word.toNat < 256
  · rw [Nat.min_eq_left (Nat.le_of_lt h), if_pos h, shiftRight_zero_word]
  · rw [Nat.min_eq_right (Nat.not_lt.mp h), if_neg (Nat.lt_irrefl 256), small_zero_word,
      ushiftRight_eq_zero (Nat.not_lt.mp h)]
    rfl

theorem negative_limb (v : U256) : negative (v.limb 3) = v.word.msb := by
  rw [Bool.eq_iff_iff, negative_iff, ← sign_eq_msb, sign_iff, value_limbs]
  have h0 := (v.limb 0).isLt
  have h1 := (v.limb 1).isLt
  have h2 := (v.limb 2).isLt
  omega

theorem fill_sign_word (v : U256) : (fill (if v.word.msb then ~~~0 else 0)).word = v.word.sshiftRight 256 := by
  apply eq_of_getLsbD_eq
  intro i hi
  rw [getLsbD_sshiftRight, decide_eq_false (by omega : ¬256 ≤ i), if_neg (by omega : ¬256 + i < 256)]
  refine (getLsbD_map (fun _ => if v.word.msb then ~~~0 else 0) hi).trans ?_
  rw [getLsbD_fill _ (by omega)]
  rfl

theorem sar_word (shift v : U256) : (sar shift v).word = Evm.sar shift.word v.word := by
  rw [sar, smallOperand_eq shift (by decide), Evm.sar_eq, negative_limb]
  by_cases h : shift.word.toNat < 256
  · rw [Nat.min_eq_left (Nat.le_of_lt h), if_pos h, shiftRight_sign_word]
  · rw [Nat.min_eq_right (Nat.not_lt.mp h), if_neg (Nat.lt_irrefl 256), fill_sign_word,
      sshiftRight_of_le _ (Nat.not_lt.mp h)]

theorem signextend_word (b v : U256) : (signextend b v).word = Evm.signextend b.word v.word := by
  rw [signextend, smallOperand_eq b (by decide)]
  by_cases h : b.word.toNat < 31
  · have hmin : min b.word.toNat 31 = b.word.toNat := Nat.min_eq_left (Nat.le_of_lt h)
    dsimp only
    rw [hmin, if_pos h]
    have hw : ∀ j < 256, (Evm.signextend b.word v.word).getLsbD j = v.word.getLsbD (min j (8 * b.word.toNat + 7)) :=
      fun j hj => Evm.getLsbD_signextend h hj
    generalize 8 * b.word.toNat + 7 = bit at hw
    have htwo : (2#64 <<< (bit % 64)).toNat = 2 ^ (bit % 64 + 1) % 2 ^ 64 := by
      have hpow : 2 ^ (bit % 64 + 1) = 2 * 2 ^ (bit % 64) := Nat.pow_succ'
      rw [toNat_shiftLeft, Nat.shiftLeft_eq, hpow]
      rfl
    have hmask := getLsbD_mask (toNat_mask htwo (Nat.mod_lt _ (by decide)))
    have hext : (if v.limb (bit / 64) >>> (bit % 64) &&& 1 ≠ 0 then ~~~0 else 0 : Limb) =
        if v.word.getLsbD bit then ~~~0 else 0 := if_congr (bit_of_word v bit) rfl rfl
    have habove := fun j hj => @getLsbD_fill (v.word.getLsbD bit) j hj
    rw [hext]
    refine extendFrom_word hw (fun j hj => ?_) habove
    rw [getLsbD_or, getLsbD_and, getLsbD_and, getLsbD_not, hmask, decide_eq_true hj,
      habove j hj]
    by_cases hle : j ≤ bit % 64 <;> simp [hle]
  · have hmin : min b.word.toNat 31 = 31 := Nat.min_eq_right (Nat.not_lt.mp h)
    dsimp only
    rw [hmin, if_neg (Nat.lt_irrefl 31), Evm.signextend, if_neg h]

end Zeg.Zevm.Guest
