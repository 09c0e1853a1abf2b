import Mathlib.Analysis.Complex.ExponentialBounds
import Zeg.Run

-- fake_exponential: the loop on words always ends, and where the words have room it computes the
-- series of EIP-4844.
namespace Zeg.Run

open Base
open scoped Nat

-- EIP-4844's fake_exponential from one of its rounds on.
inductive Series (numerator denominator : Nat) : Nat → Nat → Nat → Nat → Prop where
  | Stop {i output : Nat} : Series numerator denominator i 0 output output
  | Step {i accum output result : Nat} (hpos : 0 < accum)
      (rest : Series numerator denominator (i + 1) (accum * numerator / (denominator * i)) (output + accum) result) :
      Series numerator denominator i accum output result

def ExactExponential (factor numerator denominator result : Nat) : Prop :=
  ∃ output, Series numerator denominator 1 (factor * denominator) 0 output ∧ result = output / denominator

-- The series whose rounds all stay below 2^256.
inductive Fits (numerator denominator : Nat) : Nat → Nat → Nat → Prop where
  | Stop {i output : Nat} : Fits numerator denominator i 0 output
  | Step {i accum output : Nat} (hproduct : accum * numerator < 2 ^ 256) (hdivisor : denominator * i < 2 ^ 256)
      (hsum : output + accum < 2 ^ 256)
      (rest : Fits numerator denominator (i + 1) (accum * numerator / (denominator * i)) (output + accum)) :
      Fits numerator denominator i accum output

theorem toNat_ofNat_of_lt {n : Nat} (hn : n < 2 ^ 256) : (BitVec.ofNat 256 n).toNat = n := by
  rw [BitVec.toNat_ofNat, Nat.mod_eq_of_lt hn]

theorem ofNat_mul (a b : Nat) : BitVec.ofNat 256 a * BitVec.ofNat 256 b = BitVec.ofNat 256 (a * b) := by
  apply BitVec.eq_of_toNat_eq
  simp only [BitVec.toNat_mul, BitVec.toNat_ofNat, ← Nat.mul_mod]

theorem ofNat_add (a b : Nat) : BitVec.ofNat 256 a + BitVec.ofNat 256 b = BitVec.ofNat 256 (a + b) := by
  apply BitVec.eq_of_toNat_eq
  simp only [BitVec.toNat_add, BitVec.toNat_ofNat, ← Nat.add_mod]

theorem ofNat_div {a b : Nat} (ha : a < 2 ^ 256) (hb : b < 2 ^ 256) :
    BitVec.ofNat 256 a / BitVec.ofNat 256 b = BitVec.ofNat 256 (a / b) := by
  apply BitVec.eq_of_toNat_eq
  have hq : a / b < 2 ^ 256 := Nat.lt_of_le_of_lt (Nat.div_le_self a b) ha
  rw [BitVec.toNat_udiv, toNat_ofNat_of_lt ha, toNat_ofNat_of_lt hb, toNat_ofNat_of_lt hq]

-- By induction on the rounds: the loop on words takes the same ones. The divisor bounds their number.
theorem loop_eq_series {numerator denominator i accum output : Nat} (hden : 0 < denominator)
    (h : Fits numerator denominator i accum output) (hout : output < 2 ^ 256) (fuel : Nat)
    (hfuel : 2 ^ 256 ≤ fuel + i) :
    ∃ result, Series numerator denominator i accum output result ∧ result < 2 ^ 256 ∧
      fakeExponentialLoop (BitVec.ofNat 256 numerator) (BitVec.ofNat 256 denominator) fuel
        (BitVec.ofNat 256 output) (BitVec.ofNat 256 accum) (BitVec.ofNat 256 i) = BitVec.ofNat 256 result := by
  induction h generalizing fuel with
  | Stop =>
    refine ⟨_, .Stop, hout, ?_⟩
    cases fuel with
    | zero => rfl
    | succ fuel => exact if_pos rfl
  | @Step i accum output hproduct hdivisor hsum rest ih =>
    have hi : i < 2 ^ 256 := Nat.lt_of_le_of_lt (Nat.le_mul_of_pos_left i hden) hdivisor
    obtain ⟨fuel, rfl⟩ : ∃ n, fuel = n + 1 := ⟨fuel - 1, by omega⟩
    obtain ⟨result, hseries, hresult, hloop⟩ := ih hsum fuel (by omega)
    by_cases hzero : accum = 0
    · subst hzero
      exact ⟨output, .Stop, hout, if_pos rfl⟩
    · have hne : BitVec.ofNat 256 accum ≠ 0 := by
        intro h
        have := congrArg BitVec.toNat h
        rw [toNat_ofNat_of_lt (by omega)] at this
        exact hzero this
      refine ⟨result, .Step (Nat.pos_of_ne_zero hzero) hseries, hresult, ?_⟩
      rw [fakeExponentialLoop, if_neg hne, ofNat_add, ofNat_mul, ofNat_mul, ofNat_div hproduct hdivisor,
        show (1 : Word) = BitVec.ofNat 256 1 from rfl, ofNat_add]
      exact hloop

section

variable {ratio numerator denominator : Nat}

-- The first `k` Taylor terms of e^ratio.
noncomputable def taylorSum (ratio k : Nat) : ℝ := ∑ j ∈ Finset.range k, (ratio : ℝ) ^ j / j !

theorem taylorSum_succ (ratio k : Nat) : taylorSum ratio (k + 1) = taylorSum ratio k + (ratio : ℝ) ^ k / k ! :=
  Finset.sum_range_succ _ _

theorem taylorSum_nonneg (ratio k : Nat) : 0 ≤ taylorSum ratio k :=
  Finset.sum_nonneg fun _ _ => by positivity

theorem taylorSum_le (ratio k : Nat) : taylorSum ratio k ≤ 3 ^ ratio :=
  calc taylorSum ratio k ≤ Real.exp ratio := Real.sum_le_exp_of_nonneg (Nat.cast_nonneg _) k
    _ = Real.exp 1 ^ ratio := (Real.exp_one_pow ratio).symm
    _ ≤ 3 ^ ratio := pow_le_pow_left₀ (Real.exp_pos 1).le Real.exp_one_lt_three.le ratio

theorem taylorTerm_le (ratio k : Nat) : (ratio : ℝ) ^ k / k ! ≤ 3 ^ ratio := by
  have hsum := taylorSum_le ratio (k + 1)
  rw [taylorSum_succ] at hsum
  linarith [taylorSum_nonneg ratio k]

theorem round_le (hden : 0 < denominator) (hnum : numerator ≤ ratio * denominator) (k accum : Nat) :
    accum * numerator / (denominator * (k + 1)) * (k + 1) ≤ ratio * accum := by
  have hle : accum * numerator / (denominator * (k + 1)) ≤ ratio * accum / (k + 1) :=
    calc accum * numerator / (denominator * (k + 1))
        ≤ accum * (ratio * denominator) / (denominator * (k + 1)) := Nat.div_le_div_right (Nat.mul_le_mul_left _ hnum)
      _ = denominator * (ratio * accum) / (denominator * (k + 1)) := by congr 1; ring
      _ = ratio * accum / (k + 1) := Nat.mul_div_mul_left _ _ hden
  calc accum * numerator / (denominator * (k + 1)) * (k + 1) ≤ ratio * accum / (k + 1) * (k + 1) :=
        Nat.mul_le_mul_right _ hle
    _ ≤ ratio * accum := Nat.div_mul_le_self _ _

theorem round_le_term {k accum next : Nat} (hnext : next * (k + 1) ≤ ratio * accum)
    (haccum : (accum : ℝ) ≤ denominator * ((ratio : ℝ) ^ k / k !)) :
    (next : ℝ) ≤ denominator * ((ratio : ℝ) ^ (k + 1) / (k + 1)!) := by
  have hcast : (next : ℝ) * (k + 1) ≤ ratio * accum := by exact_mod_cast hnext
  have hpos : (0 : ℝ) < k + 1 := by positivity
  calc (next : ℝ) ≤ ratio * accum / (k + 1) := (le_div_iff₀ hpos).2 hcast
    _ ≤ ratio * (denominator * ((ratio : ℝ) ^ k / k !)) / (k + 1) := by gcongr
    _ = denominator * ((ratio : ℝ) ^ (k + 1) / (k + 1)!) := by
        rw [Nat.factorial_succ, pow_succ]
        push_cast
        field_simp

-- By induction on the rounds left. A round that finds anything comes after a term of at least its
-- own index, so the terms bound the rounds as well.
theorem fits_from (hden : 0 < denominator) (hnum : numerator ≤ ratio * denominator)
    (hroom : denominator * 3 ^ ratio * (ratio * denominator + 1) < 2 ^ 256) (left k accum output : Nat)
    (haccum : (accum : ℝ) ≤ denominator * ((ratio : ℝ) ^ k / k !)) (hout : (output : ℝ) ≤ denominator * taylorSum ratio k)
    (hround : 0 < accum → k ≤ ratio * (denominator * 3 ^ ratio)) (hleft : ratio * (denominator * 3 ^ ratio) < k + left) :
    Fits numerator denominator (k + 1) accum output := by
  induction left generalizing k accum output with
  | zero =>
    obtain rfl | hpos := Nat.eq_zero_or_pos accum
    · exact .Stop
    · have := hround hpos
      omega
  | succ left ih =>
    obtain rfl | hpos := Nat.eq_zero_or_pos accum
    · exact .Stop
    · have hterm : accum ≤ denominator * 3 ^ ratio := by
        have : (accum : ℝ) ≤ denominator * 3 ^ ratio :=
          haccum.trans (mul_le_mul_of_nonneg_left (taylorTerm_le ratio k) (Nat.cast_nonneg _))
        exact_mod_cast this
      have hnewOut : ((output + accum : Nat) : ℝ) ≤ denominator * taylorSum ratio (k + 1) := by
        rw [taylorSum_succ, mul_add]
        push_cast
        exact add_le_add hout haccum
      have hsum : output + accum ≤ denominator * 3 ^ ratio := by
        have : ((output + accum : Nat) : ℝ) ≤ denominator * 3 ^ ratio :=
          hnewOut.trans (mul_le_mul_of_nonneg_left (taylorSum_le ratio _) (Nat.cast_nonneg _))
        exact_mod_cast this
      have hone : 1 ≤ 3 ^ ratio := Nat.one_le_pow _ _ (by decide)
      have hnext := round_le hden hnum k accum
      refine .Step ?_ ?_ ?_ (ih (k + 1) _ _ (round_le_term hnext haccum) hnewOut (fun hpos => ?_) (by omega))
      · calc accum * numerator ≤ denominator * 3 ^ ratio * (ratio * denominator) := Nat.mul_le_mul hterm hnum
          _ ≤ denominator * 3 ^ ratio * (ratio * denominator + 1) := Nat.mul_le_mul_left _ (Nat.le_succ _)
          _ < 2 ^ 256 := hroom
      · calc denominator * (k + 1) ≤ denominator * (ratio * (denominator * 3 ^ ratio) + 3 ^ ratio) :=
              Nat.mul_le_mul_left _ (Nat.add_le_add (hround ‹_›) hone)
          _ = denominator * 3 ^ ratio * (ratio * denominator + 1) := by ring
          _ < 2 ^ 256 := hroom
      · calc output + accum ≤ denominator * 3 ^ ratio := hsum
          _ ≤ denominator * 3 ^ ratio * (ratio * denominator + 1) := Nat.le_mul_of_pos_right _ (Nat.succ_pos _)
          _ < 2 ^ 256 := hroom
      · calc k + 1 ≤ accum * numerator / (denominator * (k + 1)) * (k + 1) := Nat.le_mul_of_pos_left _ hpos
          _ ≤ ratio * accum := hnext
          _ ≤ ratio * (denominator * 3 ^ ratio) := Nat.mul_le_mul_left _ hterm

-- Every fee up to e^ratio is computed without a wrap, as far as the words have room for it.
theorem fits_of_ratio (hden : 0 < denominator) (hnum : numerator ≤ ratio * denominator)
    (hroom : denominator * 3 ^ ratio * (ratio * denominator + 1) < 2 ^ 256) :
    Fits numerator denominator 1 denominator 0 :=
  fits_from hden hnum hroom (ratio * (denominator * 3 ^ ratio) + 1) 0 denominator 0 (by simp) (by simp [taylorSum])
    (fun _ => Nat.zero_le _) (by omega)

end

-- The loop as it runs: it ends at a zero accumulator, and no turn before divides by zero.
inductive Turns (numerator denominator : Word) : Nat → Word → Word → Word → Word → Prop where
  | Stop {i output : Word} : Turns numerator denominator 0 i 0 output output
  | Turn {turns : Nat} {i accum output result : Word} (hpos : accum ≠ 0) (hdivisor : denominator * i ≠ 0)
      (rest : Turns numerator denominator turns (i + 1) (accum * numerator / (denominator * i)) (output + accum) result) :
      Turns numerator denominator (turns + 1) i accum output result

section

variable {numerator denominator : Word}

theorem Turns.loop {turns : Nat} {i accum output result : Word}
    (h : Turns numerator denominator turns i accum output result) {fuel : Nat} (hfuel : turns ≤ fuel) :
    fakeExponentialLoop numerator denominator fuel output accum i = result := by
  induction h generalizing fuel with
  | Stop =>
    cases fuel with
    | zero => rfl
    | succ fuel => exact if_pos rfl
  | Turn hpos _ _ ih =>
    obtain ⟨fuel, rfl⟩ : ∃ n, fuel = n + 1 := ⟨fuel - 1, by omega⟩
    rw [fakeExponentialLoop, if_neg hpos]
    exact ih (by omega)

theorem toNat_succ {i : Word} (hi : i.toNat + 1 < 2 ^ 256) : (i + 1).toNat = i.toNat + 1 := by
  rw [BitVec.toNat_add, show (1 : Word).toNat = 1 from rfl, Nat.mod_eq_of_lt hi]

theorem divisor_toNat {i : Word} (h : denominator.toNat * i.toNat < 2 ^ 256) :
    (denominator * i).toNat = denominator.toNat * i.toNat := by
  rw [BitVec.toNat_mul, Nat.mod_eq_of_lt h]

theorem turns_late (hn : numerator.toNat < 2 ^ 64) (hd : 0 < denominator.toNat) (fuel : Nat) (output accum i : Word)
    (hi : 2 ^ 64 ≤ i.toNat) (hsum : denominator.toNat * (accum.toNat + i.toNat) < 2 ^ 256) (hfuel : accum.toNat ≤ fuel) :
    ∃ turns ≤ fuel, ∃ result, Turns numerator denominator turns i accum output result := by
  induction fuel generalizing output accum i with
  | zero =>
    have hzero : accum = 0 := BitVec.eq_of_toNat_eq (by simpa using hfuel)
    subst hzero
    exact ⟨0, Nat.le_refl _, output, .Stop⟩
  | succ fuel ih =>
    by_cases hzero : accum = 0
    · subst hzero
      exact ⟨0, Nat.zero_le _, output, .Stop⟩
    · have hpos : 0 < accum.toNat := Nat.pos_of_ne_zero fun h => hzero (BitVec.eq_of_toNat_eq (by simpa using h))
      have hone := Nat.le_mul_of_pos_left (accum.toNat + i.toNat) hd
      have hle := Nat.mul_le_mul_left denominator.toNat (Nat.le_add_left i.toNat accum.toNat)
      have hdivisor : i.toNat ≤ (denominator * i).toNat := by
        rw [divisor_toNat (by omega)]
        exact Nat.le_mul_of_pos_left _ hd
      have hfall : (accum * numerator / (denominator * i)).toNat < accum.toNat := by
        rw [BitVec.toNat_udiv, Nat.div_lt_iff_lt_mul (by omega), BitVec.toNat_mul]
        calc accum.toNat * numerator.toNat % 2 ^ 256 ≤ accum.toNat * numerator.toNat := Nat.mod_le _ _
          _ < accum.toNat * (denominator * i).toNat := Nat.mul_lt_mul_of_pos_left (by omega) hpos
      have hnext := @toNat_succ i (by omega)
      have hless := Nat.mul_le_mul_left denominator.toNat (show
        (accum * numerator / (denominator * i)).toNat + (i + 1).toNat ≤ accum.toNat + i.toNat by omega)
      obtain ⟨turns, hturns, result, hrest⟩ := ih (output + accum)
        (accum * numerator / (denominator * i)) (i + 1) (by omega) (by omega) (by omega)
      refine ⟨turns + 1, by omega, result, .Turn hzero (fun h => ?_) hrest⟩
      rw [h] at hdivisor
      simp at hdivisor
      omega

theorem quotient_room (hsmall : denominator.toNat < 2 ^ 64) {i : Word} (hi : i.toNat = 2 ^ 64) (product : Word) :
    denominator.toNat * ((product / (denominator * i)).toNat + (i + 1).toNat) < 2 ^ 256 := by
  have hdivisor : denominator.toNat * i.toNat < 2 ^ 128 :=
    calc denominator.toNat * i.toNat < 2 ^ 64 * 2 ^ 64 := Nat.mul_lt_mul_of_lt_of_le hsmall (by omega) (by norm_num)
      _ = 2 ^ 128 := by norm_num
  have hquotient : denominator.toNat * (product / (denominator * i)).toNat ≤ 2 ^ 192 := by
    rw [BitVec.toNat_udiv, divisor_toNat (by omega), Nat.mul_comm _ i.toNat, ← Nat.div_div_eq_div_mul, hi]
    have hlt := product.isLt
    have hle := Nat.mul_div_le (product.toNat / 2 ^ 64) denominator.toNat
    omega
  rw [toNat_succ (by omega), Nat.mul_add, Nat.mul_add]
  omega

theorem divisor_ne_zero (hd : 0 < denominator.toNat) (hsmall : denominator.toNat < 2 ^ 64) {i : Word} (hi : 0 < i.toNat)
    (hle : i.toNat ≤ 2 ^ 64) : denominator * i ≠ 0 := by
  intro h
  have hproduct : denominator.toNat * i.toNat < 2 ^ 64 * 2 ^ 65 := Nat.mul_lt_mul'' hsmall (by omega)
  have hzero := congrArg BitVec.toNat h
  rw [divisor_toNat (by omega)] at hzero
  exact absurd hzero (Nat.mul_pos hd hi).ne'

theorem turns_early (hn : numerator.toNat < 2 ^ 64) (hd : 0 < denominator.toNat)
    (hsmall : denominator.toNat < 2 ^ 64) (left : Nat) (output accum i : Word) (hi : 0 < i.toNat)
    (hleft : i.toNat + left = 2 ^ 64) :
    ∃ turns ≤ 2 ^ 256 + 1 + left, ∃ result, Turns numerator denominator turns i accum output result := by
  induction left generalizing output accum i with
  | zero =>
    by_cases hzero : accum = 0
    · subst hzero
      exact ⟨0, Nat.zero_le _, output, .Stop⟩
    · have hnext := @toNat_succ i (by omega)
      obtain ⟨turns, hturns, result, hrest⟩ := turns_late hn hd (2 ^ 256) (output + accum) _ (i + 1) (by omega)
        (quotient_room hsmall (by omega) (accum * numerator)) (Nat.le_of_lt (BitVec.isLt _))
      exact ⟨turns + 1, by omega, result, .Turn hzero (divisor_ne_zero hd hsmall hi (by omega)) hrest⟩
  | succ left ih =>
    by_cases hzero : accum = 0
    · subst hzero
      exact ⟨0, Nat.zero_le _, output, .Stop⟩
    · have hnext := @toNat_succ i (by omega)
      obtain ⟨turns, hturns, result, hrest⟩ := ih (output + accum) (accum * numerator / (denominator * i)) (i + 1)
        (by omega) (by omega)
      exact ⟨turns + 1, by omega, result, .Turn hzero (divisor_ne_zero hd hsmall hi (by omega)) hrest⟩

end

theorem toNat_word (n : UInt64) : (word n).toNat = n.toNat := by
  have := n.toNat_lt
  rw [word, BitVec.toNat_ofNat, Nat.mod_eq_of_lt (by omega)]

theorem fakeExponential_turns (factor numerator denominator : UInt64) (hd : 0 < denominator) :
    ∃ turns ≤ 2 ^ 256 + 2 ^ 64, ∃ result,
      Turns (word numerator) (word denominator) turns 1 (word factor * word denominator) 0 result := by
  have hpos : 0 < (word denominator).toNat := by
    rw [toNat_word]
    exact UInt64.lt_iff_toNat_lt.mp hd
  obtain ⟨turns, hturns, hresult⟩ := @turns_early (word numerator) (word denominator)
    (by rw [toNat_word]; exact numerator.toNat_lt) hpos (by rw [toNat_word]; exact denominator.toNat_lt) (2 ^ 64 - 1) 0
    (word factor * word denominator) 1 (by decide) (by decide)
  exact ⟨turns, by omega, hresult⟩

theorem fakeExponential_series {numerator denominator : UInt64} (hd : 0 < denominator.toNat)
    (hfits : Fits numerator.toNat denominator.toNat 1 denominator.toNat 0) :
    ∃ fee < 2 ^ 256, ExactExponential 1 numerator.toNat denominator.toNat fee ∧
      fakeExponential 1 numerator denominator = BitVec.ofNat 256 fee := by
  obtain ⟨result, hseries, hresult, hloop⟩ := loop_eq_series hd hfits (by decide) (2 ^ 256 + 2 ^ 65) (by omega)
  have hsmall : denominator.toNat < 2 ^ 256 := Nat.lt_trans denominator.toNat_lt (by decide)
  refine ⟨result / denominator.toNat, Nat.lt_of_le_of_lt (Nat.div_le_self _ _) hresult, ⟨result, ?_, rfl⟩, ?_⟩
  · rwa [Nat.one_mul]
  · rw [← ofNat_div hresult hsmall, ← hloop, fakeExponential, show word 1 = BitVec.ofNat 256 1 from rfl, word, word,
      ofNat_mul, Nat.one_mul]
    rfl

-- The series of a fee up to e^100 has room for every denominator of 32 bits.
theorem fits_hundred {numerator denominator : Nat} (hd : 0 < denominator) (hsmall : denominator < 2 ^ 32)
    (hnum : numerator ≤ 100 * denominator) : Fits numerator denominator 1 denominator 0 := by
  apply fits_of_ratio hd hnum
  calc denominator * 3 ^ 100 * (100 * denominator + 1) ≤ 2 ^ 32 * 3 ^ 100 * (100 * 2 ^ 32 + 1) := by gcongr
    _ < 2 ^ 256 := by norm_num

theorem fakeExponential_ends_exact :
    (∀ factor numerator denominator : UInt64, 0 < denominator →
      ∃ turns result, Turns (word numerator) (word denominator) turns 1 (word factor * word denominator) 0 result ∧
        fakeExponential factor numerator denominator = result / word denominator) ∧
    ∀ numerator denominator : UInt64, 0 < denominator → denominator.toNat < 2 ^ 32 →
      numerator.toNat ≤ 100 * denominator.toNat →
      Fits numerator.toNat denominator.toNat 1 denominator.toNat 0 ∧
        ExactExponential 1 numerator.toNat denominator.toNat (fakeExponential 1 numerator denominator).toNat := by
  constructor
  · intro factor numerator denominator hd
    obtain ⟨turns, hturns, result, h⟩ := fakeExponential_turns factor numerator denominator hd
    refine ⟨turns, result, h, ?_⟩
    rw [fakeExponential, h.loop (by omega)]
  · intro numerator denominator hd hsmall hnum
    have hpos := UInt64.lt_iff_toNat_lt.mp hd
    have hfits := fits_hundred hpos hsmall hnum
    obtain ⟨fee, hfee, hexact, heq⟩ := fakeExponential_series hpos hfits
    refine ⟨hfits, ?_⟩
    rwa [heq, toNat_ofNat_of_lt hfee]

-- The largest ratio, at the update fraction of the last schedule.
theorem fakeExponential_ends_exact_hundredfold :
    (0 : UInt64) < 11684671 ∧ (11684671 : UInt64).toNat < 2 ^ 32 ∧
      (1168467100 : UInt64).toNat ≤ 100 * (11684671 : UInt64).toNat ∧
      ExactExponential 1 (1168467100 : UInt64).toNat (11684671 : UInt64).toNat
        (fakeExponential 1 1168467100 11684671).toNat :=
  ⟨by decide, by decide, by decide,
    (fakeExponential_ends_exact.2 1168467100 11684671 (by decide) (by decide) (by decide)).2⟩

end Zeg.Run
