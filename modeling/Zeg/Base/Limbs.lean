import Mathlib.Algebra.Order.Ring.Nat
import Mathlib.Data.Nat.Bitwise
import Mathlib.Tactic.Ring

-- Natural numbers as little-endian lists of 64-bit limbs, and the loops of multi-word arithmetic.
namespace Zeg.Base.Limbs

open List

abbrev Limb := BitVec 64

def value : List Limb → Nat
  | [] => 0
  | x :: xs => x.toNat + 2 ^ 64 * value xs

variable {xs ys : List Limb} {x : Limb} {i n : Nat}

theorem pow_limb (n : Nat) : 2 ^ (64 * (n + 1)) = 2 ^ 64 * 2 ^ (64 * n) := by
  rw [Nat.mul_succ, Nat.pow_add, Nat.mul_comm]

theorem mod_limb (s t p : Nat) : (s + 2 ^ 64 * t) % (2 ^ 64 * p) = s % 2 ^ 64 + 2 ^ 64 * ((s / 2 ^ 64 + t) % p) := by
  rw [Nat.mod_mul, Nat.add_mul_mod_self_left, Nat.add_mul_div_left _ _ (by decide)]

theorem value_lt (xs : List Limb) : value xs < 2 ^ (64 * xs.length) := by
  induction xs with
  | nil => exact Nat.one_pos
  | cons x xs ih =>
    rw [value, length_cons, pow_limb]
    omega

theorem value_append (xs ys : List Limb) : value (xs ++ ys) = value xs + 2 ^ (64 * xs.length) * value ys := by
  induction xs with
  | nil => simp [value]
  | cons x xs ih =>
    rw [cons_append, value, value, ih, length_cons, pow_limb]
    ring

theorem value_zeros (n : Nat) : value (List.replicate n 0) = 0 := by
  induction n with
  | zero => rfl
  | succ n ih => rw [replicate_succ, value, ih]; rfl

theorem value_inj (hlen : xs.length = ys.length) (h : value xs = value ys) : xs = ys := by
  induction xs generalizing ys with
  | nil => exact (eq_nil_of_length_eq_zero hlen.symm).symm
  | cons x xs ih =>
    cases ys with
    | nil => exact absurd hlen (by simp)
    | cons y ys =>
      simp only [value] at h
      have hhead : x = y := BitVec.eq_of_toNat_eq (by omega)
      have htail : xs = ys := ih (by simpa using hlen) (by omega)
      rw [hhead, htail]

theorem testBit_value (xs : List Limb) (i : Nat) :
    (value xs).testBit i = (xs.getD (i / 64) 0).getLsbD (i % 64) := by
  induction xs generalizing i with
  | nil => simp [value]
  | cons x xs ih =>
    rw [value, Nat.add_comm, Nat.testBit_two_pow_mul_add _ x.isLt]
    by_cases hi : i < 64
    · rw [if_pos hi, Nat.div_eq_of_lt hi, Nat.mod_eq_of_lt hi, getD_cons_zero]
      rfl
    · have hdiv : i / 64 = (i - 64) / 64 + 1 := by omega
      have hmod : i % 64 = (i - 64) % 64 := by omega
      rw [if_neg hi, ih, hdiv, hmod, getD_cons_succ]

theorem value_take_succ (xs : List Limb) (i : Nat) :
    value (xs.take (i + 1)) = value (xs.take i) + 2 ^ (64 * i) * (xs.getD i 0).toNat := by
  induction xs generalizing i with
  | nil => simp [value]
  | cons x xs ih =>
    cases i with
    | zero => simp [value]
    | succ i =>
      rw [take_succ_cons, take_succ_cons, value, value, ih, getD_cons_succ, pow_limb]
      ring

-- Sums

-- The carry is that of an addition in 128 bits.
def addLimbs : List Limb → List Limb → Nat → List Limb
  | x :: xs, y :: ys, carry =>
    let s := x.toNat + y.toNat + carry
    BitVec.ofNat 64 s :: addLimbs xs ys (s / 2 ^ 64)
  | _, _, _ => []

theorem length_addLimbs (hlen : xs.length = ys.length) (carry : Nat) : (addLimbs xs ys carry).length = xs.length := by
  induction xs generalizing ys carry with
  | nil => rfl
  | cons x xs ih =>
    cases ys with
    | nil => exact absurd hlen (by simp)
    | cons y ys => simp [addLimbs, ih (by simpa using hlen)]

theorem value_addLimbs (hlen : xs.length = ys.length) (carry : Nat) :
    value (addLimbs xs ys carry) = (value xs + value ys + carry) % 2 ^ (64 * xs.length) := by
  induction xs generalizing ys carry with
  | nil => simp [addLimbs, value, Nat.mod_one]
  | cons x xs ih =>
    cases ys with
    | nil => exact absurd hlen (by simp)
    | cons y ys =>
      have hsum : x.toNat + 2 ^ 64 * value xs + (y.toNat + 2 ^ 64 * value ys) + carry =
          x.toNat + y.toNat + carry + 2 ^ 64 * (value xs + value ys) := by ring
      simp only [addLimbs, value]
      rw [ih (by simpa using hlen), BitVec.toNat_ofNat, length_cons, pow_limb, hsum, mod_limb]
      congr 3
      omega

def ripple : List Limb → Bool → List Limb
  | x :: xs, true => (x + 1) :: ripple xs (x + 1 = 0)
  | xs, _ => xs

theorem length_ripple (xs : List Limb) (carry : Bool) : (ripple xs carry).length = xs.length := by
  fun_induction ripple with
  | case1 x xs ih => exact congrArg (· + 1) ih
  | case2 => rfl

theorem value_ripple (xs : List Limb) (carry : Bool) :
    value (ripple xs carry) = (value xs + carry.toNat) % 2 ^ (64 * xs.length) := by
  induction xs generalizing carry with
  | nil => cases carry <;> simp [ripple, value, Nat.mod_one]
  | cons x xs ih =>
    cases carry with
    | false => exact (Nat.mod_eq_of_lt (value_lt _)).symm
    | true =>
      have hcarry : (decide (x + 1 = 0)).toNat = (x.toNat + 1) / 2 ^ 64 := by
        by_cases hwrap : x + 1 = 0
        · rw [decide_eq_true hwrap, Bool.toNat_true]
          bv_omega
        · rw [decide_eq_false hwrap, Bool.toNat_false]
          bv_omega
      simp only [ripple, value]
      rw [ih, BitVec.toNat_add, hcarry, length_cons, pow_limb, Bool.toNat_true, Nat.add_right_comm, mod_limb,
        Nat.add_comm (value xs)]
      rfl

def unripple : List Limb → Bool → List Limb
  | x :: xs, true => (x - 1) :: unripple xs (x = 0)
  | xs, _ => xs

theorem length_unripple (xs : List Limb) (borrow : Bool) : (unripple xs borrow).length = xs.length := by
  fun_induction unripple with
  | case1 x xs ih => exact congrArg (· + 1) ih
  | case2 => rfl

theorem ripple_unripple (xs : List Limb) (borrow : Bool) : ripple (unripple xs borrow) borrow = xs := by
  fun_induction unripple with
  | case1 x xs ih => rw [ripple, BitVec.sub_add_cancel, ih]
  | case2 xs borrow h =>
    cases xs with
    | nil => rfl
    | cons x xs =>
      cases borrow with
      | false => rfl
      | true => exact absurd rfl (h x xs rfl)

theorem value_unripple (xs : List Limb) (borrow : Bool) :
    value (unripple xs borrow) = (value xs + 2 ^ (64 * xs.length) - borrow.toNat) % 2 ^ (64 * xs.length) := by
  have hlt := value_lt (unripple xs borrow)
  have hback := value_ripple (unripple xs borrow) borrow
  have hborrow := borrow.toNat_le
  rw [length_unripple] at hlt hback
  rw [ripple_unripple] at hback
  rw [hback]
  generalize value (unripple xs borrow) = a at hlt ⊢
  by_cases hwrap : a + borrow.toNat < 2 ^ (64 * xs.length)
  · rw [Nat.mod_eq_of_lt hwrap, Nat.add_right_comm, Nat.add_sub_cancel, Nat.add_mod_right, Nat.mod_eq_of_lt hlt]
  · have hall : a + borrow.toNat = 2 ^ (64 * xs.length) := by omega
    rw [hall, Nat.mod_self, Nat.zero_add, ← hall, Nat.add_sub_cancel, Nat.mod_eq_of_lt (by omega)]

theorem value_complement (xs : List Limb) : value (xs.map (~~~ ·)) = 2 ^ (64 * xs.length) - 1 - value xs := by
  induction xs with
  | nil => rfl
  | cons x xs ih =>
    have hxs := value_lt xs
    rw [map_cons, value, value, ih, BitVec.toNat_not, length_cons, pow_limb]
    omega

-- The two's complement, by adding one to the complement limb by limb.
def negate : List Limb → Limb → List Limb
  | x :: xs, carry =>
    let v := ~~~x + carry
    v :: negate xs (if v < carry then 1 else 0)
  | [], _ => []

theorem length_negate (xs : List Limb) (carry : Limb) : (negate xs carry).length = xs.length := by
  fun_induction negate with
  | case1 x xs carry v ih => exact congrArg (· + 1) ih
  | case2 => rfl

theorem negate_eq (xs : List Limb) : negate xs 0 = xs.map (~~~ ·) ∧ negate xs 1 = ripple (xs.map (~~~ ·)) true := by
  induction xs with
  | nil => exact ⟨rfl, rfl⟩
  | cons x xs ih =>
    have hsame : ~~~x + 0 = ~~~x := BitVec.add_zero _
    have hwrap : (~~~x + 1 < 1) ↔ ~~~x + 1 = 0 := by bv_omega
    simp only [negate, map_cons, ripple, hsame, hwrap]
    refine ⟨?_, congrArg _ ?_⟩
    · rw [if_neg (show ¬~~~x < 0 from BitVec.not_lt_zero), ih.1]
    · by_cases hzero : ~~~x + 1 = 0
      · rw [if_pos hzero, ih.2, decide_eq_true hzero]
      · rw [if_neg hzero, ih.1, decide_eq_false hzero]
        cases xs <;> rfl

theorem value_negate (xs : List Limb) :
    value (negate xs 1) = (2 ^ (64 * xs.length) - 1 - value xs + 1) % 2 ^ (64 * xs.length) := by
  rw [(negate_eq xs).2, value_ripple, value_complement, length_map]
  rfl

-- Products

-- One row: x times the limbs of `ys` on top of what stands in the output, the last carry in the limb
-- behind them.
def mulRow (x : Limb) : List Limb → List Limb → Nat → List Limb
  | y :: ys, o :: os, carry =>
    let t := x.toNat * y.toNat + o.toNat + carry
    BitVec.ofNat 64 t :: mulRow x ys os (t / 2 ^ 64)
  | [], o :: os, carry => (o + BitVec.ofNat 64 carry) :: os
  | _, [], _ => []

def mulRows : List Limb → List Limb → List Limb → List Limb
  | x :: xs, ys, out =>
    match mulRow x ys out 0 with
    | o :: os => o :: mulRows xs ys os
    | [] => []
  | [], _, out => out

theorem mulRow_spec (x : Limb) {ys w zs : List Limb} {carry : Nat} (hlen : w.length = ys.length)
    (hcarry : carry < 2 ^ 64) :
    ∃ w', mulRow x ys (w ++ 0 :: zs) carry = w' ++ zs ∧ w'.length = ys.length + 1 ∧
      value w' = value w + x.toNat * value ys + carry := by
  induction ys generalizing w carry with
  | nil =>
    rw [eq_nil_of_length_eq_zero hlen]
    refine ⟨[0 + BitVec.ofNat 64 carry], rfl, rfl, ?_⟩
    have hlimb : (0 + BitVec.ofNat 64 carry : Limb).toNat = carry := by
      rw [BitVec.toNat_add, BitVec.toNat_ofNat]
      show (0 + _) % _ = _
      omega
    simp only [value, hlimb]
    omega
  | cons y ys ih =>
    cases w with
    | nil => exact absurd hlen (by simp)
    | cons o w =>
      -- the row's limb and carry fit in 128 bits
      have hprod : x.toNat * y.toNat ≤ (2 ^ 64 - 1) * (2 ^ 64 - 1) :=
        Nat.mul_le_mul (Nat.le_pred_of_lt x.isLt) (Nat.le_pred_of_lt y.isLt)
      obtain ⟨w', hrow, hw', hvalue⟩ := @ih w ((x.toNat * y.toNat + o.toNat + carry) / 2 ^ 64)
        (by simpa using hlen) (by omega)
      refine ⟨BitVec.ofNat 64 (x.toNat * y.toNat + o.toNat + carry) :: w', ?_, by simp [hw'], ?_⟩
      · simp only [cons_append, mulRow, hrow]
      · have hdistrib : x.toNat * (y.toNat + 2 ^ 64 * value ys) =
            x.toNat * y.toNat + 2 ^ 64 * (x.toNat * value ys) := by ring
        rw [value, value, value, hvalue, BitVec.toNat_ofNat, hdistrib]
        omega

theorem mulRows_spec {ys : List Limb} (xs : List Limb) {w zs : List Limb} (hlen : w.length = ys.length) :
    (mulRows xs ys (w ++ (List.replicate xs.length 0 ++ zs))).length = w.length + xs.length + zs.length ∧
      value (mulRows xs ys (w ++ (List.replicate xs.length 0 ++ zs))) =
        value w + value xs * value ys + 2 ^ (64 * (w.length + xs.length)) * value zs := by
  induction xs generalizing w with
  | nil => simp [mulRows, value, value_append]
  | cons x xs ih =>
    obtain ⟨w', hrow, hw', hvalue⟩ := @mulRow_spec x ys w (List.replicate xs.length 0 ++ zs) 0 hlen (by decide)
    cases w' with
    | nil => exact absurd hw' (by simp)
    | cons o w' =>
      have hw : w'.length = ys.length := by simpa using hw'
      obtain ⟨hlength, hrest⟩ := ih hw
      have hout : mulRows (x :: xs) ys (w ++ (List.replicate (x :: xs).length 0 ++ zs)) =
          o :: mulRows xs ys (w' ++ (List.replicate xs.length 0 ++ zs)) := by
        rw [length_cons, replicate_succ, cons_append, mulRows, hrow]
        rfl
      rw [hout]
      refine ⟨by simp only [length_cons, hlength]; omega, ?_⟩
      rw [value, hrest, length_cons, hw, ← hlen, ← Nat.add_assoc, pow_limb]
      simp only [value] at hvalue ⊢
      have hdistrib : (x.toNat + 2 ^ 64 * value xs) * value ys =
          x.toNat * value ys + 2 ^ 64 * (value xs * value ys) := by ring
      rw [hdistrib, Nat.mul_assoc]
      omega

-- Comparisons

-- From limb `n` down: the first limbs that differ decide.
def ltFrom (xs ys : List Limb) : Nat → Bool
  | 0 => false
  | i + 1 => if xs.getD i 0 ≠ ys.getD i 0 then xs.getD i 0 < ys.getD i 0 else ltFrom xs ys i

def geFrom (xs ys : List Limb) : Nat → Bool
  | 0 => true
  | i + 1 =>
    if xs.getD i 0 > ys.getD i 0 then true
    else if xs.getD i 0 < ys.getD i 0 then false
    else geFrom xs ys i

theorem value_take (xs : List Limb) (n : Nat) : value (xs.take n) = value xs % 2 ^ (64 * n) := by
  induction xs generalizing n with
  | nil => simp [value]
  | cons x xs ih =>
    cases n with
    | zero => simp [value, Nat.mod_one]
    | succ n =>
      rw [take_succ_cons, value, value, ih, pow_limb, mod_limb, Nat.mod_eq_of_lt x.isLt,
        Nat.div_eq_of_lt x.isLt, Nat.zero_add]

theorem value_take_lt (xs : List Limb) (i : Nat) : value (xs.take i) < 2 ^ (64 * i) := by
  rw [value_take]
  exact Nat.mod_lt _ (Nat.two_pow_pos _)

theorem lt_of_top_lt {a b x y p : Nat} (ha : a < p) (h : x < y) : a + p * x < b + p * y := by
  have hstep : p * x + p ≤ p * y := by
    rw [← Nat.mul_succ]
    exact Nat.mul_le_mul_left p h
  omega

theorem ltFrom_eq (xs ys : List Limb) (n : Nat) : ltFrom xs ys n = decide (value (xs.take n) < value (ys.take n)) := by
  induction n with
  | zero => simp [ltFrom, value]
  | succ i ih =>
    have hx := value_take_lt xs i
    have hy := value_take_lt ys i
    rw [ltFrom, value_take_succ, value_take_succ]
    by_cases heq : xs.getD i 0 = ys.getD i 0
    · rw [if_neg (by simpa using heq), ih, heq]
      simp
    · rw [if_pos heq, decide_eq_decide, BitVec.lt_def]
      have hne : (xs.getD i 0).toNat ≠ (ys.getD i 0).toNat := fun h => heq (BitVec.eq_of_toNat_eq h)
      constructor
      · exact lt_of_top_lt hx
      · intro hlt
        by_contra hge
        have := @lt_of_top_lt _ (value (xs.take i)) _ _ _ hy (show (ys.getD i 0).toNat < (xs.getD i 0).toNat by omega)
        omega

theorem geFrom_eq (xs ys : List Limb) (n : Nat) : geFrom xs ys n = !ltFrom xs ys n := by
  induction n with
  | zero => rfl
  | succ i ih =>
    rw [geFrom, ltFrom, ih]
    generalize xs.getD i 0 = x
    generalize ys.getD i 0 = y
    grind

-- Long division

def shiftLimbs : Nat → List Limb → Limb → List Limb
  | n + 1, x :: xs, carry => ((x <<< 1) ||| carry) :: shiftLimbs n xs (x >>> 63)
  | _, xs, _ => xs

theorem length_shiftLimbs (n : Nat) (xs : List Limb) (carry : Limb) : (shiftLimbs n xs carry).length = xs.length := by
  fun_induction shiftLimbs with
  | case1 n x xs carry ih => exact congrArg (· + 1) ih
  | case2 => rfl

theorem toNat_shiftOne (x : Limb) {carry : Limb} (hcarry : carry.toNat ≤ 1) :
    ((x <<< 1) ||| carry).toNat = 2 * x.toNat % 2 ^ 64 + carry.toNat := by
  have hhalf : 2 * x.toNat % 2 ^ 64 = 2 * (x.toNat % 2 ^ 63) := by omega
  rw [BitVec.toNat_or, BitVec.toNat_shiftLeft, Nat.shiftLeft_eq, Nat.pow_one, Nat.mul_comm, hhalf]
  have hor := Nat.two_pow_add_eq_or_of_lt (show carry.toNat < 2 ^ 1 by omega) (x.toNat % 2 ^ 63)
  rw [← hor]

theorem value_shiftLimbs {carry : Limb} (hcarry : carry.toNat ≤ 1) (hlen : n ≤ xs.length)
    (hfits : 2 * value xs + carry.toNat < 2 ^ (64 * n)) :
    value (shiftLimbs n xs carry) = 2 * value xs + carry.toNat := by
  induction n generalizing xs carry with
  | zero =>
    have hsame : shiftLimbs 0 xs carry = xs := by cases xs <;> rfl
    rw [hsame]
    omega
  | succ n ih =>
    cases xs with
    | nil => exact absurd hlen (by simp)
    | cons x xs =>
      have htop : (x >>> 63).toNat = x.toNat / 2 ^ 63 := by
        rw [BitVec.toNat_ushiftRight, Nat.shiftRight_eq_div_pow]
      rw [value, pow_limb] at hfits
      have hrest := @ih xs (x >>> 63) (by rw [htop]; omega) (by simpa using hlen) (by rw [htop]; omega)
      rw [shiftLimbs, value, value, hrest, toNat_shiftOne x hcarry, htop]
      omega

-- The first `n` limbs less those of `ys`, in 128 bits that wrap.
def subLimbs : Nat → List Limb → List Limb → Nat → List Limb
  | n + 1, x :: xs, ys, borrow =>
    let t := (2 ^ 128 + x.toNat - (ys.headD 0).toNat - borrow) % 2 ^ 128
    BitVec.ofNat 64 t :: subLimbs n xs ys.tail (t / 2 ^ 64 % 2)
  | _, xs, _, _ => xs

theorem length_subLimbs (n : Nat) (xs ys : List Limb) (borrow : Nat) : (subLimbs n xs ys borrow).length = xs.length := by
  fun_induction subLimbs with
  | case1 n x xs ys borrow t ih => exact congrArg (· + 1) ih
  | case2 => rfl

theorem value_headD_tail (ys : List Limb) : value ys = (ys.headD 0).toNat + 2 ^ 64 * value ys.tail := by
  cases ys <;> rfl

theorem value_subLimbs {borrow : Nat} (hborrow : borrow ≤ 1) (hlen : n ≤ xs.length) (hfits : value xs < 2 ^ (64 * n))
    (hle : value ys + borrow ≤ value xs) :
    value (subLimbs n xs ys borrow) = value xs - value ys - borrow := by
  induction n generalizing xs ys borrow with
  | zero =>
    have hsame : subLimbs 0 xs ys borrow = xs := by cases xs <;> rfl
    rw [hsame]
    omega
  | succ n ih =>
    cases xs with
    | nil => exact absurd hlen (by simp)
    | cons x xs =>
      rw [value, pow_limb] at hfits
      rw [value, value_headD_tail ys] at hle
      simp only [subLimbs]
      -- a borrow is taken exactly when the limb is too small
      by_cases hlt : x.toNat < (ys.headD 0).toNat + borrow
      · have hwide : (2 ^ 128 + x.toNat - (ys.headD 0).toNat - borrow) % 2 ^ 128 =
            2 ^ 128 + x.toNat - (ys.headD 0).toNat - borrow := Nat.mod_eq_of_lt (by omega)
        have hnext : (2 ^ 128 + x.toNat - (ys.headD 0).toNat - borrow) / 2 ^ 64 % 2 = 1 := by omega
        rw [hwide, hnext, value, ih (Nat.le_refl 1) (by simpa using hlen) (by omega) (by omega),
          BitVec.toNat_ofNat, value, value_headD_tail ys]
        omega
      · have hwide : (2 ^ 128 + x.toNat - (ys.headD 0).toNat - borrow) % 2 ^ 128 =
            x.toNat - (ys.headD 0).toNat - borrow := by omega
        have hnext : (x.toNat - (ys.headD 0).toNat - borrow) / 2 ^ 64 % 2 = 0 := by omega
        rw [hwide, hnext, value, ih (Nat.zero_le 1) (by simpa using hlen) (by omega) (by omega),
          BitVec.toNat_ofNat, value, value_headD_tail ys]
        omega

-- x >= y on the first `n` limbs of x, of which those that y does not have are looked at first.
def geLimbs (n : Nat) (xs ys : List Limb) : Bool :=
  (List.range' ys.length (n - ys.length)).any (fun i => xs.getD i 0 ≠ 0) || geFrom xs ys ys.length

theorem geLimbs_eq_geFrom (xs ys : List Limb) (k : Nat) :
    geLimbs (ys.length + k) xs ys = geFrom xs ys (ys.length + k) := by
  rw [geLimbs, Nat.add_sub_cancel_left]
  induction k with
  | zero => rfl
  | succ k ih =>
    have hnone : ys.getD (ys.length + k) 0 = 0 := by simp
    rw [← Nat.add_assoc, geFrom, hnone, ← ih, List.range'_1_concat, any_append, any_cons, any_nil]
    generalize xs.getD (ys.length + k) 0 = x
    grind

theorem geLimbs_eq (hn : ys.length ≤ n) (hfits : value xs < 2 ^ (64 * n)) :
    geLimbs n xs ys = decide (value ys ≤ value xs) := by
  obtain ⟨k, rfl⟩ := Nat.exists_eq_add_of_le hn
  rw [geLimbs_eq_geFrom, geFrom_eq, ltFrom_eq, take_of_length_le hn, value_take, Nat.mod_eq_of_lt hfits,
    ← decide_not, decide_eq_decide]
  exact Nat.not_lt

theorem value_modify {k : Nat} (hk : k < xs.length) (f : Limb → Limb) :
    value (xs.modify k f) + 2 ^ (64 * k) * (xs.getD k 0).toNat = value xs + 2 ^ (64 * k) * (f (xs.getD k 0)).toNat := by
  induction xs generalizing k with
  | nil => exact absurd hk (by simp)
  | cons x xs ih =>
    cases k with
    | zero =>
      simp only [modify_zero_cons, value, getD_cons_zero, Nat.mul_zero, Nat.pow_zero, Nat.one_mul]
      omega
    | succ k =>
      have hrest := ih (by simpa using hk)
      rw [modify_succ_cons, value, value, getD_cons_succ, pow_limb, Nat.mul_assoc, Nat.mul_assoc]
      omega

theorem value_setBit (hi : i / 64 < xs.length) (hclear : (value xs).testBit i = false) :
    value (xs.modify (i / 64) (· ||| (1#64 <<< (i % 64)))) = value xs + 2 ^ i := by
  have hbit : (1#64 <<< (i % 64)).toNat = 2 ^ (i % 64) := by
    rw [← BitVec.twoPow_eq, BitVec.toNat_twoPow_of_lt (Nat.mod_lt i (by decide))]
  have hlimb : (xs.getD (i / 64) 0 ||| (1#64 <<< (i % 64))).toNat = (xs.getD (i / 64) 0).toNat + 2 ^ (i % 64) := by
    have hdisjoint : xs.getD (i / 64) 0 &&& (1#64 <<< (i % 64)) = 0#64 := by
      rw [← BitVec.twoPow_eq, BitVec.and_twoPow, ← testBit_value, hclear]
      rfl
    rw [← BitVec.add_eq_or_of_and_eq_zero _ _ hdisjoint, BitVec.toNat_add_of_and_eq_zero hdisjoint, hbit]
  have hmodify := @value_modify xs (i / 64) hi (· ||| (1#64 <<< (i % 64)))
  have hpow : 2 ^ (64 * (i / 64)) * 2 ^ (i % 64) = 2 ^ i := by rw [← Nat.pow_add, Nat.div_add_mod]
  simp only [hlimb, Nat.mul_add, hpow] at hmodify
  omega

-- One bit of the dividend `a`: the remainder with the bit behind it, less `b` if it is as large. The
-- flag is the bit of the quotient.
def remStep (a b : List Limb) (width i : Nat) (r : List Limb) : List Limb × Bool :=
  let r := (shiftLimbs width r 0).modify 0 (· ||| ((a.getD (i / 64) 0 >>> (i % 64)) &&& 1#64))
  if geLimbs width r b then (subLimbs width r b 0, true) else (r, false)

def remLoop (a b : List Limb) (width : Nat) : Nat → List Limb → List Limb
  | 0, r => r
  | i + 1, r => remLoop a b width i (remStep a b width i r).1

def divLoop (a b : List Limb) (width : Nat) : Nat → List Limb → List Limb → List Limb × List Limb
  | 0, q, r => (q, r)
  | i + 1, q, r =>
    divLoop a b width i
      (if (remStep a b width i r).2 then q.modify (i / 64) (· ||| (1#64 <<< (i % 64))) else q)
      (remStep a b width i r).1

section Division

variable {a b r : List Limb} {width : Nat}

theorem bit_eq (a : List Limb) (i : Nat) :
    ((a.getD (i / 64) 0 >>> (i % 64)) &&& 1#64).toNat = ((value a).testBit i).toNat := by
  rw [testBit_value, BitVec.toNat_and, BitVec.toNat_ushiftRight]
  show _ &&& 1 = _
  rw [Nat.and_one_is_mod, Nat.shiftRight_eq_div_pow, ← Nat.toNat_testBit]
  rfl

theorem value_shiftIn (hwidth : width ≤ r.length) (hpos : 0 < r.length) (hfits : 2 * value r + 1 < 2 ^ (64 * width)) :
    value ((shiftLimbs width r 0).modify 0 (· ||| ((a.getD (i / 64) 0 >>> (i % 64)) &&& 1#64))) =
      2 * value r + ((value a).testBit i).toNat := by
  have hshift : value (shiftLimbs width r 0) = 2 * value r := by
    have h := @value_shiftLimbs r width 0 (by decide) hwidth (by simpa using Nat.lt_of_succ_lt hfits)
    simpa using h
  have hbit := bit_eq a i
  cases hvalue : (value a).testBit i with
  | false =>
    rw [hvalue] at hbit
    have hzero : (a.getD (i / 64) 0 >>> (i % 64)) &&& 1#64 = 0#64 := BitVec.eq_of_toNat_eq hbit
    have hmodify := @value_modify (shiftLimbs width r 0) 0 (by rw [length_shiftLimbs]; exact hpos) (· ||| 0#64)
    simp only [BitVec.or_zero] at hmodify
    rw [hzero, hshift.symm]
    simp only [BitVec.or_zero, Bool.toNat_false]
    omega
  | true =>
    rw [hvalue] at hbit
    have hone : (a.getD (i / 64) 0 >>> (i % 64)) &&& 1#64 = 1#64 := BitVec.eq_of_toNat_eq hbit
    have hset := @value_setBit (shiftLimbs width r 0) 0 (by rw [length_shiftLimbs]; exact hpos)
      (by rw [hshift]; simp)
    rw [hone, ← hshift]
    exact hset

theorem length_remStep : (remStep a b width i r).1.length = r.length := by
  unfold remStep
  dsimp only
  split
  · rw [length_subLimbs, length_modify, length_shiftLimbs]
  · rw [length_modify, length_shiftLimbs]

theorem remStep_spec (hb : b.length < width) (hwidth : width ≤ r.length) (hr : value r < value b) :
    value (remStep a b width i r).1 = (2 * value r + ((value a).testBit i).toNat) % value b ∧
      (remStep a b width i r).2.toNat = (2 * value r + ((value a).testBit i).toNat) / value b := by
  have hbound : 2 * value r + 1 < 2 ^ (64 * width) := by
    have hlt := value_lt b
    have hpow : 2 ^ (64 * b.length) * 2 ≤ 2 ^ (64 * width) := by
      rw [← Nat.pow_succ]
      exact Nat.pow_le_pow_right (by decide) (by omega)
    omega
  have hbit : ((value a).testBit i).toNat ≤ 1 := Bool.toNat_le _
  have hin := @value_shiftIn i a r width hwidth (by omega) hbound
  unfold remStep
  dsimp only
  generalize hr' : (shiftLimbs width r 0).modify 0 (· ||| ((a.getD (i / 64) 0 >>> (i % 64)) &&& 1#64)) = r' at hin ⊢
  have hlength : width ≤ r'.length := by
    rw [← hr', length_modify, length_shiftLimbs]
    exact hwidth
  rw [geLimbs_eq (Nat.le_of_lt hb) (by omega), ← hin]
  by_cases hge : value b ≤ value r'
  · rw [decide_eq_true hge, if_pos rfl]
    have hsub := @value_subLimbs r' b width 0 (Nat.zero_le 1) hlength (by omega) (by omega)
    have hdiv : value r' / value b = 1 := Nat.div_eq_of_lt_le (by omega) (by omega)
    have hmod := Nat.div_add_mod (value r') (value b)
    rw [hdiv, Nat.mul_one] at hmod
    exact ⟨by rw [hsub]; omega, by rw [hdiv]; rfl⟩
  · rw [decide_eq_false hge, if_neg Bool.false_ne_true]
    have hlt : value r' < value b := Nat.lt_of_not_le hge
    exact ⟨(Nat.mod_eq_of_lt hlt).symm, (Nat.div_eq_of_lt hlt).symm⟩

theorem div_two_pow_bit (x i : Nat) : x / 2 ^ i = 2 * (x / 2 ^ (i + 1)) + (x.testBit i).toNat := by
  rw [Nat.toNat_testBit, Nat.pow_succ, ← Nat.div_div_eq_div_mul]
  omega

theorem next_div_mod (x y bit : Nat) (hy : 0 < y) :
    (2 * x + bit) % y = (2 * (x % y) + bit) % y ∧ (2 * x + bit) / y = 2 * (x / y) + (2 * (x % y) + bit) / y := by
  have hx := Nat.div_add_mod x y
  have hsplit : 2 * x + bit = 2 * (x % y) + bit + y * (2 * (x / y)) := by
    rw [Nat.mul_left_comm]
    omega
  rw [hsplit, Nat.add_mul_mod_self_left, Nat.add_mul_div_left _ _ hy]
  exact ⟨rfl, Nat.add_comm _ _⟩

theorem remLoop_spec (hpos : 0 < value b) (hb : b.length < width) (hwidth : width ≤ r.length)
    (hr : value r = value a / 2 ^ n % value b) :
    (remLoop a b width n r).length = r.length ∧ value (remLoop a b width n r) = value a % value b := by
  induction n generalizing r with
  | zero => exact ⟨rfl, by simpa [remLoop] using hr⟩
  | succ i ih =>
    have hlt : value r < value b := by rw [hr]; exact Nat.mod_lt _ hpos
    have hstep := (@remStep_spec i a b r width hb hwidth hlt).1
    rw [hr, ← (next_div_mod _ _ _ hpos).1, ← div_two_pow_bit] at hstep
    have hlen : (remStep a b width i r).1.length = r.length := length_remStep
    obtain ⟨hlength, hvalue⟩ := ih (by rw [hlen]; exact hwidth) hstep
    exact ⟨hlength.trans hlen, hvalue⟩

theorem divLoop_spec {q : List Limb} (hpos : 0 < value b) (hb : b.length < width) (hwidth : width ≤ r.length)
    (hn : n ≤ 64 * q.length) (hr : value r = value a / 2 ^ n % value b)
    (hq : value q = 2 ^ n * (value a / 2 ^ n / value b)) :
    (divLoop a b width n q r).1.length = q.length ∧ (divLoop a b width n q r).2.length = r.length ∧
      value (divLoop a b width n q r).1 = value a / value b ∧
      value (divLoop a b width n q r).2 = value a % value b := by
  induction n generalizing q r with
  | zero => exact ⟨rfl, rfl, by simpa [divLoop] using hq, by simpa [divLoop] using hr⟩
  | succ i ih =>
    have hlt : value r < value b := by rw [hr]; exact Nat.mod_lt _ hpos
    obtain ⟨hstep, hflag⟩ := @remStep_spec i a b r width hb hwidth hlt
    obtain ⟨hmod, hdiv⟩ := next_div_mod (value a / 2 ^ (i + 1)) (value b) ((value a).testBit i).toNat hpos
    rw [hr, ← hmod, ← div_two_pow_bit] at hstep
    rw [hr] at hflag
    rw [← div_two_pow_bit, ← hflag] at hdiv
    have hlen : (remStep a b width i r).1.length = r.length := length_remStep
    -- the quotient takes the flag as its bit i
    have hquotient : value (if (remStep a b width i r).2 then q.modify (i / 64) (· ||| (1#64 <<< (i % 64))) else q) =
        2 ^ i * (value a / 2 ^ i / value b) := by
      rw [hdiv]
      cases (remStep a b width i r).2 with
      | false =>
        rw [if_neg Bool.false_ne_true, hq, Nat.pow_succ, Nat.mul_assoc]
        rfl
      | true =>
        have hclear : (value q).testBit i = false := by
          rw [hq, Nat.testBit_two_pow_mul]
          simp
        rw [if_pos rfl, value_setBit (by omega) hclear, hq, Nat.pow_succ, Nat.mul_add, Nat.mul_assoc]
        simp
    have hqlen : (if (remStep a b width i r).2 then q.modify (i / 64) (· ||| (1#64 <<< (i % 64))) else q).length =
        q.length := by
      split
      · exact length_modify _ _ _
      · rfl
    obtain ⟨h1, h2, h3, h4⟩ := ih (by rw [hlen]; exact hwidth) (by rw [hqlen]; omega) hstep hquotient
    exact ⟨h1.trans hqlen, h2.trans hlen, h3, h4⟩

end Division

-- The limbs in memory, bytes with the least significant first.

def leNat : List UInt8 → Nat
  | [] => 0
  | b :: bs => b.toNat + 256 * leNat bs

def limbBytes (x : Limb) : List UInt8 := (List.range 8).map fun k => UInt8.ofNat (x.toNat >>> (8 * k))

def bytes (xs : List Limb) : List UInt8 := xs.flatMap limbBytes

-- The limbs of whole groups of eight bytes.
def ofBytes (bs : List UInt8) : List Limb :=
  (List.range (bs.length / 8)).map fun i => BitVec.ofNat 64 (leNat ((bs.drop (8 * i)).take 8))

theorem leNat_lt (bs : List UInt8) : leNat bs < 256 ^ bs.length := by
  induction bs with
  | nil => exact Nat.one_pos
  | cons b bs ih =>
    have hb := b.toNat_lt
    rw [leNat, length_cons, Nat.pow_succ]
    omega

theorem leNat_append (as bs : List UInt8) : leNat (as ++ bs) = leNat as + 256 ^ as.length * leNat bs := by
  induction as with
  | nil => simp [leNat]
  | cons a as ih =>
    rw [cons_append, leNat, leNat, ih, length_cons, Nat.pow_succ]
    ring

theorem leNat_replicate (n : Nat) (b : UInt8) : 255 * leNat (List.replicate n b) = b.toNat * (256 ^ n - 1) := by
  induction n with
  | zero => rfl
  | succ n ih =>
    have hle : b.toNat ≤ b.toNat * 256 ^ n := Nat.le_mul_of_pos_right _ (Nat.pow_pos (by decide))
    rw [Nat.mul_sub_one] at ih ⊢
    rw [replicate_succ, leNat, Nat.pow_succ, ← Nat.mul_assoc]
    omega

theorem leNat_take (bs : List UInt8) {n : Nat} (hn : n ≤ bs.length) : leNat (bs.take n) = leNat bs % 256 ^ n := by
  have hsplit := leNat_append (bs.take n) (bs.drop n)
  have hlt := leNat_lt (bs.take n)
  rw [take_append_drop] at hsplit
  rw [length_take, Nat.min_eq_left hn] at hsplit hlt
  rw [hsplit, Nat.add_mul_mod_self_left, Nat.mod_eq_of_lt hlt]

theorem leNat_drop (bs : List UInt8) {n : Nat} (hn : n ≤ bs.length) : leNat (bs.drop n) = leNat bs / 256 ^ n := by
  have hsplit := leNat_append (bs.take n) (bs.drop n)
  have hlt := leNat_lt (bs.take n)
  rw [take_append_drop] at hsplit
  rw [length_take, Nat.min_eq_left hn] at hsplit hlt
  rw [hsplit, Nat.add_mul_div_left _ _ (Nat.pow_pos (by decide)), Nat.div_eq_of_lt hlt, Nat.zero_add]

theorem leNat_getD (bs : List UInt8) (i : Nat) : (bs.getD i 0).toNat = leNat bs / 256 ^ i % 256 := by
  induction bs generalizing i with
  | nil => simp [leNat]
  | cons b bs ih =>
    have hb := b.toNat_lt
    cases i with
    | zero =>
      rw [getD_cons_zero, leNat, Nat.pow_zero, Nat.div_one]
      omega
    | succ i =>
      have hhead : (b.toNat + 256 * leNat bs) / 256 = leNat bs := by omega
      rw [getD_cons_succ, ih, leNat, Nat.pow_succ, Nat.mul_comm (256 ^ i), ← Nat.div_div_eq_div_mul, hhead]

theorem leNat_limbBytes (x : Limb) : leNat (limbBytes x) = x.toNat := by
  simp only [limbBytes, List.range, List.range.loop, map_cons, map_nil, leNat, UInt8.toNat_ofNat',
    Nat.shiftRight_eq_div_pow]
  omega

theorem length_limbBytes (x : Limb) : (limbBytes x).length = 8 := by simp [limbBytes]

theorem length_bytes (xs : List Limb) : (bytes xs).length = 8 * xs.length := by
  induction xs with
  | nil => rfl
  | cons x xs ih =>
    rw [bytes, flatMap_cons, length_append, length_limbBytes, length_cons]
    show 8 + (bytes xs).length = _
    omega

theorem leNat_bytes (xs : List Limb) : leNat (bytes xs) = value xs := by
  induction xs with
  | nil => rfl
  | cons x xs ih =>
    rw [bytes, flatMap_cons, leNat_append, leNat_limbBytes, length_limbBytes, value]
    show _ + 256 ^ 8 * leNat (bytes xs) = _
    omega

theorem length_ofBytes (bs : List UInt8) : (ofBytes bs).length = bs.length / 8 := by simp [ofBytes]

theorem value_ofBytes {n : Nat} (bs : List UInt8) (hlen : bs.length = 8 * n) : value (ofBytes bs) = leNat bs := by
  induction n generalizing bs with
  | zero =>
    rw [eq_nil_of_length_eq_zero (by omega : bs.length = 0)]
    rfl
  | succ n ih =>
    have hrest : (bs.drop 8).length = 8 * n := by
      rw [length_drop]
      omega
    have hlimbs : ofBytes bs = BitVec.ofNat 64 (leNat (bs.take 8)) :: ofBytes (bs.drop 8) := by
      have hcount : bs.length / 8 = (bs.drop 8).length / 8 + 1 := by omega
      rw [ofBytes, ofBytes, hcount, range_succ_eq_map, map_cons, map_map]
      refine congrArg₂ List.cons rfl (map_congr_left fun i _ => ?_)
      simp only [Function.comp, drop_drop]
      rw [Nat.mul_succ, Nat.add_comm]
    have hlow : leNat (bs.take 8) < 2 ^ 64 := by
      have h := leNat_lt (bs.take 8)
      rw [length_take, Nat.min_eq_left (by omega)] at h
      exact h
    have hsplit := leNat_append (bs.take 8) (bs.drop 8)
    rw [take_append_drop, length_take, Nat.min_eq_left (by omega)] at hsplit
    rw [hlimbs, value, ih _ hrest, BitVec.toNat_ofNat, Nat.mod_eq_of_lt hlow, hsplit]
    omega

end Zeg.Base.Limbs
