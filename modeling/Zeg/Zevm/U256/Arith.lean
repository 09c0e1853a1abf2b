import Mathlib.Data.Nat.ModEq
import Zeg.Base.EvmWord
import Zeg.Zevm.U256.Values

-- The portable sums, products and divisions, and the division with a hint.
namespace Zeg.Zevm.Portable

open Base Base.Limbs U256 BitVec

variable {a b c m : U256}

-- Sums and differences

theorem value_add256 (a b : U256) (cin : Nat) :
    value (add256 a b cin).toList = (value a.toList + value b.toList + cin) % 2 ^ 256 := by
  have hlen : a.toList.length = b.toList.length := by rw [length_toList, length_toList]
  rw [add256, value_ofList_of_length (by rw [length_addLimbs hlen, length_toList]), value_addLimbs hlen, length_toList]

theorem carry_eq (x y : Limb) : (decide (x + y < x)).toNat = (x.toNat + y.toNat) / 2 ^ 64 := by
  by_cases hlt : x + y < x
  · rw [decide_eq_true hlt, Bool.toNat_true]
    bv_omega
  · rw [decide_eq_false hlt, Bool.toNat_false]
    bv_omega

theorem value_addLow (x : U256) (y : Limb) : value (addLow x y).toList = (value x.toList + y.toNat) % 2 ^ 256 := by
  have hsum : value x.toList + y.toNat = (x.limb 0).toNat + y.toNat + 2 ^ 64 * value x.toList.tail := by
    rw [value_cons_tail]
    omega
  rw [addLow, value_ofList_of_length (by rw [List.length_cons, length_ripple, length_tail]), value, value_ripple,
    carry_eq, toNat_add, length_tail, hsum]
  show _ = _ % (2 ^ 64 * 2 ^ 192)
  rw [mod_limb, Nat.add_comm (value x.toList.tail)]

theorem value_opAdd (a b : U256) : value (opAdd a b).toList = (value a.toList + value b.toList) % 2 ^ 256 := by
  have ha := value_toList_lt a
  have hb := value_toList_lt b
  unfold opAdd
  split
  · next hsmall =>
    rw [fitsLimb_iff] at hsmall
    split
    · rw [value_addLow, hsmall, Nat.add_comm]
    · next hzero =>
      rw [hsmall, toNat_eq_zero.mpr (not_not.mp hzero)]
      omega
  · split
    · next hsmall =>
      rw [fitsLimb_iff] at hsmall
      split
      · next hzero =>
        rw [hsmall, toNat_eq_zero.mpr hzero]
        omega
      · rw [value_addLow, hsmall]
    · rw [value_add256]
      omega

theorem opAdd_word (a b : U256) : (opAdd a b).word = Evm.add a.word b.word :=
  word_eq (by rw [value_opAdd, Evm.add, toNat_ofNat, toNat_word, toNat_word])

theorem value_subLow (a : U256) (y : Limb) :
    value (ofList ((a.limb 0 - y) :: unripple a.toList.tail (a.limb 0 < y))).toList =
      (value a.toList + 2 ^ 256 - y.toNat) % 2 ^ 256 := by
  have hx := (a.limb 0).isLt
  have hy := y.isLt
  have htail := value_lt a.toList.tail
  have hsub : (a.limb 0 - y).toNat = (2 ^ 64 - y.toNat + (a.limb 0).toNat) % 2 ^ 64 := toNat_sub ..
  rw [length_tail] at htail
  rw [value_ofList_of_length (by rw [List.length_cons, length_unripple, length_tail]), value, value_unripple,
    length_tail, value_cons_tail a, hsub]
  by_cases hlt : a.limb 0 < y
  · rw [decide_eq_true hlt]
    rw [lt_def] at hlt
    show _ + 2 ^ 64 * ((value a.toList.tail + 2 ^ 192 - 1) % 2 ^ 192) = _
    omega
  · rw [decide_eq_false hlt]
    rw [lt_def] at hlt
    show _ + 2 ^ 64 * ((value a.toList.tail + 2 ^ 192 - 0) % 2 ^ 192) = _
    omega

theorem value_opSub (a b : U256) : value (opSub a b).toList = (value a.toList + 2 ^ 256 - value b.toList) % 2 ^ 256 := by
  have ha := value_toList_lt a
  have hb := value_toList_lt b
  unfold opSub
  split
  · next hsmall =>
    rw [fitsLimb_iff] at hsmall
    split
    · next hzero =>
      rw [hsmall, toNat_eq_zero.mpr hzero]
      omega
    · rw [value_subLow, hsmall]
  · rw [value_add256, value_ofList_of_length (by rw [List.length_map, length_toList]), value_complement, length_toList]
    show (_ + (2 ^ 256 - 1 - _) + 1) % _ = _
    congr 1
    omega

theorem opSub_word (a b : U256) : (opSub a b).word = Evm.sub a.word b.word := by
  have hb := value_toList_lt b
  apply word_eq
  rw [value_opSub, Evm.sub, toNat_ofInt, toNat_word, toNat_word]
  omega

-- Products

theorem value_arith256 (a b c : U256) :
    value (arith256 a b c).1.toList + 2 ^ 256 * value (arith256 a b c).2.toList =
      value a.toList * value b.toList + value c.toList := by
  obtain ⟨hlen, hvalue⟩ := @mulRows_spec b.toList a.toList (List.replicate 4 0) [] (by rw [length_toList]; rfl)
  have hzeros : List.replicate 4 (0 : Limb) ++ (List.replicate a.toList.length 0 ++ []) = List.replicate 8 0 := by
    rw [length_toList]
    rfl
  rw [hzeros, length_toList] at hlen
  rw [hzeros, value_zeros, value, Nat.mul_zero, Nat.add_zero, Nat.zero_add] at hvalue
  have hc : (c.toList ++ List.replicate 4 0).length = 8 := by rw [List.length_append, length_toList]; rfl
  have hcvalue : value (c.toList ++ List.replicate 4 0) = value c.toList := by
    rw [value_append, value_zeros, Nat.mul_zero, Nat.add_zero]
  have heq : (mulRows a.toList b.toList (List.replicate 8 0)).length = (c.toList ++ List.replicate 4 0).length := by
    rw [hlen, hc]
    rfl
  have hsum := value_addLimbs heq 0
  rw [hvalue, hcvalue, heq, hc, Nat.add_zero] at hsum
  -- the whole fits in 512 bits
  have hfits : value a.toList * value b.toList + value c.toList < 2 ^ (64 * 8) := by
    have hprod : value a.toList * value b.toList ≤ (2 ^ 256 - 1) * (2 ^ 256 - 1) :=
      Nat.mul_le_mul (Nat.le_pred_of_lt (value_toList_lt a)) (Nat.le_pred_of_lt (value_toList_lt b))
    have hc := value_toList_lt c
    omega
  rw [Nat.mod_eq_of_lt hfits] at hsum
  have hlen' := length_addLimbs heq 0
  rw [hlen] at hlen'
  unfold arith256
  dsimp only
  generalize addLimbs (mulRows a.toList b.toList (List.replicate 8 0)) (c.toList ++ List.replicate 4 0) 0 = out at hsum hlen' ⊢
  have hsplit := value_append (out.take 4) (out.drop 4)
  rw [List.take_append_drop, List.length_take, hlen'] at hsplit
  rw [value_ofList, value_ofList_of_length (by rw [List.length_drop, hlen']; rfl), ← hsum, hsplit]
  rfl

theorem value_mulLow (a b : U256) : value (mulLow a b).toList = value a.toList * value b.toList % 2 ^ 256 := by
  have hlt := value_toList_lt (arith256 a b (small 0)).1
  have h := value_arith256 a b (small 0)
  rw [value_small] at h
  have hzero : value a.toList * value b.toList + (0 : Limb).toNat = value a.toList * value b.toList := rfl
  rw [hzero] at h
  rw [← h, Nat.add_mul_mod_self_left, Nat.mod_eq_of_lt hlt]
  rfl

theorem opMul_word (a b : U256) : (opMul a b).word = Evm.mul a.word b.word :=
  word_eq (by rw [opMul, value_mulLow, Evm.mul, toNat_ofNat, toNat_word, toNat_word])

-- Divisions

theorem trimLen_spec (l : List Limb) {n : Nat} (hn : 1 ≤ n) :
    1 ≤ trimLen l n ∧ trimLen l n ≤ n ∧ value (l.take (trimLen l n)) = value (l.take n) := by
  induction n with
  | zero => omega
  | succ n ih =>
    cases n with
    | zero => exact ⟨Nat.le_refl 1, Nat.le_refl 1, rfl⟩
    | succ n =>
      rw [trimLen]
      split
      · next hzero =>
        obtain ⟨hone, hle, hvalue⟩ := ih (by omega)
        refine ⟨hone, by omega, ?_⟩
        rw [hvalue, value_take_succ l (n + 1), hzero]
        rfl
      · exact ⟨by omega, Nat.le_refl _, rfl⟩

theorem trimLen_round (l : List Limb) {n : Nat} (hn : 1 ≤ n) (hmax : n ≤ 4) : (trimLen l n + 3) / 4 * 4 = 4 := by
  obtain ⟨hone, hle, _⟩ := trimLen_spec l hn
  omega

theorem value_ofList_take {l : List Limb} (h : value l < 2 ^ 256) : value (ofList (l.take 4)).toList = value l := by
  rw [value_ofList, List.take_take, Nat.min_self, value_take]
  exact Nat.mod_eq_of_lt h

theorem fcallBigintDiv_spec {a b : List Limb} (ha : 1 ≤ a.length) (hamax : a.length ≤ 4) (hb : 1 ≤ b.length)
    (hbmax : b.length ≤ 4) (hpos : 0 < value b) :
    value (ofList (fcallBigintDiv a b).1).toList = value a / value b ∧
      value (ofList (fcallBigintDiv a b).2).toList = value a % value b := by
  have halt : value a < 2 ^ (a.length * 64) := by
    rw [Nat.mul_comm]
    exact value_lt a
  have hstart : value a / 2 ^ (a.length * 64) = 0 := Nat.div_eq_of_lt halt
  have hwide : value a < 2 ^ 256 := Nat.lt_of_lt_of_le halt (Nat.pow_le_pow_right (by decide) (by omega))
  have hblt : value b < 2 ^ 256 := Nat.lt_of_lt_of_le (value_lt b) (Nat.pow_le_pow_right (by decide) (by omega))
  obtain ⟨_, _, hq, hr⟩ := @divLoop_spec (a.length * 64) a b (List.replicate 64 0) (b.length + 1) (List.replicate 64 0)
    hpos (Nat.lt_succ_self _) (by rw [List.length_replicate]; omega) (by rw [List.length_replicate]; omega)
    (by rw [value_zeros, hstart, Nat.zero_mod]) (by rw [value_zeros, hstart, Nat.zero_div, Nat.mul_zero])
  unfold fcallBigintDiv
  dsimp only
  rw [trimLen_round _ ha hamax, trimLen_round _ hb hbmax, value_ofList_take, value_ofList_take, hq, hr]
  · exact ⟨rfl, rfl⟩
  · rw [hr]
    exact Nat.lt_trans (Nat.mod_lt _ hpos) hblt
  · rw [hq]
    exact Nat.lt_of_le_of_lt (Nat.div_le_self _ _) hwide

theorem limbsLen_spec (x : U256) : 1 ≤ (x.toList.take (limbsLen x)).length ∧
    (x.toList.take (limbsLen x)).length ≤ 4 ∧ value (x.toList.take (limbsLen x)) = value x.toList := by
  obtain ⟨hone, hle, hvalue⟩ := trimLen_spec x.toList (show 1 ≤ 4 by decide)
  rw [List.length_take, length_toList, limbsLen, hvalue, List.take_of_length_le (Nat.le_of_eq (length_toList x))]
  exact ⟨by omega, by omega, rfl⟩

theorem value_udivmod (a : U256) (hb : 0 < value b.toList) :
    value (udivmod a b).1.toList = value a.toList / value b.toList ∧
      value (udivmod a b).2.toList = value a.toList % value b.toList := by
  obtain ⟨ha1, ha4, havalue⟩ := limbsLen_spec a
  obtain ⟨hb1, hb4, hbvalue⟩ := limbsLen_spec b
  have h := fcallBigintDiv_spec ha1 ha4 hb1 hb4 (by rw [hbvalue]; exact hb)
  rwa [havalue, hbvalue] at h

theorem value_pos (hb : b.word ≠ 0) : 0 < value b.toList := by
  rw [← toNat_word]
  exact Nat.pos_of_ne_zero fun h => hb (eq_of_toNat_eq h)

theorem udivmod_word (a : U256) (hb : b.word ≠ 0) :
    (udivmod a b).1.word = a.word / b.word ∧ (udivmod a b).2.word = a.word % b.word := by
  obtain ⟨hq, hr⟩ := value_udivmod a (value_pos hb)
  refine ⟨word_eq ?_, word_eq ?_⟩
  · rw [hq, toNat_udiv, toNat_word, toNat_word]
  · rw [hr, toNat_umod, toNat_word, toNat_word]

theorem ofNat_div (a b : Word) : BitVec.ofNat 256 (a.toNat / b.toNat) = a / b :=
  eq_of_toNat_eq (by
    rw [toNat_ofNat, toNat_udiv]
    exact Nat.mod_eq_of_lt (Nat.lt_of_le_of_lt (Nat.div_le_self _ _) a.isLt))

theorem ofNat_mod (a b : Word) : BitVec.ofNat 256 (a.toNat % b.toNat) = a % b :=
  eq_of_toNat_eq (by
    rw [toNat_ofNat, toNat_umod]
    exact Nat.mod_eq_of_lt (Nat.lt_of_le_of_lt (Nat.mod_le _ _) a.isLt))

theorem word_unless_zero {r : U256} {w : Word} (h : b.word ≠ 0 → r.word = w) :
    (if b.isZero then small 0 else r).word = if b.word = 0 then 0 else w := by
  by_cases hb : b.word = 0
  · rw [if_pos ((isZero_word b).mpr hb), if_pos hb]
    rfl
  · rw [if_neg (fun hzero => hb ((isZero_word b).mp hzero)), if_neg hb, h hb]

theorem opDiv_word (a b : U256) : (opDiv a b).word = Evm.div a.word b.word :=
  word_unless_zero fun hb => by rw [(udivmod_word a hb).1, ofNat_div]

theorem opMod_word (a b : U256) : (opMod a b).word = Evm.mod a.word b.word :=
  word_unless_zero fun hb => by rw [(udivmod_word a hb).2, ofNat_mod]

-- Signed divisions

theorem magnitude_word (a : U256) : (if a.sign then a.neg else a).word = if a.word.msb then -a.word else a.word := by
  rw [sign_eq_msb]
  split
  · exact word_neg a
  · rfl

theorem udivmod_magnitudes (a : U256) (hb : b.word ≠ 0) :
    (udivmod (if a.sign then a.neg else a) (if b.sign then b.neg else b)).1.word =
        (if a.word.msb then -a.word else a.word) / (if b.word.msb then -b.word else b.word) ∧
      (udivmod (if a.sign then a.neg else a) (if b.sign then b.neg else b)).2.word =
        (if a.word.msb then -a.word else a.word) % (if b.word.msb then -b.word else b.word) := by
  rw [← magnitude_word, ← magnitude_word]
  apply udivmod_word
  rw [magnitude_word]
  split
  · exact fun h => hb (neg_eq_zero_iff.mp h)
  · exact hb

theorem ofInt_tdiv (a b : Word) : BitVec.ofInt 256 (a.toInt.tdiv b.toInt) = a.sdiv b := by
  apply eq_of_toInt_eq
  rw [toInt_ofInt, toInt_sdiv]

theorem ofInt_tmod (a b : Word) : BitVec.ofInt 256 (a.toInt.tmod b.toInt) = a.srem b := by
  rw [← toInt_srem, ofInt_toInt]

theorem opSdiv_word (a b : U256) : (opSdiv a b).word = Evm.sdiv a.word b.word := by
  refine word_unless_zero fun hb => ?_
  rw [ofInt_tdiv]
  split
  · -- the one quotient that does not fit
    next hmin =>
      have ha : (ofList [0, 0, 0, 0x8000000000000000]).word = BitVec.intMin 256 := by decide
      have hb : (fill (~~~0)).word = -1 := by decide
      rw [hmin.1, hmin.2, ha, hb]
      exact intMin_sdiv_neg_one.symm
  · have hq := (udivmod_magnitudes a hb).1
    dsimp only
    generalize (udivmod (if a.sign then a.neg else a) (if b.sign then b.neg else b)).1 = q at hq ⊢
    rw [sdiv_eq, sign_eq_msb, sign_eq_msb]
    cases hna : a.word.msb <;> cases hnb : b.word.msb <;> simp [hna, hnb, word_neg] at hq ⊢ <;> exact hq

theorem opSmod_word (a b : U256) : (opSmod a b).word = Evm.smod a.word b.word := by
  refine word_unless_zero fun hb => ?_
  have hr := (udivmod_magnitudes a hb).2
  rw [ofInt_tmod]
  dsimp only
  generalize (udivmod (if a.sign then a.neg else a) (if b.sign then b.neg else b)).2 = r at hr ⊢
  rw [srem_eq, sign_eq_msb]
  cases hna : a.word.msb <;> cases hnb : b.word.msb <;> simp [hna, hnb, word_neg] at hr ⊢ <;> exact hr

-- Remainders of sums and products

theorem value_mod512 {num : List Limb} (hnum : num.length = 8) (hm : 0 < value m.toList) :
    value (mod512 num m).toList = value num % value m.toList := by
  have hlt := value_lt num
  rw [hnum] at hlt
  have hstart : value num / 2 ^ (64 * 8) = 0 := Nat.div_eq_of_lt hlt
  obtain ⟨_, hr⟩ := @remLoop_spec 512 num m.toList (List.replicate 8 0) 8 hm (by rw [length_toList]; decide)
    (by rw [List.length_replicate]) (by rw [value_zeros, hstart, Nat.zero_mod])
  rw [mod512, value_ofList, value_take, hr]
  exact Nat.mod_eq_of_lt (Nat.lt_trans (Nat.mod_lt _ hm) (value_toList_lt m))

theorem value_arith256Mod (a b c : U256) (hm : 0 < value m.toList) :
    value (arith256Mod a b c m).toList = (value a.toList * value b.toList + value c.toList) % value m.toList := by
  have hlen : ((arith256 a b c).1.toList ++ (arith256 a b c).2.toList).length = 8 := by
    rw [List.length_append, length_toList, length_toList]
  rw [arith256Mod, value_mod512 hlen hm, value_append, length_toList, ← value_arith256]

theorem opAddmod_word (a b m : U256) : (opAddmod a b m).word = Evm.addmod a.word b.word m.word :=
  word_unless_zero fun hm => by
    rw [word, value_arith256Mod a (small 1) b (value_pos hm), value_small, toNat_word, toNat_word, toNat_word]
    show BitVec.ofNat 256 ((_ * 1 + _) % _) = _
    rw [Nat.mul_one]

theorem opMulmod_word (a b m : U256) : (opMulmod a b m).word = Evm.mulmod a.word b.word m.word :=
  word_unless_zero fun hm => by
    rw [word, value_arith256Mod a b (small 0) (value_pos hm), value_small, toNat_word, toNat_word, toNat_word]
    rfl

-- The division with a hint

theorem ltFrom_word (a b : U256) : ltFrom a.toList b.toList 4 = decide (value a.toList < value b.toList) := by
  rw [ltFrom_eq, List.take_of_length_le (Nat.le_of_eq (length_toList a)),
    List.take_of_length_le (Nat.le_of_eq (length_toList b))]

theorem udivmod4_accepts (hint : List Limb → List Limb → List Limb × List Limb) (a b : U256) :
    (udivmod4 hint a b).isSome ↔
      value b.toList ≠ 0 ∧ value (ofList (hint a.toList b.toList).1).toList = value a.toList / value b.toList ∧
        value (ofList (hint a.toList b.toList).2).toList = value a.toList % value b.toList := by
  have ha := value_toList_lt a
  unfold udivmod4
  dsimp only
  generalize ofList (hint a.toList b.toList).1 = q
  generalize ofList (hint a.toList b.toList).2 = r
  have hd := value_arith256 q b r
  rw [Option.isSome_ite, isZero_iff, ltFrom_word, decide_eq_true_iff]
  constructor
  · rintro ⟨hlow, hhigh, hlt⟩
    rw [hlow, hhigh, Nat.mul_zero, Nat.add_zero, Nat.add_comm, Nat.mul_comm] at hd
    have hpos : 0 < value b.toList := Nat.lt_of_le_of_lt (Nat.zero_le _) hlt
    rw [hd, Nat.add_mul_div_left _ _ hpos, Nat.add_mul_mod_self_left, Nat.div_eq_of_lt hlt, Nat.mod_eq_of_lt hlt]
    exact ⟨by omega, by omega, rfl⟩
  · rintro ⟨hb, hq, hr⟩
    have hpos : 0 < value b.toList := Nat.pos_of_ne_zero hb
    rw [hq, hr, Nat.mul_comm (value a.toList / value b.toList), Nat.div_add_mod] at hd
    have hlow := value_toList_lt (arith256 q b r).1
    have hhigh : value (arith256 q b r).2.toList = 0 := by omega
    refine ⟨List.Vector.eq _ _ (value_inj (by rw [length_toList, length_toList]) (by omega)), hhigh, ?_⟩
    rw [hr]
    exact Nat.mod_lt _ hpos

-- Whatever the hint returns, what is accepted is the quotient and the remainder.
theorem udivmod4_sound {hint : List Limb → List Limb → List Limb × List Limb} {q r : U256}
    (h : udivmod4 hint a b = some (q, r)) : b.word ≠ 0 ∧ q.word = a.word / b.word ∧ r.word = a.word % b.word := by
  obtain ⟨hb, hq, hr⟩ := (udivmod4_accepts hint a b).mp (by rw [h]; rfl)
  have hpair : (ofList (hint a.toList b.toList).1, ofList (hint a.toList b.toList).2) = (q, r) := by
    unfold udivmod4 at h
    dsimp only at h
    split at h
    · exact Option.some.inj h
    · cases h
  cases hpair
  refine ⟨fun hzero => hb ?_, word_eq ?_, word_eq ?_⟩
  · rw [← toNat_word, hzero]
    rfl
  · rw [hq, toNat_udiv, toNat_word, toNat_word]
  · rw [hr, toNat_umod, toNat_word, toNat_word]

theorem udivmod4_honest (a : U256) (hb : b.word ≠ 0) : (udivmod4 fcallBigintDiv a b).isSome := by
  have hpos := value_pos hb
  refine (udivmod4_accepts _ a b).mpr ⟨by omega, ?_⟩
  exact fcallBigintDiv_spec (by rw [length_toList]; decide) (by rw [length_toList]) (by rw [length_toList]; decide)
    (by rw [length_toList]) hpos

-- Powers

theorem square_multiply (x base e n : Nat) :
    (x * x * base ^ (e / 2 ^ n % 2)) ^ 2 ^ n * base ^ (e % 2 ^ n) = x ^ 2 ^ (n + 1) * base ^ (e % 2 ^ (n + 1)) := by
  rw [Nat.mod_pow_succ, Nat.mul_pow, ← Nat.pow_two, ← Nat.pow_mul, ← Nat.pow_mul, Nat.pow_succ 2 n, Nat.pow_add,
    Nat.mul_comm 2 (2 ^ n), Nat.mul_comm (e / 2 ^ n % 2)]
  ring

theorem modEq_mulLow (a b : U256) : value (mulLow a b).toList ≡ value a.toList * value b.toList [MOD 2 ^ 256] := by
  rw [value_mulLow]
  exact Nat.mod_modEq _ _

theorem modEq_step {mul : U256 → U256 → U256}
    (hmul : ∀ a b, value (mul a b).toList ≡ value a.toList * value b.toList [MOD 2 ^ 256]) {set : Prop} [Decidable set]
    {bit : Nat} (acc base : U256) (hbit : bit < 2) (hset : set ↔ bit = 1) :
    value (if set then mul (mul acc acc) base else mul acc acc).toList ≡
      value acc.toList * value acc.toList * value base.toList ^ bit [MOD 2 ^ 256] := by
  by_cases hone : bit = 1
  · rw [if_pos (hset.mpr hone), hone, Nat.pow_one]
    exact (hmul _ _).trans ((hmul acc acc).mul_right _)
  · have hclear : bit = 0 := by omega
    rw [if_neg (mt hset.mp hone), hclear, Nat.pow_zero, Nat.mul_one]
    exact hmul acc acc

theorem expLane_spec (base : U256) (lane : Limb) (n : Nat) (r : U256) :
    value (expLane base lane n r).toList ≡
      value r.toList ^ 2 ^ n * value base.toList ^ (lane.toNat % 2 ^ n) [MOD 2 ^ 256] := by
  induction n generalizing r with
  | zero =>
    rw [expLane, Nat.pow_zero, Nat.pow_one, Nat.mod_one, Nat.pow_zero, Nat.mul_one]
  | succ n ih =>
    have hnext := modEq_step modEq_mulLow r base (Nat.mod_lt _ (by decide)) (bit_ne_zero lane n)
    rw [expLane, ← square_multiply]
    exact (ih _).trans ((hnext.pow _).mul_right _)

theorem power_limb (x base : Nat) (e : U256) (n : Nat) :
    (x ^ 2 ^ 64 * base ^ (e.limb n).toNat) ^ 2 ^ (64 * n) * base ^ value (e.toList.take n) =
      x ^ 2 ^ (64 * (n + 1)) * base ^ value (e.toList.take (n + 1)) := by
  rw [value_take_succ, Nat.mul_pow, ← Nat.pow_mul, ← Nat.pow_mul, pow_limb, Nat.pow_add, Nat.mul_comm (e.limb n).toNat]
  show _ = _ * (_ * _ ^ (2 ^ (64 * n) * (e.limb n).toNat))
  ring

theorem power_top (base : Nat) (e : U256) (n : Nat) :
    (base ^ (e.limb n).toNat) ^ 2 ^ (64 * n) * base ^ value (e.toList.take n) = base ^ value (e.toList.take (n + 1)) := by
  have h := power_limb 1 base e n
  rwa [Nat.one_pow, Nat.one_mul, Nat.one_pow, Nat.one_mul] at h

theorem expLanes_spec (base e : U256) (n : Nat) (r : U256) :
    value (expLanes base e n r).toList ≡
      value r.toList ^ 2 ^ (64 * n) * value base.toList ^ value (e.toList.take n) [MOD 2 ^ 256] := by
  induction n generalizing r with
  | zero => simp [expLanes, value, Nat.ModEq.refl]
  | succ n ih =>
    have hlane := expLane_spec base (e.limb n) 64 r
    rw [Nat.mod_eq_of_lt (e.limb n).isLt] at hlane
    rw [expLanes, ← power_limb]
    exact (ih _).trans ((hlane.pow _).mul_right _)

theorem topBit_spec (e : U256) (n : Nat) :
    (topBit e n = none ∧ value (e.toList.take n) = 0) ∨
      ∃ top, topBit e n = some top ∧ value (e.toList.take n) = value (e.toList.take (top / 64 + 1)) ∧
        (e.limb (top / 64)).toNat < 2 ^ (top % 64 + 1) := by
  induction n with
  | zero => exact .inl ⟨rfl, rfl⟩
  | succ k ih =>
    rw [topBit]
    by_cases hlimb : e.limb k ≠ 0
    · have hne : (e.limb k).toNat ≠ 0 := fun h => hlimb (toNat_eq_zero.mp h)
      have hlog : (e.limb k).toNat.log2 < 64 := (Nat.log2_lt hne).mpr (e.limb k).isLt
      have hdiv : (k * 64 + (63 - clzll (e.limb k))) / 64 = k := by omega
      have hmod : (k * 64 + (63 - clzll (e.limb k))) % 64 = (e.limb k).toNat.log2 := by
        rw [clzll]
        omega
      refine .inr ⟨_, if_pos hlimb, ?_, ?_⟩
      · rw [hdiv]
      · rw [hdiv, hmod]
        exact Nat.lt_log2_self
    · rw [if_neg hlimb, value_take_of_eq e (not_not.mp hlimb)]
      exact ih

theorem take_four (e : U256) : e.toList.take 4 = e.toList := List.take_of_length_le (Nat.le_of_eq (length_toList e))

theorem modEq_opExp (base e : U256) :
    value (opExp base e).toList ≡ value base.toList ^ value e.toList [MOD 2 ^ 256] := by
  unfold opExp
  obtain ⟨hnone, hzero⟩ | ⟨top, hsome, hvalue, hlimb⟩ := topBit_spec e 4
  · rw [take_four] at hzero
    rw [hnone, hzero, Nat.pow_zero]
    exact Nat.ModEq.refl _
  · rw [take_four] at hvalue
    have hlane := expLane_spec base (e.limb (top / 64)) (top % 64 + 1) (small 1)
    rw [Nat.mod_eq_of_lt hlimb, value_small] at hlane
    have hone : (1 : Limb).toNat ^ 2 ^ (top % 64 + 1) = 1 := Nat.one_pow _
    rw [hone, Nat.one_mul] at hlane
    rw [hsome, hvalue, ← power_top]
    exact (expLanes_spec base e (top / 64) _).trans ((hlane.pow _).mul_right _)

theorem word_of_modEq {w : Nat} (h : value a.toList ≡ w [MOD 2 ^ 256]) : a.word = BitVec.ofNat 256 w := by
  apply word_eq
  rw [toNat_ofNat, ← h, Nat.mod_eq_of_lt (value_toList_lt a)]

theorem opExp_word (base e : U256) : (opExp base e).word = Evm.exp base.word e.word := by
  rw [Evm.exp, toNat_word, toNat_word]
  exact word_of_modEq (modEq_opExp base e)

end Zeg.Zevm.Portable
