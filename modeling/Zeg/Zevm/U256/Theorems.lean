import Zeg.Zevm.Alu
import Zeg.Zevm.U256.Guest

-- The opcodes' arithmetic: limbs, words and the EVM's definitions agree.
namespace Zeg.Zevm

open Base U256 BitVec

-- The word arithmetic that the interpreter runs on.
namespace Alu

variable (a b m : Word)

theorem add_eq : add a b = Evm.add a b := eq_of_toNat_eq (by rw [add, Evm.add, toNat_add, toNat_ofNat])

theorem mul_eq : mul a b = Evm.mul a b := eq_of_toNat_eq (by rw [mul, Evm.mul, toNat_mul, toNat_ofNat])

theorem sub_eq : sub a b = Evm.sub a b := by
  apply eq_of_toNat_eq
  have hb := b.isLt
  rw [sub, Evm.sub, toNat_sub, toNat_ofInt]
  omega

theorem div_eq : div a b = Evm.div a b := by rw [div, Evm.div, Portable.ofNat_div]

theorem mod_eq : mod a b = Evm.mod a b := by rw [mod, Evm.mod, Portable.ofNat_mod]

theorem sdiv_eq : sdiv a b = Evm.sdiv a b := by
  rw [sdiv, Evm.sdiv]
  by_cases hb : b = 0
  · rw [if_pos hb, if_pos hb]
  · rw [if_neg hb, if_neg hb, Portable.ofInt_tdiv]
    by_cases hmin : a = 1 <<< 255 ∧ b = -1
    · have ha : (1 <<< 255 : Word) = BitVec.intMin 256 := by decide
      rw [if_pos hmin, hmin.1, hmin.2, ha]
      exact intMin_sdiv_neg_one.symm
    · rw [if_neg hmin, BitVec.sdiv_eq]
      cases hna : a.msb <;> cases hnb : b.msb <;> simp [sign, hna, hnb]

theorem smod_eq : smod a b = Evm.smod a b := by
  rw [smod, Evm.smod]
  by_cases hb : b = 0
  · rw [if_pos hb, if_pos hb]
  · rw [if_neg hb, if_neg hb, Portable.ofInt_tmod, srem_eq]
    cases hna : a.msb <;> cases hnb : b.msb <;> simp [sign, hna, hnb]

theorem addmod_eq : addmod a b m = Evm.addmod a b m := rfl

theorem mulmod_eq : mulmod a b m = Evm.mulmod a b m := rfl

theorem expBits_spec (base e : Word) (n : Nat) (r : Word) :
    (expBits base e n r).toNat ≡ r.toNat ^ 2 ^ n * base.toNat ^ (e.toNat % 2 ^ n) [MOD 2 ^ 256] := by
  induction n generalizing r with
  | zero =>
    rw [expBits, Nat.pow_zero, Nat.pow_one, Nat.mod_one, Nat.pow_zero, Nat.mul_one]
  | succ n ih =>
    have hsquare : (r * r).toNat ≡ r.toNat * r.toNat [MOD 2 ^ 256] := by
      rw [toNat_mul]
      exact Nat.mod_modEq _ _
    have hnext : (if e.getLsbD n then r * r * base else r * r).toNat ≡
        r.toNat * r.toNat * base.toNat ^ (e.toNat / 2 ^ n % 2) [MOD 2 ^ 256] := by
      rw [BitVec.getLsbD, ← Nat.toNat_testBit]
      cases e.toNat.testBit n with
      | false =>
        rw [Bool.toNat_false, Nat.pow_zero, Nat.mul_one]
        exact hsquare
      | true =>
        have hproduct : (r * r * base).toNat ≡ (r * r).toNat * base.toNat [MOD 2 ^ 256] := by
          rw [toNat_mul]
          exact Nat.mod_modEq _ _
        rw [Bool.toNat_true, Nat.pow_one]
        exact hproduct.trans (hsquare.mul_right _)
    rw [expBits, ← Portable.square_multiply]
    exact (ih _).trans ((hnext.pow _).mul_right _)

theorem exp_eq : exp a b = Evm.exp a b := by
  have hbits : b.toNat % 2 ^ (if b = 0 then 0 else b.toNat.log2 + 1) = b.toNat := by
    by_cases hb : b = 0
    · rw [if_pos hb, hb]
      rfl
    · rw [if_neg hb]
      exact Nat.mod_eq_of_lt Nat.lt_log2_self
  have h := expBits_spec a b (if b = 0 then 0 else b.toNat.log2 + 1) 1
  have hone : (1 : Word).toNat ^ 2 ^ (if b = 0 then 0 else b.toNat.log2 + 1) = 1 := Nat.one_pow _
  rw [hbits, hone, Nat.one_mul] at h
  apply eq_of_toNat_eq
  rw [Evm.exp, toNat_ofNat, ← h]
  exact (Nat.mod_eq_of_lt (exp a b).isLt).symm

theorem signextend_eq : signextend a b = Evm.signextend a b := by
  by_cases h : a.toNat < 31
  · apply eq_of_getLsbD_eq
    intro i hi
    have hlow : (BitVec.ofNat 256 (2 ^ (a.toNat * 8 + 7 + 1) - 1)).getLsbD i = decide (i ≤ a.toNat * 8 + 7) := by
      rw [getLsbD_ofNat, decide_eq_true hi, Nat.testBit_two_pow_sub_one, Bool.true_and, decide_eq_decide]
      exact Nat.lt_succ_iff
    rw [Evm.getLsbD_signextend h hi, signextend, if_pos (by omega), Nat.mul_comm 8]
    dsimp only
    by_cases hle : i ≤ a.toNat * 8 + 7
    · rw [Nat.min_eq_left hle]
      split
      · rw [getLsbD_or, getLsbD_not, hlow, decide_eq_true hle, Bool.not_true, Bool.and_false,
          Bool.or_false]
      · rw [getLsbD_and, hlow, decide_eq_true hle, Bool.and_true]
    · rw [Nat.min_eq_right (by omega)]
      split
      · rename_i hsign
        rw [getLsbD_or, getLsbD_not, hlow, decide_eq_false hle, decide_eq_true hi, hsign]
        exact Bool.or_true _
      · rename_i hsign
        rw [getLsbD_and, hlow, decide_eq_false hle, Bool.and_false, Bool.eq_false_iff.mpr hsign]
  · rw [signextend, Evm.signextend, if_neg (by omega), if_neg h]

theorem lowScalar_eq : lowScalar a = min a.toNat 256 := by
  rw [lowScalar]
  split
  · omega
  · omega

theorem byte_eq : byte a b = Evm.byte a b := by
  rw [byte, Evm.byte, lowScalar_eq]
  by_cases h : a.toNat < 32
  · rw [Nat.min_eq_left (by omega), if_pos h]
  · rw [if_neg (by omega), if_neg h]

theorem shl_eq : shl a b = Evm.shl a b := by
  rw [shl, lowScalar_eq, Evm.shl_eq]
  by_cases h : a.toNat < 256
  · rw [Nat.min_eq_left (Nat.le_of_lt h), if_neg (Nat.not_le.mpr h)]
  · rw [Nat.min_eq_right (Nat.not_lt.mp h), if_pos (Nat.le_refl _), shiftLeft_eq_zero (Nat.not_lt.mp h)]
    rfl

theorem shr_eq : shr a b = Evm.shr a b := by
  rw [shr, lowScalar_eq, Evm.shr_eq]
  by_cases h : a.toNat < 256
  · rw [Nat.min_eq_left (Nat.le_of_lt h), if_neg (Nat.not_le.mpr h)]
  · rw [Nat.min_eq_right (Nat.not_lt.mp h), if_pos (Nat.le_refl _), ushiftRight_eq_zero (Nat.not_lt.mp h)]
    rfl

theorem sar_eq : sar a b = Evm.sar a b := by
  rw [sar, lowScalar_eq, Evm.sar_eq]
  by_cases h : a.toNat < 256
  · rw [Nat.min_eq_left (Nat.le_of_lt h), if_neg (Nat.not_le.mpr h)]
  · rw [Nat.min_eq_right (Nat.not_lt.mp h), if_pos (Nat.le_refl _)]
    apply eq_of_getLsbD_eq
    intro i hi
    rw [getLsbD_sshiftRight, decide_eq_false (by omega : ¬256 ≤ i), if_neg (by omega : ¬a.toNat + i < 256), sign]
    cases b.msb with
    | false => exact getLsbD_zero
    | true =>
      show (BitVec.allOnes 256).getLsbD i = true
      rw [getLsbD_allOnes, decide_eq_true hi]

theorem clz_eq : clz a = Evm.clz a := by
  rw [clz, Evm.clz]
  by_cases h : a = 0
  · rw [if_pos h, h]
    rfl
  · have hne : a.toNat ≠ 0 := fun hzero => h (eq_of_toNat_eq hzero)
    have hcount : 256 - (a.toNat.log2 + 1) = 255 - a.toNat.log2 := by omega
    rw [if_neg h, Portable.size_log2 hne, hcount]

-- The words of the interpreter follow the EVM's definitions.
structure Defined : Prop where
  add : add a b = Evm.add a b
  mul : mul a b = Evm.mul a b
  sub : sub a b = Evm.sub a b
  div : div a b = Evm.div a b
  sdiv : sdiv a b = Evm.sdiv a b
  mod : mod a b = Evm.mod a b
  smod : smod a b = Evm.smod a b
  addmod : addmod a b m = Evm.addmod a b m
  mulmod : mulmod a b m = Evm.mulmod a b m
  exp : exp a b = Evm.exp a b
  signextend : signextend a b = Evm.signextend a b
  byte : byte a b = Evm.byte a b
  shl : shl a b = Evm.shl a b
  shr : shr a b = Evm.shr a b
  sar : sar a b = Evm.sar a b
  clz : clz a = Evm.clz a

theorem defined : Defined a b m :=
  ⟨add_eq a b, mul_eq a b, sub_eq a b, div_eq a b, sdiv_eq a b, mod_eq a b, smod_eq a b, addmod_eq a b m,
    mulmod_eq a b m, exp_eq a b, signextend_eq a b, byte_eq a b, shl_eq a b, shr_eq a b, sar_eq a b, clz_eq a⟩

end Alu

namespace Portable

variable (a b m : U256)

-- The limbs of the host's software do too.
structure Defined : Prop where
  add : (opAdd a b).word = Evm.add a.word b.word
  mul : (opMul a b).word = Evm.mul a.word b.word
  sub : (opSub a b).word = Evm.sub a.word b.word
  div : (opDiv a b).word = Evm.div a.word b.word
  sdiv : (opSdiv a b).word = Evm.sdiv a.word b.word
  mod : (opMod a b).word = Evm.mod a.word b.word
  smod : (opSmod a b).word = Evm.smod a.word b.word
  addmod : (opAddmod a b m).word = Evm.addmod a.word b.word m.word
  mulmod : (opMulmod a b m).word = Evm.mulmod a.word b.word m.word
  exp : (opExp a b).word = Evm.exp a.word b.word
  signextend : (opSignextend a b).word = Evm.signextend a.word b.word
  byte : (opByte a b).word = Evm.byte a.word b.word
  shl : (opShl a b).word = Evm.shl a.word b.word
  shr : (opShr a b).word = Evm.shr a.word b.word
  sar : (opSar a b).word = Evm.sar a.word b.word
  clz : (opClz a).word = Evm.clz a.word

theorem defined : Defined a b m :=
  ⟨opAdd_word a b, opMul_word a b, opSub_word a b, opDiv_word a b, opSdiv_word a b, opMod_word a b, opSmod_word a b,
    opAddmod_word a b m, opMulmod_word a b m, opExp_word a b, opSignextend_word a b, opByte_word a b, opShl_word a b,
    opShr_word a b, opSar_word a b, opClz_word a⟩

end Portable

namespace Guest

-- The inline routines of the guest leave the same limbs as the host's software.
structure Agrees (arith : U256 → U256 → U256 → U256 × U256) (a b : U256) : Prop where
  exp : exp arith a b = Portable.opExp a b
  shl : shl a b = Portable.opShl a b
  shr : shr a b = Portable.opShr a b
  sar : sar a b = Portable.opSar a b
  signextend : signextend a b = Portable.opSignextend a b

theorem agrees {arith : U256 → U256 → U256 → U256 × U256} (hexact : Exact arith) (a b : U256) : Agrees arith a b :=
  ⟨word_inj ((exp_word hexact a b).trans (Portable.opExp_word a b).symm),
    word_inj ((shl_word a b).trans (Portable.opShl_word a b).symm),
    word_inj ((shr_word a b).trans (Portable.opShr_word a b).symm),
    word_inj ((sar_word a b).trans (Portable.opSar_word a b).symm),
    word_inj ((signextend_word a b).trans (Portable.opSignextend_word a b).symm)⟩

end Guest

-- For all operands the portable opcodes, the interpreter's words and the guest's routines give what the EVM
-- defines, and a division whose hint is accepted is the division.
theorem word_arithmetic {arith : U256 → U256 → U256 → U256 × U256} (hexact : Guest.Exact arith) :
    (∀ a b m : U256, Portable.Defined a b m ∧ Alu.Defined a.word b.word m.word) ∧
      (∀ a b : U256, Guest.Agrees arith a b) ∧
      (∀ hint (a b q r : U256), Portable.udivmod4 hint a b = some (q, r) →
        b.word ≠ 0 ∧ q.word = Evm.div a.word b.word ∧ r.word = Evm.mod a.word b.word) ∧
      ∀ a b : U256, b.word ≠ 0 → (Portable.udivmod4 Portable.fcallBigintDiv a b).isSome := by
  refine ⟨fun a b m => ⟨Portable.defined a b m, Alu.defined a.word b.word m.word⟩, Guest.agrees hexact, ?_,
    fun a b hb => Portable.udivmod4_honest a hb⟩
  intro hint a b q r h
  obtain ⟨hb, hq, hr⟩ := Portable.udivmod4_sound h
  refine ⟨hb, ?_, ?_⟩
  · rw [hq, Evm.div, if_neg hb, Portable.ofNat_div]
  · rw [hr, Evm.mod, if_neg hb, Portable.ofNat_mod]

-- With the software in place of the precompile: 3 to the power of 2^64 + 1, and a hint for 7 / 2.
theorem word_arithmetic_software : Guest.Exact Portable.arith256 ∧
    Guest.exp Portable.arith256 (small 3) (ofList [1, 1]) = Portable.opExp (small 3) (ofList [1, 1]) ∧
    Portable.udivmod4 (fun _ _ => ([3], [1])) (small 7) (small 2) = some (small 3, small 1) ∧
    (small 3).word = Evm.div (small 7).word (small 2).word :=
  have hall := word_arithmetic Guest.exact_arith256
  have hhint : Portable.udivmod4 (fun _ _ => ([3], [1])) (small 7) (small 2) = some (small 3, small 1) := by decide
  ⟨Guest.exact_arith256, (hall.2.1 _ _).exp, hhint, (hall.2.2.1 _ _ _ _ _ hhint).2.1⟩

end Zeg.Zevm
