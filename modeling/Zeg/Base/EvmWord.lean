import Mathlib.Algebra.Group.Int.Defs
import Mathlib.Data.Nat.Size
import Zeg.Base.Bytes

-- What the EVM says of its 256-bit arithmetic, on the numbers that the words stand for.
namespace Zeg.Base.Evm

open BitVec

def add (a b : Word) : Word := BitVec.ofNat 256 (a.toNat + b.toNat)

def mul (a b : Word) : Word := BitVec.ofNat 256 (a.toNat * b.toNat)

def sub (a b : Word) : Word := BitVec.ofInt 256 (a.toNat - b.toNat)

def div (a b : Word) : Word := if b = 0 then 0 else BitVec.ofNat 256 (a.toNat / b.toNat)

def sdiv (a b : Word) : Word := if b = 0 then 0 else BitVec.ofInt 256 (a.toInt.tdiv b.toInt)

def mod (a b : Word) : Word := if b = 0 then 0 else BitVec.ofNat 256 (a.toNat % b.toNat)

def smod (a b : Word) : Word := if b = 0 then 0 else BitVec.ofInt 256 (a.toInt.tmod b.toInt)

def addmod (a b m : Word) : Word := if m = 0 then 0 else BitVec.ofNat 256 ((a.toNat + b.toNat) % m.toNat)

def mulmod (a b m : Word) : Word := if m = 0 then 0 else BitVec.ofNat 256 (a.toNat * b.toNat % m.toNat)

def exp (a e : Word) : Word := BitVec.ofNat 256 (a.toNat ^ e.toNat)

def signextend (i x : Word) : Word :=
  if i.toNat < 31 then (x.setWidth (8 * (i.toNat + 1))).signExtend 256 else x

def byte (i x : Word) : Word :=
  if i.toNat < 32 then BitVec.ofNat 256 (x.toNat / 256 ^ (31 - i.toNat) % 256) else 0

def shl (shift v : Word) : Word := BitVec.ofNat 256 (v.toNat * 2 ^ shift.toNat)

def shr (shift v : Word) : Word := BitVec.ofNat 256 (v.toNat / 2 ^ shift.toNat)

def sar (shift v : Word) : Word := BitVec.ofInt 256 (v.toInt / 2 ^ shift.toNat)

def clz (a : Word) : Word := BitVec.ofNat 256 (256 - a.toNat.size)

theorem shl_eq (shift v : Word) : shl shift v = v <<< shift.toNat := by
  apply eq_of_toNat_eq
  rw [shl, toNat_ofNat, toNat_shiftLeft, Nat.shiftLeft_eq]

theorem shr_eq (shift v : Word) : shr shift v = v >>> shift.toNat := by
  have hlt : v.toNat / 2 ^ shift.toNat < 2 ^ 256 := Nat.lt_of_le_of_lt (Nat.div_le_self _ _) v.isLt
  apply eq_of_toNat_eq
  rw [shr, toNat_ofNat, Nat.mod_eq_of_lt hlt, toNat_ushiftRight, Nat.shiftRight_eq_div_pow]

theorem sar_eq (shift v : Word) : sar shift v = v.sshiftRight shift.toNat := by
  have hpow : ((2 ^ shift.toNat : Nat) : Int) = 2 ^ shift.toNat := Int.natCast_pow 2 shift.toNat
  rw [sar, ← hpow, ← Int.shiftRight_eq_div_pow, ← toInt_sshiftRight, ofInt_toInt]

theorem getLsbD_signextend {i x : Word} {j : Nat} (hi : i.toNat < 31) (hj : j < 256) :
    (signextend i x).getLsbD j = x.getLsbD (min j (8 * i.toNat + 7)) := by
  rw [signextend, if_pos hi, getLsbD_signExtend, decide_eq_true hj, Bool.true_and,
    msb_eq_getLsbD_last, getLsbD_setWidth, getLsbD_setWidth]
  by_cases hlow : j < 8 * (i.toNat + 1)
  · rw [if_pos hlow, decide_eq_true hlow, Bool.true_and, Nat.min_eq_left (by omega)]
  · have hlast : 8 * (i.toNat + 1) - 1 = 8 * i.toNat + 7 := by omega
    rw [if_neg hlow, hlast, decide_eq_true (by omega), Bool.true_and, Nat.min_eq_right (by omega)]

end Zeg.Base.Evm
