import Zeg.Base.Bytes

-- The arithmetic of the opcodes, on the values of the 256-bit words.
namespace Zeg.Zevm.Alu

open Base

def boolWord (b : Bool) : Word := if b then 1 else 0

def sign (a : Word) : Bool := a.msb

def add (a b : Word) : Word := a + b
def mul (a b : Word) : Word := a * b
def sub (a b : Word) : Word := a - b

def div (a b : Word) : Word := if b = 0 then 0 else a / b

def sdiv (a b : Word) : Word :=
  if b = 0 then 0
  -- -2^255 / -1 does not fit
  else if a = 1 <<< 255 ∧ b = -1 then a
  else
    let q := (if sign a then -a else a) / (if sign b then -b else b)
    if sign a ≠ sign b then -q else q

def mod (a b : Word) : Word := if b = 0 then 0 else a % b

def smod (a b : Word) : Word :=
  if b = 0 then 0
  else
    let r := (if sign a then -a else a) % (if sign b then -b else b)
    if sign a then -r else r

-- The sum and the product are taken in 512 bits.
def addmod (a b m : Word) : Word :=
  if m = 0 then 0 else BitVec.ofNat 256 ((a.toNat + b.toNat) % m.toNat)

def mulmod (a b m : Word) : Word :=
  if m = 0 then 0 else BitVec.ofNat 256 (a.toNat * b.toNat % m.toNat)

def byteLen (e : Word) : Nat := if e = 0 then 0 else e.toNat.log2 / 8 + 1

-- Square and multiply over the bits below `n`, most significant first.
def expBits (base e : Word) : Nat → Word → Word
  | 0, result => result
  | n + 1, result =>
    let squared := result * result
    expBits base e n (if e.getLsbD n then squared * base else squared)

def exp (base e : Word) : Word := expBits base e (if e = 0 then 0 else e.toNat.log2 + 1) 1

def signextend (i x : Word) : Word :=
  if i.toNat ≤ 30 then
    let bit := i.toNat * 8 + 7
    let low := BitVec.ofNat 256 (2 ^ (bit + 1) - 1)
    if x.getLsbD bit then x ||| ~~~low else x &&& low
  else x

def lt (a b : Word) : Word := boolWord (a.ult b)
def gt (a b : Word) : Word := boolWord (b.ult a)

def signedLt (a b : Word) : Bool := if sign a ≠ sign b then sign a else a.ult b

def slt (a b : Word) : Word := boolWord (signedLt a b)
def sgt (a b : Word) : Word := boolWord (signedLt b a)
def eq (a b : Word) : Word := boolWord (a == b)
def iszero (a : Word) : Word := boolWord (a == 0)
def and (a b : Word) : Word := b &&& a
def or (a b : Word) : Word := b ||| a
def xor (a b : Word) : Word := b ^^^ a
def not (a : Word) : Word := ~~~a

-- low_scalar: 256 stands for everything out of range.
def lowScalar (v : Word) : Nat := if v.toNat < 256 then v.toNat else 256

def byte (i x : Word) : Word :=
  if lowScalar i < 32 then BitVec.ofNat 256 (x.toNat / 256 ^ (31 - lowScalar i) % 256) else 0

def shl (shift v : Word) : Word := if lowScalar shift ≥ 256 then 0 else v <<< lowScalar shift

def shr (shift v : Word) : Word := if lowScalar shift ≥ 256 then 0 else v >>> lowScalar shift

def sar (shift v : Word) : Word :=
  if lowScalar shift ≥ 256 then (if sign v then -1 else 0) else v.sshiftRight (lowScalar shift)

def clz (a : Word) : Word := if a = 0 then 256 else BitVec.ofNat 256 (255 - a.toNat.log2)

example : sdiv (1 <<< 255) (-1) = 1 <<< 255 ∧ smod (-7) 3 = -1 ∧ exp 3 5 = 243 ∧ sar 300 (-2) = -1 := by decide

end Zeg.Zevm.Alu
