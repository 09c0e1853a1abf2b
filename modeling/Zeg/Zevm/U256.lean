import Mathlib.Data.Vector.Defs
import Zeg.Base.Bytes
import Zeg.Base.Limbs

-- The words of the stack as the source has them, four 64-bit limbs with the least significant first:
-- the portable arithmetic of the opcodes, and the inline routines of the guest.
namespace Zeg.Zevm

open Base Base.Limbs

abbrev U256 := List.Vector Limb 4

namespace U256

def limb (a : U256) (i : Nat) : Limb := a.toList.getD i 0

def ofList (l : List Limb) : U256 := ⟨[l.getD 0 0, l.getD 1 0, l.getD 2 0, l.getD 3 0], rfl⟩

def small (v : Limb) : U256 := ofList [v]

def fill (v : Limb) : U256 := ofList [v, v, v, v]

def word (a : U256) : Word := BitVec.ofNat 256 (value a.toList)

def isZero (a : U256) : Bool := (a.limb 0 ||| a.limb 1 ||| a.limb 2 ||| a.limb 3) = 0

def fitsLimb (a : U256) : Bool := (a.limb 1 ||| a.limb 2 ||| a.limb 3) = 0

def sign (a : U256) : Bool := a.limb 3 >>> 63 ≠ 0

def neg (a : U256) : U256 := ofList (negate a.toList 1)

end U256

-- The host's software: bigint/backend.hpp and the opcodes that use it.
namespace Portable

open U256

def add256 (a b : U256) (cin : Nat) : U256 := ofList (addLimbs a.toList b.toList cin)

-- a * b + c, its low and its high half.
def arith256 (a b c : U256) : U256 × U256 :=
  let out := mulRows a.toList b.toList (List.replicate 8 0)
  let out := addLimbs out (c.toList ++ List.replicate 4 0) 0
  (ofList out, ofList (out.drop 4))

def mod512 (num : List Limb) (m : U256) : U256 :=
  ofList (remLoop num m.toList 8 512 (List.replicate 8 0))

def arith256Mod (a b c m : U256) : U256 :=
  let d := arith256 a b c
  mod512 (d.1.toList ++ d.2.toList) m

-- The number of limbs up to the highest one that is not zero, at least one.
def trimLen (l : List Limb) : Nat → Nat
  | 0 => 0
  | 1 => 1
  | n + 2 => if l.getD (n + 1) 0 = 0 then trimLen l (n + 1) else n + 2

-- The arrays have 64 limbs; what is returned is cut to a multiple of four.
def fcallBigintDiv (a b : List Limb) : List Limb × List Limb :=
  let d := divLoop a b (b.length + 1) (a.length * 64) (List.replicate 64 0) (List.replicate 64 0)
  (d.1.take ((trimLen d.1 a.length + 3) / 4 * 4), d.2.take ((trimLen d.2 b.length + 3) / 4 * 4))

-- The division with a hint: `none` is the endless loop of fail.
def udivmod4 (hint : List Limb → List Limb → List Limb × List Limb) (a b : U256) : Option (U256 × U256) :=
  let q := ofList (hint a.toList b.toList).1
  let r := ofList (hint a.toList b.toList).2
  let d := arith256 q b r
  if d.1 = a ∧ d.2.isZero ∧ ltFrom r.toList b.toList 4 then some (q, r) else none

def limbsLen (x : U256) : Nat := trimLen x.toList 4

def mulLow (a b : U256) : U256 := (arith256 a b (small 0)).1

def udivmod (a b : U256) : U256 × U256 :=
  let d := fcallBigintDiv (a.toList.take (limbsLen a)) (b.toList.take (limbsLen b))
  (ofList d.1, ofList d.2)

-- A limb on a word: the carry goes up through the other limbs.
def addLow (x : U256) (y : Limb) : U256 :=
  ofList ((x.limb 0 + y) :: ripple x.toList.tail (x.limb 0 + y < x.limb 0))

def opAdd (a b : U256) : U256 :=
  if a.fitsLimb then
    if a.limb 0 ≠ 0 then addLow b (a.limb 0) else b
  else if b.fitsLimb then
    if b.limb 0 = 0 then a else addLow a (b.limb 0)
  else add256 a b 0

def opMul (a b : U256) : U256 := mulLow a b

def opSub (a b : U256) : U256 :=
  if b.fitsLimb then
    if b.limb 0 = 0 then a
    else ofList ((a.limb 0 - b.limb 0) :: unripple a.toList.tail (a.limb 0 < b.limb 0))
  else add256 a (ofList (b.toList.map (~~~ ·))) 1

def opDiv (a b : U256) : U256 := if b.isZero then small 0 else (udivmod a b).1

def opSdiv (a b : U256) : U256 :=
  if b.isZero then small 0
  -- -2^255 / -1 does not fit
  else if a = ofList [0, 0, 0, 0x8000000000000000] ∧ b = fill (~~~0) then a
  else
    let q := (udivmod (if a.sign then a.neg else a) (if b.sign then b.neg else b)).1
    if a.sign ≠ b.sign then q.neg else q

def opMod (a b : U256) : U256 := if b.isZero then small 0 else (udivmod a b).2

def opSmod (a b : U256) : U256 :=
  if b.isZero then small 0
  else
    let r := (udivmod (if a.sign then a.neg else a) (if b.sign then b.neg else b)).2
    if a.sign then r.neg else r

def opAddmod (a b m : U256) : U256 := if m.isZero then small 0 else arith256Mod a (small 1) b m

def opMulmod (a b m : U256) : U256 := if m.isZero then small 0 else arith256Mod a b (small 0) m

def clzll (x : Limb) : Nat := 63 - x.toNat.log2

-- The highest bit that is set in the limbs below `n`.
def topBit (e : U256) : Nat → Option Nat
  | 0 => none
  | k + 1 => if e.limb k ≠ 0 then some (k * 64 + (63 - clzll (e.limb k))) else topBit e k

-- Square and multiply over the bits below `n` of a limb, and over the limbs below it.
def expLane (base : U256) (lane : Limb) : Nat → U256 → U256
  | 0, result => result
  | b + 1, result =>
    let squared := mulLow result result
    expLane base lane b (if (lane >>> b) &&& 1 ≠ 0 then mulLow squared base else squared)

def expLanes (base e : U256) : Nat → U256 → U256
  | 0, result => result
  | vl + 1, result => expLanes base e vl (expLane base (e.limb vl) 64 result)

def opExp (base e : U256) : U256 :=
  match topBit e 4 with
  | none => small 1
  | some top => expLanes base e (top / 64) (expLane base (e.limb (top / 64)) (top % 64 + 1) (small 1))

-- The limb at `q` is changed, those above it are filled.
def extendFrom (x : U256) (q : Nat) (v above : Limb) : U256 :=
  ofList ((List.range 4).map fun i => if i < q then x.limb i else if i = q then v else above)

def opSignextend (i x : U256) : U256 :=
  if i.fitsLimb ∧ i.limb 0 ≤ 30 then
    let bit := (i.limb 0).toNat * 8 + 7
    let lane := x.limb (bit / 64)
    let lowMask : Limb := if bit % 64 = 63 then ~~~0 else (1#64 <<< (bit % 64 + 1)) - 1
    if (lane >>> (bit % 64)) &&& 1 ≠ 0 then extendFrom x (bit / 64) (lane ||| ~~~lowMask) (~~~0)
    else extendFrom x (bit / 64) (lane &&& lowMask) 0
  else x

-- Logical shifts by less than 256 bits, each limb put where its two parts belong.
def shl (a : U256) (n : Nat) : U256 :=
  if n ≥ 256 then small 0
  else
    ofList ((List.range 4).foldl (fun r i =>
      let r := if i + n / 64 < 4 then r.modify (i + n / 64) (· ||| (a.limb i <<< (n % 64))) else r
      if n % 64 ≠ 0 ∧ i + n / 64 + 1 < 4 then
        r.modify (i + n / 64 + 1) (· ||| (a.limb i >>> (64 - n % 64)))
      else r) (List.replicate 4 0))

def shr (a : U256) (n : Nat) : U256 :=
  if n ≥ 256 then small 0
  else
    ofList ((List.range 4).foldl (fun r i =>
      let r := if i ≥ n / 64 then r.modify (i - n / 64) (· ||| (a.limb i >>> (n % 64))) else r
      if n % 64 ≠ 0 ∧ i ≥ n / 64 + 1 then
        r.modify (i - n / 64 - 1) (· ||| (a.limb i <<< (64 - n % 64)))
      else r) (List.replicate 4 0))

def sar (a : U256) (n : Nat) : U256 :=
  if n ≥ 256 then fill (if a.sign then ~~~0 else 0)
  else if a.sign ∧ n ≠ 0 then
    ofList ((List.range 4).map fun i => (shr a n).limb i ||| (shl (fill (~~~0)) (256 - n)).limb i)
  else shr a n

def lowScalar (v : U256) : Nat :=
  if (v.limb 1 ||| v.limb 2 ||| v.limb 3 ||| (v.limb 0 &&& ~~~0xFF)) ≠ 0 then 256
  else (v.limb 0 &&& 0xFF).toNat

-- Shifts by whole bytes, as moves in the little-endian bytes of the slot.
def byteShl (v : U256) (k : Nat) : U256 :=
  ofList (ofBytes (List.replicate k 0 ++ (bytes v.toList).take (32 - k)))

def byteShr (v : U256) (k : Nat) : U256 :=
  ofList (ofBytes ((bytes v.toList).drop k ++ List.replicate k 0))

def signByte (v : U256) : Bool := (bytes v.toList).getD 31 0 &&& 0x80 ≠ 0

def byteSar (v : U256) (k : Nat) : U256 :=
  ofList (ofBytes ((bytes v.toList).drop k ++ List.replicate k (if signByte v then 0xFF else 0)))

def opByte (i x : U256) : U256 :=
  if lowScalar i < 32 then small (BitVec.ofNat 64 ((bytes x.toList).getD (31 - lowScalar i) 0).toNat) else small 0

def opShl (shift v : U256) : U256 :=
  if lowScalar shift ≥ 256 then small 0
  else if lowScalar shift = 0 then v
  else if lowScalar shift % 8 = 0 then byteShl v (lowScalar shift / 8)
  else shl v (lowScalar shift)

def opShr (shift v : U256) : U256 :=
  if lowScalar shift ≥ 256 then small 0
  else if lowScalar shift = 0 then v
  else if lowScalar shift % 8 = 0 then byteShr v (lowScalar shift / 8)
  else shr v (lowScalar shift)

def opSar (shift v : U256) : U256 :=
  if lowScalar shift ≥ 256 then
    ofList (ofBytes (List.replicate 32 (if signByte v then 0xFF else 0)))
  else if lowScalar shift = 0 then v
  else if lowScalar shift % 8 = 0 then byteSar v (lowScalar shift / 8)
  else sar v (lowScalar shift)

def opClz (a : U256) : U256 :=
  small (BitVec.ofNat 64
    (if a.limb 3 ≠ 0 then clzll (a.limb 3)
    else if a.limb 2 ≠ 0 then 64 + clzll (a.limb 2)
    else if a.limb 1 ≠ 0 then 128 + clzll (a.limb 1)
    else if a.limb 0 ≠ 0 then 192 + clzll (a.limb 0)
    else 256))

end Portable

-- The inline routines of zkvm_u256_le.h. `arith` is the precompile arith256.
namespace Guest

open U256

variable (arith : U256 → U256 → U256 → U256 × U256)

def square (acc : U256) : U256 := (arith acc acc (small 0)).1

def times (acc base : U256) : U256 := (arith acc base (small 0)).1

def negative (x : Limb) : Bool := x.slt 0

-- The leading zero bits of the highest limb: both words are shifted until its top bit is set.
def normalize : Nat → Limb → Limb → Limb × Limb
  | 0, e, t => (e, t)
  | fuel + 1, e, t => if negative e then (e, t) else normalize fuel (e <<< 1) (t <<< 1)

-- The bits below the top one, until the sentinel bit has come to the top.
def expBits (base : U256) : Nat → Limb → U256 → U256
  | 0, _, acc => acc
  | fuel + 1, t, acc =>
    if t ≠ 1#64 <<< 63 then
      let acc := square arith acc
      expBits base fuel (t <<< 1) (if negative t then times arith acc base else acc)
    else acc

def expLimb (base : U256) (e t : Limb) (acc : U256) : U256 :=
  let acc := square arith acc
  expBits arith base 64 t (if negative e then times arith acc base else acc)

def expLimbs (base exponent : U256) : Nat → U256 → U256
  | 0, acc => acc
  | w + 1, acc => expLimbs base exponent w
      (expLimb arith base (exponent.limb w) ((exponent.limb w <<< 1) ||| 1) acc)

-- The index behind the highest limb that is not zero.
def topLimb (exponent : U256) : Nat → Nat
  | 0 => 0
  | w + 1 => if exponent.limb w = 0 then topLimb exponent w else w + 1

def exp (base exponent : U256) : U256 :=
  match topLimb exponent 4 with
  | 0 => small 1
  | w + 1 =>
    let top := normalize 64 (exponent.limb w) ((exponent.limb w <<< 1) ||| 1)
    expLimbs arith base exponent w (expLimb arith base top.1 top.2 (small 1))

-- An operand below `limit` as a plain number, `limit` if it is not.
def smallOperand (x : U256) (limit : Nat) : Nat :=
  if x.fitsLimb ∧ (x.limb 0).toNat < limit then (x.limb 0).toNat else limit

def shl (shift v : U256) : U256 :=
  let s := smallOperand shift 256
  if s < 256 then
    ofList ((List.range 4).map fun i =>
      let hi := if s / 64 ≤ i then v.limb (i - s / 64) else 0
      let lo := if s / 64 + 1 ≤ i then v.limb (i - s / 64 - 1) else 0
      if s % 64 ≠ 0 then (hi <<< (s % 64)) ||| (lo >>> (64 - s % 64)) else hi)
  else small 0

-- z = x >> s for s < 256, shifting in `fill`.
def shiftRight (x : U256) (s : Nat) (above : Limb) : U256 :=
  ofList ((List.range 4).map fun i =>
    let lo := if i + s / 64 < 4 then x.limb (i + s / 64) else above
    let hi := if i + s / 64 + 1 < 4 then x.limb (i + s / 64 + 1) else above
    if s % 64 ≠ 0 then (lo >>> (s % 64)) ||| (hi <<< (64 - s % 64)) else lo)

def shr (shift v : U256) : U256 :=
  if smallOperand shift 256 < 256 then shiftRight v (smallOperand shift 256) 0 else small 0

def sar (shift v : U256) : U256 :=
  let above : Limb := if negative (v.limb 3) then ~~~0 else 0
  if smallOperand shift 256 < 256 then shiftRight v (smallOperand shift 256) above else fill above

def signextend (b v : U256) : U256 :=
  let k := smallOperand b 31
  if k < 31 then
    let bit := 8 * k + 7
    let lane := v.limb (bit / 64)
    let above : Limb := if (lane >>> (bit % 64)) &&& 1 ≠ 0 then ~~~0 else 0
    let keep : Limb := if bit % 64 = 63 then ~~~0 else (2#64 <<< (bit % 64)) - 1
    Portable.extendFrom v (bit / 64) ((lane &&& keep) ||| (above &&& ~~~keep)) above
  else v

end Guest

end Zeg.Zevm
