import Zeg.Base.Bytes
import Mathlib.Data.Fin.Basic

-- Nibble paths and their hex-prefix encoding.
namespace Zeg.Base

open List

abbrev Nibble := Fin 16

instance nibbleNeZero : @NeZero Nat Zero.ofOfNat0 16 := ⟨Nat.succ_ne_zero 15⟩

abbrev Path := List Nibble

def high (b : UInt8) : Nibble := ⟨b.toNat / 16, by have := b.toNat_lt; omega⟩

def low (b : UInt8) : Nibble := ⟨b.toNat % 16, by omega⟩

def byteOf (hi lo : Nibble) : UInt8 := UInt8.ofNat (16 * hi + lo)

def nibblesOf : Bytes → Path
  | [] => []
  | b :: rest => high b :: low b :: nibblesOf rest

-- Two nibbles a byte; a last odd one takes the high half.
def packNibbles : Path → Bytes
  | [] => []
  | [n] => [byteOf n 0]
  | hi :: lo :: rest => byteOf hi lo :: packNibbles rest

-- Flag 2 marks a leaf, flag 1 an odd length, whose first nibble shares the flag's byte.
def hexPrefix (path : Path) (leaf : Bool) : Bytes :=
  match path with
  | [] => [byteOf (if leaf then 2 else 0) 0]
  | n :: rest =>
    if rest.length % 2 = 0 then byteOf (if leaf then 3 else 1) n :: packNibbles rest
    else byteOf (if leaf then 2 else 0) 0 :: packNibbles (n :: rest)

def hpDecode : Bytes → Path × Bool
  | [] => ([], false)
  | flag :: rest =>
    ((if (high flag).val % 2 = 1 then [low flag] else []) ++ nibblesOf rest, (high flag).val / 2 % 2 = 1)

theorem toNat_byteOf (hi lo : Nibble) : (byteOf hi lo).toNat = 16 * hi.val + lo.val := by
  simp only [byteOf, UInt8.toNat_ofNat']
  omega

@[simp] theorem high_byteOf (hi lo : Nibble) : high (byteOf hi lo) = hi := by
  apply Fin.ext
  simp only [high, toNat_byteOf]
  omega

@[simp] theorem low_byteOf (hi lo : Nibble) : low (byteOf hi lo) = lo := by
  apply Fin.ext
  simp only [low, toNat_byteOf]
  omega

theorem byteOf_high_low (b : UInt8) : byteOf (high b) (low b) = b := by
  apply UInt8.toNat.inj
  rw [toNat_byteOf]
  simp only [high, low]
  omega

@[simp] theorem length_nibblesOf (bytes : Bytes) : (nibblesOf bytes).length = 2 * bytes.length := by
  induction bytes with
  | nil => rfl
  | cons b rest ih =>
    simp only [nibblesOf, length_cons, ih]
    omega

theorem packNibbles_nibblesOf (bytes : Bytes) : packNibbles (nibblesOf bytes) = bytes := by
  induction bytes with
  | nil => rfl
  | cons b rest ih => simp only [nibblesOf, packNibbles, byteOf_high_low, ih]

theorem nibblesOf_injective {a b : Bytes} (h : nibblesOf a = nibblesOf b) : a = b := by
  rw [← packNibbles_nibblesOf a, ← packNibbles_nibblesOf b, h]

theorem nibblesOf_packNibbles (path : Path) (heven : path.length % 2 = 0) :
    nibblesOf (packNibbles path) = path := by
  induction path using packNibbles.induct with
  | case1 => rfl
  | case2 n => simp at heven
  | case3 hi lo rest ih =>
    have hrest : rest.length % 2 = 0 := by
      simp only [length_cons] at heven
      omega
    simp only [packNibbles, nibblesOf, high_byteOf, low_byteOf, ih hrest]

theorem length_packNibbles (path : Path) : (packNibbles path).length = (path.length + 1) / 2 := by
  induction path using packNibbles.induct with
  | case1 => rfl
  | case2 n => simp [packNibbles]
  | case3 hi lo rest ih =>
    simp only [packNibbles, length_cons, ih]
    omega

theorem hpDecode_hexPrefix (path : Path) (leaf : Bool) : hpDecode (hexPrefix path leaf) = (path, leaf) := by
  unfold hexPrefix
  split
  · cases leaf <;> rfl
  · next n rest =>
    split
    · next heven => cases leaf <;> simp [hpDecode, nibblesOf_packNibbles rest heven]
    · next hodd =>
      have heven : (n :: rest).length % 2 = 0 := by
        rw [length_cons]
        omega
      cases leaf <;> simp [hpDecode, nibblesOf_packNibbles _ heven]

theorem hexPrefix_injective {p q : Path} {a b : Bool} (h : hexPrefix p a = hexPrefix q b) :
    p = q ∧ a = b := by
  have hdec := congrArg hpDecode h
  rw [hpDecode_hexPrefix, hpDecode_hexPrefix] at hdec
  exact Prod.mk.inj hdec

theorem length_hexPrefix (path : Path) (leaf : Bool) :
    (hexPrefix path leaf).length = path.length / 2 + 1 := by
  unfold hexPrefix
  split
  · rfl
  · split
    · simp only [length_cons, length_packNibbles]
    · simp only [length_cons, length_packNibbles]
      omega

end Zeg.Base
