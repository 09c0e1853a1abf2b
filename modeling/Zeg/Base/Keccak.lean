import Mathlib.Data.Vector.Basic
import Zeg.Base.Bytes

-- Keccak-256: the permutation Keccak-f[1600] and the sponge over it, on lanes of 64 bits.
namespace Zeg.Base.Keccak

open List

-- Lane (x, y) is at x + 5y.
abbrev Lanes := List.Vector UInt64 25

def kRate : Nat := 136

def kRateLanes : Nat := 17

def rotationOffsets : List Nat :=
  [0, 1, 62, 28, 27, 36, 44, 6, 55, 20, 3, 10, 43, 25, 39, 41, 45, 15, 21, 8, 18, 2, 61, 56, 14]

def roundConstants : List UInt64 :=
  [0x0000000000000001, 0x0000000000008082, 0x800000000000808a, 0x8000000080008000, 0x000000000000808b,
   0x0000000080000001, 0x8000000080008081, 0x8000000000008009, 0x000000000000008a, 0x0000000000000088,
   0x0000000080008009, 0x000000008000000a, 0x000000008000808b, 0x800000000000008b, 0x8000000000008089,
   0x8000000000008003, 0x8000000000008002, 0x8000000000000080, 0x000000000000800a, 0x800000008000000a,
   0x8000000080008081, 0x8000000000008080, 0x0000000080000001, 0x8000000080008008]

def rotate (w : UInt64) (n : Nat) : UInt64 := ⟨w.toBitVec.rotateLeft n⟩

def Lanes.at (s : Lanes) (x y : Nat) : UInt64 := s.toList.getD (x % 5 + 5 * (y % 5)) 0

def column (s : Lanes) (x : Nat) : UInt64 := s.at x 0 ^^^ s.at x 1 ^^^ s.at x 2 ^^^ s.at x 3 ^^^ s.at x 4

def theta (s : Lanes) : Lanes :=
  .ofFn fun i => s.get i ^^^ (column s (i.val + 4) ^^^ rotate (column s (i.val + 1)) 1)

-- Lane (x, y) moves to (y, 2x + 3y).
def rhoPi (s : Lanes) : Lanes :=
  .ofFn fun i =>
    let x := (i.val % 5 + 3 * (i.val / 5)) % 5
    let y := i.val % 5
    rotate (s.at x y) (rotationOffsets.getD (x + 5 * y) 0)

def chi (s : Lanes) : Lanes :=
  .ofFn fun i => s.get i ^^^ (~~~s.at (i.val + 1) (i.val / 5) &&& s.at (i.val + 2) (i.val / 5))

def iota (rc : UInt64) (s : Lanes) : Lanes := .ofFn fun i => if i.val = 0 then s.get i ^^^ rc else s.get i

def keccakF (s : Lanes) : Lanes := roundConstants.foldl (fun s rc => iota rc (chi (rhoPi (theta s)))) s

def laneOf (bytes : Bytes) : UInt64 := bytes.foldr (fun b w => b.toUInt64 ^^^ (w <<< 8)) 0

def laneAt (bytes : Bytes) (i : Nat) : UInt64 := laneOf ((bytes.drop (8 * i)).take 8)

-- pad10*1 after the domain bits of Keccak, for a message of `n` bytes.
def padding (n : Nat) : Bytes :=
  if n % kRate = kRate - 1 then [0x81] else 0x01 :: (List.replicate (kRate - 2 - n % kRate) 0 ++ [0x80])

def absorbBlock (s : Lanes) (block : Bytes) : Lanes :=
  .ofFn fun i => if i.val < kRateLanes then s.get i ^^^ laneAt block i.val else s.get i

def absorb (f : Lanes → Lanes) : Nat → Lanes → Bytes → Lanes
  | 0, s, _ => s
  | n + 1, s, bytes => absorb f n (f (absorbBlock s bytes)) (bytes.drop kRate)

def squeeze (s : Lanes) : Bytes32 := .ofFn fun i => (s.toList.getD (i.val / 8) 0 >>> UInt64.ofNat (8 * (i.val % 8))).toUInt8

def zeroLanes : Lanes := List.Vector.replicate 25 0

def keccak256 (message : Bytes) : Bytes32 :=
  let padded := message ++ padding message.length
  squeeze (absorb keccakF (padded.length / kRate) zeroLanes padded)

theorem laneOf_xor {a b : Bytes} (hlen : a.length = b.length) :
    laneOf (List.zipWith (· ^^^ ·) a b) = laneOf a ^^^ laneOf b := by
  induction a generalizing b with
  | nil =>
    cases b with
    | nil => rfl
    | cons y b => cases hlen
  | cons x a ih =>
    cases b with
    | nil => cases hlen
    | cons y b =>
      have hrest := ih (Nat.succ.inj hlen)
      simp only [laneOf, zipWith_cons_cons, foldr_cons] at hrest ⊢
      rw [hrest, UInt8.toUInt64_xor, UInt64.shiftLeft_xor]
      ac_rfl

theorem laneOf_zeros (n : Nat) : laneOf (List.replicate n 0) = 0 := by
  induction n with
  | zero => rfl
  | succ n ih =>
    rw [laneOf] at ih ⊢
    rw [replicate_succ, foldr_cons, ih]
    rfl

theorem laneAt_append {bytes rest : Bytes} {i : Nat} (h : 8 * i + 8 ≤ bytes.length) :
    laneAt (bytes ++ rest) i = laneAt bytes i := by
  rw [laneAt, laneAt, drop_append_of_le_length (by omega), take_append_of_le_length]
  rw [length_drop]
  omega

theorem absorbBlock_append (s : Lanes) {bytes rest : Bytes} (h : kRate ≤ bytes.length) :
    absorbBlock s (bytes ++ rest) = absorbBlock s bytes := by
  apply List.Vector.ext
  intro i
  rw [absorbBlock, absorbBlock, List.Vector.get_ofFn, List.Vector.get_ofFn]
  split
  · next hi =>
    rw [laneAt_append]
    simp only [kRate, kRateLanes] at h hi
    omega
  · rfl

theorem padding_sub {n : Nat} (h : kRate ≤ n) : padding (n - kRate) = padding n := by
  rw [padding, padding, ← Nat.mod_eq_sub_mod h]

theorem absorb_padded (f : Lanes → Lanes) (n : Nat) (s : Lanes) (message : Bytes) (h : n * kRate ≤ message.length) :
    absorb f (n + 1) s (message ++ padding message.length) =
      absorb f 1 (absorb f n s message)
        (message.drop (n * kRate) ++ padding (message.drop (n * kRate)).length) := by
  induction n generalizing s message with
  | zero => rw [Nat.zero_mul, drop_zero]; rfl
  | succ n ih =>
    have hle : kRate ≤ message.length := by
      rw [Nat.add_mul, Nat.one_mul] at h
      omega
    have hrest := ih (f (absorbBlock s message)) (message.drop kRate) (by
      rw [length_drop]
      rw [Nat.add_mul, Nat.one_mul] at h
      omega)
    rw [absorb, absorbBlock_append s hle, drop_append_of_le_length hle]
    rw [length_drop, padding_sub hle, drop_drop] at hrest
    rw [hrest, Nat.add_mul, Nat.one_mul, Nat.add_comm kRate]
    rfl

theorem absorb_add (f : Lanes → Lanes) (n m : Nat) (s : Lanes) (bytes : Bytes) :
    absorb f (n + m) s bytes = absorb f m (absorb f n s bytes) (bytes.drop (n * kRate)) := by
  induction n generalizing s bytes with
  | zero => rw [Nat.zero_add, Nat.zero_mul, drop_zero, absorb]
  | succ n ih =>
    rw [show n + 1 + m = n + m + 1 by omega, absorb, ih, absorb, drop_drop, Nat.add_mul, Nat.one_mul,
      Nat.add_comm kRate]

theorem length_padding (n : Nat) : (padding n).length = kRate - n % kRate := by
  have hlt : n % kRate < kRate := Nat.mod_lt _ (by decide)
  rw [padding]
  split
  · next h => rw [h]; rfl
  · next h =>
    simp only [length_cons, length_append, length_replicate, length_nil]
    omega

theorem blocks_padded (message : Bytes) : (message ++ padding message.length).length / kRate = message.length / kRate + 1 := by
  have hlt : message.length % kRate < kRate := Nat.mod_lt _ (by decide)
  have hdiv := Nat.div_add_mod message.length kRate
  have hwhole : message.length + (kRate - message.length % kRate) = kRate * (message.length / kRate + 1) := by
    rw [Nat.mul_add]
    omega
  rw [length_append, length_padding, hwhole, Nat.mul_div_cancel_left _ (by decide)]

theorem padded_eq_xor {tail : Bytes} (h : tail.length < kRate) :
    tail ++ padding tail.length = List.zipWith (· ^^^ ·)
      (tail ++ 0x01 :: List.replicate (kRate - 1 - tail.length) 0) (List.replicate (kRate - 1) 0 ++ [0x80]) := by
  have hzip (n : Nat) : List.zipWith (· ^^^ ·) (List.replicate n (0 : UInt8)) (List.replicate n 0) = List.replicate n 0 := by
    rw [zipWith_replicate, Nat.min_self]
    rfl
  have hkeep : List.zipWith (· ^^^ ·) tail (List.replicate tail.length (0 : UInt8)) = tail := by
    apply ext_getElem
    · simp
    · intro i h₁ h₂
      simp
  have hsplit : List.replicate (kRate - 1) (0 : UInt8) =
      List.replicate tail.length 0 ++ List.replicate (kRate - 1 - tail.length) 0 := by
    rw [replicate_append_replicate]
    congr 1
    omega
  rw [hsplit, append_assoc, zipWith_append (by simp), hkeep, padding, Nat.mod_eq_of_lt h]
  congr 1
  split
  · next hlast => rw [hlast]; rfl
  · next hlast =>
    obtain ⟨k, hk⟩ : ∃ k, kRate - 1 - tail.length = k + 1 := ⟨kRate - 2 - tail.length, by omega⟩
    have hk' : kRate - 2 - tail.length = k := by omega
    rw [hk, hk', replicate_succ, cons_append, zipWith_cons_cons, ← replicate_succ,
      replicate_succ', zipWith_append (by simp), hzip]
    rfl

end Zeg.Base.Keccak
