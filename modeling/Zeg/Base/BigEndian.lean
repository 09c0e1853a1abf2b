import Zeg.Base.Rlp

-- Big-endian integers of a fixed width: their leading zeros, and the bytes that are left.
namespace Zeg.Base.BigEndian

open Base.Rlp List

def leadingZeros (bytes : Bytes) : Nat := (bytes.takeWhile (· = 0)).length

def minimal (bytes : Bytes) : Bytes := bytes.dropWhile (· = 0)

def pad (width : Nat) (bytes : Bytes) : Bytes := List.replicate (width - bytes.length) 0 ++ bytes

def spread (width v : Nat) : Bytes := (List.range width).map fun k => UInt8.ofNat (v >>> (8 * (width - 1 - k)))

def clz (w : Nat) : Nat := 63 - w.log2

theorem toNat_ofBytes (bytes : Bytes) : (Word.ofBytes bytes).toNat = readBe bytes % 2 ^ 256 := by
  induction bytes using List.reverseRecOn with
  | nil => rfl
  | append_singleton bytes b ih =>
    rw [readBe_append, show Word.ofBytes (bytes ++ [b]) = Word.ofBytes bytes * 256 + BitVec.ofNat 256 b.toNat by
      simp [Word.ofBytes]]
    rw [BitVec.toNat_add, BitVec.toNat_mul, ih, BitVec.toNat_ofNat]
    show ((readBe bytes % 2 ^ 256 * 256) % 2 ^ 256 + b.toNat % 2 ^ 256) % 2 ^ 256 = _
    omega

theorem length_spread (width v : Nat) : (spread width v).length = width := by
  rw [spread, length_map, length_range]

theorem spread_succ (width v : Nat) : spread (width + 1) v = spread width (v / 256) ++ [UInt8.ofNat v] := by
  have hshift : v / 256 = v >>> 8 := (Nat.shiftRight_eq_div_pow v 8).symm
  unfold spread
  rw [range_succ, map_append]
  congr 1
  · apply map_congr_left
    intro k hk
    rw [mem_range] at hk
    rw [hshift, ← Nat.shiftRight_add]
    congr 2
    omega
  · simp

theorem readBe_spread {width v : Nat} (hv : v < 256 ^ width) : readBe (spread width v) = v := by
  induction width generalizing v with
  | zero =>
    have : v = 0 := by simpa using hv
    rw [this]
    rfl
  | succ width ih =>
    rw [spread_succ, readBe_append, ih (Nat.div_lt_of_lt_mul (by omega)), UInt8.toNat_ofNat']
    omega

theorem length_beBytes_eq {width n : Nat} (hwidth : width < 32) (hlow : 256 ^ width ≤ n)
    (hhigh : n < 256 ^ (width + 1)) : (beBytes n).length = width + 1 := by
  have hle := length_beBytes_le (width + 1) hhigh
  have hmax : 256 ^ (width + 1) ≤ 256 ^ 32 := Nat.pow_le_pow_right (by decide) hwidth
  have hread := readBe_lt (beBytes n)
  rw [readBe_beBytes (Nat.lt_of_lt_of_le hhigh hmax)] at hread
  by_contra hne
  have hpow : 256 ^ (beBytes n).length ≤ 256 ^ width := Nat.pow_le_pow_right (by decide) (by omega)
  omega

theorem drop_leadingZeros (bytes : Bytes) : bytes.drop (leadingZeros bytes) = minimal bytes := by
  have hsplit := takeWhile_append_dropWhile (p := fun b : UInt8 => decide (b = 0)) (l := bytes)
  have hdrop := congrArg (List.drop (leadingZeros bytes)) hsplit
  rw [← hdrop]
  exact drop_left

theorem length_minimal (bytes : Bytes) : (minimal bytes).length = bytes.length - leadingZeros bytes := by
  rw [← drop_leadingZeros, length_drop]

theorem length_minimal_le (bytes : Bytes) : (minimal bytes).length ≤ bytes.length := by
  rw [length_minimal]
  omega

theorem head_minimal (bytes : Bytes) : (minimal bytes).head? ≠ some 0 := by
  intro h
  have hhead := List.head?_dropWhile_not (fun b : UInt8 => decide (b = 0)) bytes
  rw [show bytes.dropWhile (fun b : UInt8 => decide (b = 0)) = minimal bytes from rfl, h] at hhead
  simp at hhead

theorem readBe_minimal (bytes : Bytes) : readBe (minimal bytes) = readBe bytes := by
  induction bytes with
  | nil => rfl
  | cons b bytes ih =>
    unfold minimal at ih ⊢
    by_cases hb : b = 0
    · rw [dropWhile_cons_of_pos (by simpa using hb), ih, readBe_cons, hb]
      simp
    · rw [dropWhile_cons_of_neg (by simpa using hb)]

theorem minimal_eq_beBytes (bytes : Bytes) (hlen : bytes.length ≤ 32) : minimal bytes = beBytes (readBe bytes) := by
  have h := beBytes_readBe (head_minimal bytes) (Nat.le_trans (length_minimal_le bytes) hlen)
  rw [← h, readBe_minimal]

theorem pad_minimal (bytes : Bytes) : pad bytes.length (minimal bytes) = bytes := by
  have hle : leadingZeros bytes ≤ bytes.length := (List.takeWhile_prefix _).length_le
  have hzeros : bytes.takeWhile (fun b : UInt8 => decide (b = 0)) = List.replicate (leadingZeros bytes) 0 := by
    rw [eq_replicate_iff]
    exact ⟨rfl, fun b hb => of_decide_eq_true (all_eq_true.1 all_takeWhile b hb)⟩
  rw [pad, length_minimal, show bytes.length - (bytes.length - leadingZeros bytes) = leadingZeros bytes by omega,
    ← hzeros]
  exact takeWhile_append_dropWhile

theorem leadingZeros_of_readBe_eq_zero {bytes : Bytes} (h : readBe bytes = 0) : leadingZeros bytes = bytes.length := by
  induction bytes with
  | nil => rfl
  | cons b bytes ih =>
    have hb : b = 0 := by
      by_contra hne
      have := @readBe_pos b bytes hne
      omega
    subst hb
    rw [readBe_cons] at h
    have hrest := ih (by simpa using h)
    exact congrArg (· + 1) hrest

theorem log2_readBe (b : UInt8) (bytes : Bytes) (hb : b ≠ 0) :
    (readBe (b :: bytes)).log2 / 8 = bytes.length := by
  have hpos := @readBe_pos b bytes hb
  have hb' : 0 < b.toNat := Nat.pos_of_ne_zero fun h => hb (UInt8.toNat_inj.1 h)
  have hlow : 2 ^ (8 * bytes.length) ≤ readBe (b :: bytes) := by
    rw [readBe_cons, Nat.pow_mul]
    exact Nat.le_trans (Nat.le_mul_of_pos_left _ hb') (Nat.le_add_right _ _)
  have hhigh : readBe (b :: bytes) < 2 ^ (8 * (bytes.length + 1)) := by
    rw [Nat.pow_mul]
    exact readBe_lt (b :: bytes)
  have h₁ := (Nat.le_log2 (by omega)).2 hlow
  have h₂ := (Nat.log2_lt (by omega)).2 hhigh
  omega

theorem clz_readBe {bytes : Bytes} (hlen : bytes.length = 8) (h : readBe bytes ≠ 0) :
    clz (readBe bytes) >>> 3 = leadingZeros bytes := by
  have hmin : minimal bytes ≠ [] := by
    intro hnil
    rw [← readBe_minimal, hnil] at h
    exact h rfl
  obtain ⟨b, rest, heq⟩ := exists_cons_of_ne_nil hmin
  have hb : b ≠ 0 := by
    have := head_minimal bytes
    rw [heq] at this
    simpa using this
  have hlog := log2_readBe b rest hb
  rw [← heq, readBe_minimal] at hlog
  have hsplit := length_minimal bytes
  rw [heq, length_cons, hlen] at hsplit
  rw [Nat.shiftRight_eq_div_pow, clz]
  omega

-- Eight bytes at a time, then the zeros of the first limb that is not zero.
def scan : Nat → Nat → Bytes → Nat
  | 0, start, _ => start
  | limbs + 1, start, bytes =>
    let w := readBe (bytes.take 8)
    if w ≠ 0 then start + clz w >>> 3 else scan limbs (start + 8) (bytes.drop 8)

theorem scan_eq (limbs start : Nat) (bytes : Bytes) (hlen : bytes.length = 8 * limbs) :
    scan limbs start bytes = start + leadingZeros bytes := by
  induction limbs generalizing start bytes with
  | zero =>
    obtain rfl : bytes = [] := length_eq_zero_iff.1 (by omega)
    rfl
  | succ limbs ih =>
    have htake : (bytes.take 8).length = 8 := by
      rw [length_take]
      omega
    simp only [scan]
    split
    · next hw =>
      rw [clz_readBe htake hw]
      have hlt : leadingZeros (bytes.take 8) < 8 := by
        have hmin := length_minimal (bytes.take 8)
        by_contra hge
        have hnil : minimal (bytes.take 8) = [] := length_eq_zero_iff.1 (by omega)
        rw [← readBe_minimal, hnil] at hw
        exact hw rfl
      congr 1
      unfold leadingZeros at hlt ⊢
      conv_rhs => rw [← take_append_drop 8 bytes]
      rw [takeWhile_append, if_neg (by omega)]
    · next hw =>
      rw [ih _ _ (by rw [length_drop]; omega)]
      have hall := @leadingZeros_of_readBe_eq_zero (bytes.take 8) (by simpa using hw)
      unfold leadingZeros at hall ⊢
      conv_rhs => rw [← take_append_drop 8 bytes]
      rw [takeWhile_append, if_pos (by omega), length_append, htake, Nat.add_assoc]

end Zeg.Base.BigEndian
