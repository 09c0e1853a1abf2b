import Zeg.Base.Bytes
import Zeg.Base.Except
import Mathlib.Data.List.Induction
import Mathlib.Tactic.Ring

-- Recursive Length Prefix items, their encoding and its decoder.
namespace Zeg.Base.Rlp

open List

inductive Item where
  | Str (bytes : Bytes)
  | Lst (items : List Item)

-- An integer below 2^256 as big-endian bytes without leading zeros.
def beBytesAux : Nat → Nat → Bytes → Bytes
  | 0, _, acc => acc
  | fuel + 1, n, acc => if n = 0 then acc else beBytesAux fuel (n / 256) (UInt8.ofNat n :: acc)

def beBytes (n : Nat) : Bytes := beBytesAux 32 n []

def readBe (bytes : Bytes) : Nat := bytes.foldl (fun acc b => acc * 256 + b.toNat) 0

-- The header of a payload of `len` bytes: `short` and `long` are the bases of its two forms.
def header (short long len : Nat) : Bytes :=
  if len ≤ 55 then [UInt8.ofNat (short + len)]
  else UInt8.ofNat (long + (beBytes len).length) :: beBytes len

def encodeStr (bytes : Bytes) : Bytes :=
  match bytes with
  | [b] => if b.toNat < 0x80 then [b] else header 0x80 0xb7 1 ++ [b]
  | bytes => header 0x80 0xb7 bytes.length ++ bytes

def wrap (payload : Bytes) : Bytes := header 0xc0 0xf7 payload.length ++ payload

mutual
def encode : Item → Bytes
  | .Str bytes => encodeStr bytes
  | .Lst items => wrap (encodeAll items)

def encodeAll : List Item → Bytes
  | [] => []
  | x :: xs => encode x ++ encodeAll xs
end

def split (len : Nat) (bytes : Bytes) (message : String) : Except String (Bytes × Bytes) :=
  if bytes.length < len then .error message else .ok (bytes.take len, bytes.drop len)

mutual
def decode : Nat → Bytes → Except String (Item × Bytes)
  | 0, _ => .error "RLP: out of fuel"
  | _ + 1, [] => .error "RLP: empty input"
  | fuel + 1, b :: data =>
    let n := b.toNat
    if n < 0x80 then .ok (.Str [b], data)
    else if n < 0xb8 then do
      let (body, rest) ← split (n - 0x80) data "RLP: short string truncated"
      return (.Str body, rest)
    else if n < 0xc0 then do
      let (len, data) ← split (n - 0xb7) data "RLP: long string len truncated"
      let (body, rest) ← split (readBe len) data "RLP: long string body truncated"
      return (.Str body, rest)
    else if n < 0xf8 then do
      let (body, rest) ← split (n - 0xc0) data "RLP: short list truncated"
      let items ← decodeItems fuel body
      return (.Lst items, rest)
    else do
      let (len, data) ← split (n - 0xf7) data "RLP: long list len truncated"
      let (body, rest) ← split (readBe len) data "RLP: long list body truncated"
      let items ← decodeItems fuel body
      return (.Lst items, rest)

def decodeItems : Nat → Bytes → Except String (List Item)
  | _, [] => .ok []
  | 0, _ => .error "RLP: out of fuel"
  | fuel + 1, body => do
    let (item, rest) ← decode fuel body
    let items ← decodeItems fuel rest
    return item :: items
end

-- Fuel that every well-formed input leaves unused.
def decodeAll (data : Bytes) : Except String (Item × Bytes) := decode (2 * data.length) data

-- Lengths.

theorem readBe_foldl (bytes : Bytes) (n : Nat) :
    bytes.foldl (fun acc b => acc * 256 + b.toNat) n = n * 256 ^ bytes.length + readBe bytes := by
  unfold readBe
  induction bytes generalizing n with
  | nil => simp
  | cons b rest ih =>
    grind

theorem readBe_cons (b : UInt8) (bytes : Bytes) :
    readBe (b :: bytes) = b.toNat * 256 ^ bytes.length + readBe bytes := by
  have h := readBe_foldl bytes b.toNat
  simpa [readBe] using h

theorem readBe_beBytesAux (fuel n : Nat) (acc : Bytes) (hn : n < 256 ^ fuel) :
    readBe (beBytesAux fuel n acc) = n * 256 ^ acc.length + readBe acc := by
  induction fuel generalizing n acc with
  | zero =>
    have : n = 0 := by simpa using hn
    simp [beBytesAux, this]
  | succ fuel ih =>
    unfold beBytesAux
    split
    · next h => simp [h]
    · have hdiv : n / 256 < 256 ^ fuel := by
        exact Nat.div_lt_of_lt_mul (by omega)
      have hmod : (UInt8.ofNat n).toNat = n % 256 := by simp
      rw [ih _ _ hdiv, readBe_cons, length_cons, Nat.pow_succ, hmod]
      have hsplit := Nat.div_add_mod n 256
      generalize n / 256 = q at hsplit ⊢
      generalize n % 256 = r at hsplit ⊢
      subst hsplit
      ring

theorem length_beBytesAux (fuel n : Nat) (acc : Bytes) : acc.length ≤ (beBytesAux fuel n acc).length := by
  induction fuel generalizing n acc with
  | zero => simp [beBytesAux]
  | succ fuel ih =>
    unfold beBytesAux
    split
    · exact Nat.le_refl _
    · have h := ih (n / 256) (UInt8.ofNat n :: acc)
      rw [length_cons] at h
      omega

theorem length_beBytesAux_le (fuel n width : Nat) (acc : Bytes) (hn : n < 256 ^ width) :
    (beBytesAux fuel n acc).length ≤ width + acc.length := by
  induction fuel generalizing n width acc with
  | zero => simp [beBytesAux]
  | succ fuel ih =>
    unfold beBytesAux
    split
    · omega
    · next h =>
      obtain ⟨width, rfl⟩ : ∃ w, width = w + 1 := by
        cases width with
        | zero => simp at hn; omega
        | succ w => exact ⟨w, rfl⟩
      have hdiv : n / 256 < 256 ^ width := by
        exact Nat.div_lt_of_lt_mul (by omega)
      have hrec := ih (n / 256) width (UInt8.ofNat n :: acc) hdiv
      rw [length_cons] at hrec
      omega

theorem readBe_beBytes {n : Nat} (hn : n < 2 ^ 256) : readBe (beBytes n) = n := by
  have h := readBe_beBytesAux 32 n [] (by simpa using hn)
  simpa [readBe, beBytes] using h

theorem beBytes_injective {m n : Nat} (hm : m < 2 ^ 256) (hn : n < 2 ^ 256) (h : beBytes m = beBytes n) :
    m = n := by
  rw [← readBe_beBytes hm, ← readBe_beBytes hn, h]

theorem readBe_append (bytes : Bytes) (b : UInt8) : readBe (bytes ++ [b]) = readBe bytes * 256 + b.toNat := by
  simp [readBe]

theorem readBe_pos {b : UInt8} {bytes : Bytes} (hb : b ≠ 0) : 0 < readBe (b :: bytes) := by
  have hpos : 0 < b.toNat := Nat.pos_of_ne_zero fun h => hb (UInt8.toNat_inj.1 h)
  have hpow : 0 < 256 ^ bytes.length := Nat.pow_pos (by omega)
  rw [readBe_cons]
  exact Nat.lt_of_lt_of_le (Nat.mul_pos hpos hpow) (Nat.le_add_right _ _)

theorem readBe_lt (bytes : Bytes) : readBe bytes < 256 ^ bytes.length := by
  induction bytes with
  | nil => simp [readBe]
  | cons b rest ih =>
    have hb := b.toNat_lt
    rw [readBe_cons, length_cons, Nat.pow_succ]
    calc b.toNat * 256 ^ rest.length + readBe rest < b.toNat * 256 ^ rest.length + 256 ^ rest.length := by omega
      _ = (b.toNat + 1) * 256 ^ rest.length := by ring
      _ ≤ 256 * 256 ^ rest.length := Nat.mul_le_mul_right _ (by omega)
      _ = 256 ^ rest.length * 256 := Nat.mul_comm _ _

theorem beBytesAux_readBe (bytes : Bytes) (hhead : bytes.head? ≠ some 0) (fuel : Nat) (hfuel : bytes.length ≤ fuel)
    (acc : Bytes) : beBytesAux fuel (readBe bytes) acc = bytes ++ acc := by
  induction bytes using List.reverseRecOn generalizing fuel acc with
  | nil =>
    cases fuel with
    | zero => rfl
    | succ fuel => simp [beBytesAux, readBe]
  | append_singleton bytes b ih =>
    obtain ⟨fuel, rfl⟩ : ∃ n, fuel = n + 1 := ⟨fuel - 1, by simp at hfuel; omega⟩
    have hpos : readBe (bytes ++ [b]) ≠ 0 := by
      obtain _ | ⟨c, bytes⟩ := bytes
      · exact Nat.ne_of_gt (readBe_pos fun h => hhead (by simp [h]))
      · exact Nat.ne_of_gt (readBe_pos fun h => hhead (by simp [h]))
    have hb := b.toNat_lt
    have hrest : bytes.head? ≠ some 0 := by
      obtain _ | ⟨c, bytes⟩ := bytes
      · simp
      · simpa using hhead
    rw [beBytesAux, if_neg hpos, readBe_append]
    have hdiv : (readBe bytes * 256 + b.toNat) / 256 = readBe bytes := by omega
    have hmod : UInt8.ofNat (readBe bytes * 256 + b.toNat) = b := by
      apply UInt8.toNat_inj.1
      simp only [UInt8.toNat_ofNat']
      omega
    rw [hdiv, hmod, ih hrest fuel (by simpa using hfuel)]
    simp

theorem beBytes_readBe {bytes : Bytes} (hhead : bytes.head? ≠ some 0) (hlen : bytes.length ≤ 32) :
    beBytes (readBe bytes) = bytes := by
  simpa [beBytes] using beBytesAux_readBe bytes hhead 32 hlen []

theorem head_beBytesAux (fuel n : Nat) (acc : Bytes) (hacc : n = 0 → acc.head? ≠ some 0) (hn : n < 256 ^ fuel) :
    (beBytesAux fuel n acc).head? ≠ some 0 := by
  induction fuel generalizing n acc with
  | zero => exact hacc (by simpa using hn)
  | succ fuel ih =>
    unfold beBytesAux
    split
    · exact hacc ‹_›
    · refine ih _ _ (fun hdiv => ?_) (by rw [Nat.pow_succ] at hn; exact Nat.div_lt_of_lt_mul (by omega))
      simp only [List.head?_cons, ne_eq, Option.some.injEq]
      intro hzero
      have hmod := congrArg UInt8.toNat hzero
      simp only [UInt8.toNat_ofNat', UInt8.toNat_zero] at hmod
      omega

-- Only the empty string spells zero, so no other has a leading zero.
theorem head_beBytes {n : Nat} (hn : n < 2 ^ 256) : (beBytes n).head? ≠ some 0 :=
  head_beBytesAux 32 n [] (fun _ => by simp) (by simpa using hn)

theorem length_beBytes_pos {n : Nat} (hn : 0 < n) : 0 < (beBytes n).length := by
  unfold beBytes beBytesAux
  rw [if_neg (by omega)]
  exact length_beBytesAux 31 (n / 256) [UInt8.ofNat n]

theorem length_beBytes_le {n : Nat} (width : Nat) (hn : n < 256 ^ width) : (beBytes n).length ≤ width := by
  simpa [beBytes] using length_beBytesAux_le 32 n width [] hn

theorem length_beBytes {n : Nat} (hpos : 0 < n) (hn : n < 2 ^ 64) :
    0 < (beBytes n).length ∧ (beBytes n).length ≤ 8 :=
  ⟨length_beBytes_pos hpos, length_beBytes_le 8 (by simpa using hn)⟩

theorem length_header (short long len : Nat) : 0 < (header short long len).length := by
  unfold header
  split <;> simp

theorem length_encodeStr (bytes : Bytes) : 0 < (encodeStr bytes).length := by
  unfold encodeStr
  split
  · split <;> simp
  · have := length_header 0x80 0xb7 bytes.length
    simp only [length_append]
    omega

theorem length_le_encodeStr (bytes : Bytes) : bytes.length ≤ (encodeStr bytes).length := by
  unfold encodeStr
  split
  · split <;> simp
  · simp only [length_append]
    omega

theorem length_header_le (short long : Nat) {len : Nat} (hlen : len < 2 ^ 64) :
    (header short long len).length ≤ 9 := by
  unfold header
  split
  · simp
  · have h := length_beBytes (n := len) (by omega) hlen
    rw [length_cons]
    omega

theorem length_wrap (payload : Bytes) : payload.length < (wrap payload).length := by
  have := length_header 0xc0 0xf7 payload.length
  simp only [wrap, length_append]
  omega

theorem length_encode (x : Item) : 0 < (encode x).length := by
  cases x with
  | Str bytes => exact length_encodeStr bytes
  | Lst items =>
    have := length_wrap (encodeAll items)
    rw [encode]
    omega

-- Decoding an encoding.

theorem split_append (bytes rest : Bytes) (message : String) :
    split bytes.length (bytes ++ rest) message = .ok (bytes, rest) := by
  simp [split]

theorem toNat_ofNat {n : Nat} (hn : n < 256) : (UInt8.ofNat n).toNat = n := by
  simp only [UInt8.toNat_ofNat']
  omega

theorem decode_header_str (fuel : Nat) (bytes rest : Bytes) (hlen : bytes.length < 2 ^ 64) :
    decode (fuel + 1) (header 0x80 0xb7 bytes.length ++ bytes ++ rest) = .ok (.Str bytes, rest) := by
  unfold header
  split
  · next h =>
    have hn : (UInt8.ofNat (0x80 + bytes.length)).toNat = 0x80 + bytes.length := toNat_ofNat (by omega)
    simp only [cons_append, nil_append, decode, hn]
    rw [if_neg (by omega), if_pos (by omega), Nat.add_sub_cancel_left, split_append]
    rfl
  · next h =>
    have hbe := length_beBytes (n := bytes.length) (by omega) hlen
    have hn : (UInt8.ofNat (0xb7 + (beBytes bytes.length).length)).toNat =
        0xb7 + (beBytes bytes.length).length := toNat_ofNat (by omega)
    simp only [cons_append, append_assoc, decode, hn]
    rw [if_neg (by omega), if_neg (by omega), if_pos (by omega), Nat.add_sub_cancel_left, split_append]
    show (do
      let (body, rest) ← split (readBe (beBytes bytes.length)) (bytes ++ rest) _
      return (Item.Str body, rest)) = _
    rw [readBe_beBytes (Nat.lt_trans hlen (by decide)), split_append]
    rfl

theorem decode_encodeStr (fuel : Nat) (bytes rest : Bytes) (hlen : bytes.length < 2 ^ 64) :
    decode (fuel + 1) (encodeStr bytes ++ rest) = .ok (.Str bytes, rest) := by
  unfold encodeStr
  split
  · next b =>
    split
    · next hb => simp only [cons_append, nil_append, decode, if_pos hb]
    · exact decode_header_str fuel [b] rest hlen
  · exact decode_header_str fuel bytes rest hlen

theorem decode_wrap (fuel : Nat) (payload rest : Bytes) (hlen : payload.length < 2 ^ 64) :
    decode (fuel + 1) (wrap payload ++ rest) =
      (decodeItems fuel payload).map fun items => (.Lst items, rest) := by
  unfold wrap header
  split
  · next h =>
    have hn : (UInt8.ofNat (0xc0 + payload.length)).toNat = 0xc0 + payload.length :=
      toNat_ofNat (by omega)
    simp only [cons_append, nil_append, decode, hn]
    rw [if_neg (by omega), if_neg (by omega), if_neg (by omega), if_pos (by omega),
      Nat.add_sub_cancel_left, split_append]
    rfl
  · next h =>
    have hbe := length_beBytes (n := payload.length) (by omega) hlen
    have hn : (UInt8.ofNat (0xf7 + (beBytes payload.length).length)).toNat =
        0xf7 + (beBytes payload.length).length := toNat_ofNat (by omega)
    simp only [cons_append, append_assoc, decode, hn]
    rw [if_neg (by omega), if_neg (by omega), if_neg (by omega), if_neg (by omega),
      Nat.add_sub_cancel_left, split_append]
    show (do
      let (body, rest) ← split (readBe (beBytes payload.length)) (payload ++ rest) _
      let items ← decodeItems fuel body
      return (Item.Lst items, rest)) = _
    rw [readBe_beBytes (Nat.lt_trans hlen (by decide)), split_append]
    rfl

mutual
theorem decode_encode (x : Item) (rest : Bytes) (hlen : (encode x).length < 2 ^ 64) (fuel : Nat)
    (hfuel : 2 * (encode x).length ≤ fuel + 1) : decode fuel (encode x ++ rest) = .ok (x, rest) := by
  have hpos := length_encode x
  obtain ⟨fuel, rfl⟩ : ∃ n, fuel = n + 1 := ⟨fuel - 1, by omega⟩
  cases x with
  | Str bytes =>
    rw [encode] at hlen ⊢
    apply decode_encodeStr
    have := length_le_encodeStr bytes
    omega
  | Lst items =>
    rw [encode] at hlen hfuel ⊢
    have hwrap := length_wrap (encodeAll items)
    rw [decode_wrap _ _ _ (by omega), decodeItems_encodeAll items (by omega) fuel (by omega)]
    rfl

theorem decodeItems_encodeAll (xs : List Item) (hlen : (encodeAll xs).length < 2 ^ 64) (fuel : Nat)
    (hfuel : 2 * (encodeAll xs).length ≤ fuel) : decodeItems fuel (encodeAll xs) = .ok xs := by
  cases xs with
  | nil => simp [encodeAll, decodeItems]
  | cons x xs =>
    have hpos := length_encode x
    rw [encodeAll, length_append] at hlen hfuel
    obtain ⟨fuel, rfl⟩ : ∃ n, fuel = n + 1 := ⟨fuel - 1, by omega⟩
    have hne : encode x ++ encodeAll xs ≠ [] := by
      intro h
      rw [append_eq_nil_iff] at h
      simp [h.1] at hpos
    rw [encodeAll, decodeItems, decode_encode x _ (by omega) fuel (by omega)]
    · show (do
        let items ← decodeItems fuel (encodeAll xs)
        return x :: items) = _
      rw [decodeItems_encodeAll xs (by omega) fuel (by omega)]
      rfl
    · exact hne
end

theorem length_encodeStr_le (bytes : Bytes) (hlen : bytes.length < 2 ^ 64) :
    (encodeStr bytes).length ≤ bytes.length + 9 := by
  unfold encodeStr
  split
  · split
    · simp
    · have := length_header_le 0x80 0xb7 (show 1 < 2 ^ 64 by decide)
      simp only [length_append, length_singleton]
      omega
  · have := length_header_le 0x80 0xb7 hlen
    simp only [length_append]
    omega

theorem length_encodeAll_le (items : List Item) (size : Nat) (h : ∀ x ∈ items, (encode x).length ≤ size) :
    (encodeAll items).length ≤ items.length * size := by
  induction items with
  | nil => simp [encodeAll]
  | cons x rest ih =>
    have hx := h x (by simp)
    have hrest := ih fun y hy => h y (by simp [hy])
    rw [encodeAll, length_append, length_cons, Nat.succ_mul]
    omega

theorem length_encode_lst_le (items : List Item) (hlen : (encodeAll items).length < 2 ^ 64) :
    (encode (.Lst items)).length ≤ (encodeAll items).length + 9 := by
  have := length_header_le 0xc0 0xf7 hlen
  rw [encode, wrap, length_append]
  omega

theorem encodeAll_eq_flatten (items : List Item) : encodeAll items = (items.map encode).flatten := by
  induction items with
  | nil => rfl
  | cons x items ih => rw [encodeAll, ih, map_cons, flatten_cons]

theorem encode_injective {x y : Item} (hlen : (encode x).length < 2 ^ 64) (h : encode x = encode y) :
    x = y := by
  have hx := decode_encode x [] hlen (2 * (encode x).length) (by omega)
  have hy := decode_encode y [] (h ▸ hlen) (2 * (encode y).length) (by omega)
  rw [← h, hx] at hy
  exact congrArg Prod.fst (Except.ok.inj hy)

end Zeg.Base.Rlp
