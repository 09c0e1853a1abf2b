import Zeg.AccessList.Canonical
import Zeg.RlpCodec.Depth

-- The writers that allocate, those that write into a buffer, and the reader of them all.
namespace Zeg.RlpCodec

open Base Base.Rlp Base.BigEndian List
open AccessList.Encoder (makeHeader makeHeader_eq headerRoom itemSize itemSize_eq writeString writeString_eq writeU64
  writeU64_eq u256SignificantStart drop_significantStart drop_significant_u64 length_header_eq length_header_le_five
  encodeStr_of_not encodeStr_of_short)

-- A nested item through encode and encode_list.
mutual
def write : Rlp.Item → Bytes
  | .Str bytes => encode bytes
  | .Lst items => encodeList (writeAll items)

def writeAll : List Rlp.Item → List Bytes
  | [] => []
  | x :: xs => write x :: writeAll xs
end

mutual
theorem write_eq (x : Rlp.Item) (hlen : (Rlp.encode x).length < 2 ^ 32) : write x = Rlp.encode x := by
  cases x with
  | Str bytes =>
    rw [Rlp.encode] at hlen ⊢
    rw [write, encode_eq (Nat.lt_of_le_of_lt (length_le_encodeStr bytes) hlen)]
  | Lst items =>
    have hall : (encodeAll items).length < 2 ^ 32 := by
      rw [Rlp.encode] at hlen
      exact Nat.lt_trans (length_wrap _) hlen
    rw [write, writeAll_eq items hall, encodeList_eq (Nat.le_of_lt hlen)]

theorem writeAll_eq (items : List Rlp.Item) (hlen : (encodeAll items).length < 2 ^ 32) :
    writeAll items = items.map Rlp.encode := by
  cases items with
  | nil => rw [writeAll, map_nil]
  | cons x items =>
    rw [encodeAll, length_append] at hlen
    rw [writeAll, write_eq x (by omega), writeAll_eq items (by omega), map_cons]
end

-- Integers

theorem encodeU64_source (v : UInt64) :
    encodeU64 v = encode ((spread 8 v.toNat).drop (if v ≠ 0 then clz v.toNat >>> 3 else 8)) := by
  rw [encodeU64, drop_significant_u64]

theorem encodeU256_source (v : Bytes32) :
    encodeU256 (Word.ofBytes v.toList) = encode (v.toList.drop (u256SignificantStart v)) := by
  have hlt : readBe v.toList < 2 ^ 256 := by
    have h := readBe_lt v.toList
    rwa [v.toList_length] at h
  rw [encodeU256, drop_significantStart, toNat_ofBytes, Nat.mod_eq_of_lt hlt]

theorem encodeU256_eq (w : Word) : encodeU256 w = Rlp.encode (.Str (beBytes w.toNat)) := by
  have := length_beBytes_word w
  rw [encodeU256, encode_eq (by omega), Rlp.encode]

theorem Item.Canonical.eq_of_raw {x y : Item} (hx : x.Canonical) (hy : y.Canonical) (h : x.raw = y.raw) : x = y := by
  have hread := decodeItem_append hx []
  rw [h, decodeItem_append hy []] at hread
  exact (Except.ok.inj hread).symm

variable {item : Item}

theorem asInteger_iff {name : String} {width n : Nat} (hwidth : width ≤ 32) (hitem : item.Canonical) :
    asInteger name width item = .ok n ↔ n < 256 ^ width ∧ item.raw = encodeStr (beBytes n) := by
  constructor
  · intro h
    obtain ⟨hkind, hpayload, hbound⟩ := asInteger_ok hwidth h
    have hraw := hitem.2
    rw [hkind, hpayload] at hraw
    exact ⟨hbound, hraw⟩
  · rintro ⟨hbound, hraw⟩
    have hpow : 256 ^ width ≤ 256 ^ 32 := Nat.pow_le_pow_right (by decide) hwidth
    have hlen := length_beBytes_le width hbound
    have hfront : (frontItem (.Str (beBytes n))).Canonical := by
      refine ⟨?_, rfl⟩
      show (beBytes n).length < 2 ^ 64
      omega
    rw [hitem.eq_of_raw hfront hraw, asInteger]
    have hhead : ¬(beBytes n ≠ [] ∧ (beBytes n).headD 0 = 0) := by
      rintro ⟨hne, hzero⟩
      obtain ⟨b, rest, hcons⟩ := exists_cons_of_ne_nil hne
      have h := @head_beBytes n (by omega)
      rw [hcons] at h hzero
      exact h (congrArg some hzero)
    show (if width < (beBytes n).length then _ else if beBytes n ≠ [] ∧ (beBytes n).headD 0 = 0 then _ else
      Except.ok (readBe (beBytes n))) = _
    rw [if_neg (by omega), if_neg hhead, readBe_beBytes (by omega)]

theorem asU64_iff (hitem : item.Canonical) (n : UInt64) : asU64 item = .ok n ↔ item.raw = encodeU64 n := by
  rw [encodeU64_eq, Rlp.encode, asU64, map_eq_ok]
  constructor
  · rintro ⟨k, hk, rfl⟩
    obtain ⟨hbound, hraw⟩ := (asInteger_iff (by decide) hitem).1 hk
    rwa [UInt64.toNat_ofNat', Nat.mod_eq_of_lt (show k < 2 ^ 64 from hbound)]
  · intro hraw
    exact ⟨n.toNat, (asInteger_iff (by decide) hitem).2 ⟨n.toNat_lt, hraw⟩, UInt64.ofNat_toNat⟩

theorem asU256_iff (hitem : item.Canonical) (w : Word) : asU256 item = .ok w ↔ item.raw = encodeU256 w := by
  rw [encodeU256_eq, Rlp.encode, asU256, map_eq_ok]
  constructor
  · rintro ⟨k, hk, rfl⟩
    obtain ⟨hbound, hraw⟩ := (asInteger_iff (by decide) hitem).1 hk
    rwa [BitVec.toNat_ofNat, Nat.mod_eq_of_lt (show k < 2 ^ 256 from hbound)]
  · intro hraw
    exact ⟨w.toNat, (asInteger_iff (by decide) hitem).2 ⟨w.isLt, hraw⟩, BitVec.eq_of_toNat_eq (by
      rw [BitVec.toNat_ofNat, Nat.mod_eq_of_lt w.isLt])⟩

-- Writing into a buffer

def writeU256 (v : Bytes32) : Except String Bytes := writeString (v.toList.drop (u256SignificantStart v))

-- make_header into a local hdr[5]
def headerInto (short long payloadLen : Nat) : Except String Bytes :=
  if headerRoom < (makeHeader short long payloadLen).length then .error "write past the end of hdr[5]"
  else .ok (makeHeader short long payloadLen)

-- The header goes just below `start`; returned are the buffer and its new start.
def prepend (short long : Nat) (buf : Bytes) (start stop : Nat) : Except String (Bytes × Nat) :=
  (if stop - start ≤ 55 then .ok [UInt8.ofNat (short + (stop - start))]
    else headerInto short long (stop - start)).bind fun hdr =>
  if start < hdr.length then .error "write before the buffer"
  else .ok (buf.take (start - hdr.length) ++ hdr ++ buf.drop start, start - hdr.length)

def prependList (buf : Bytes) (start stop : Nat) : Except String (Bytes × Nat) := prepend 0xc0 0xf7 buf start stop

def prependString (buf : Bytes) (start stop : Nat) : Except String (Bytes × Nat) :=
  if stop - start = 1 ∧ buf.getD start 0 < 0x80 then .ok (buf, start) else prepend 0x80 0xb7 buf start stop

def window (buf : Bytes) (start stop : Nat) : Bytes := (buf.take stop).drop start

variable {buf : Bytes} {start stop : Nat}

theorem length_window (hstop : stop ≤ buf.length) :
    (window buf start stop).length = stop - start := by
  rw [window, length_drop, length_take]
  omega

-- An item that ends at `stop`, in a buffer that is otherwise as it was.
structure Placed (buf : Bytes) (stop : Nat) (bytes : Bytes) (out : Bytes × Nat) : Prop where
  starts : out.2 + bytes.length = stop
  holds : window out.1 out.2 stop = bytes
  below : out.1.take out.2 = buf.take out.2
  above : out.1.drop stop = buf.drop stop

theorem headerInto_eq {short long len : Nat} (hlen : len < 2 ^ 32) :
    headerInto short long len = .ok (header short long len) := by
  have hfive := length_header_le_five short long hlen
  rw [headerInto, makeHeader_eq _ _ (by omega)]
  exact if_neg (by rw [headerRoom]; omega)

theorem placed_header {hdr : Bytes} (hle : start ≤ stop) (hstop : stop ≤ buf.length) (hroom : hdr.length ≤ start) :
    Placed buf stop (hdr ++ window buf start stop)
      (buf.take (start - hdr.length) ++ hdr ++ buf.drop start, start - hdr.length) := by
  have hwindow := @length_window buf start stop hstop
  have hbelow : (buf.take (start - hdr.length)).length = start - hdr.length := by
    rw [length_take]
    omega
  have hfront : (buf.take (start - hdr.length) ++ hdr).length = start := by
    rw [length_append, hbelow]
    omega
  have hsplit : stop - (start - hdr.length) = hdr.length + (stop - start) := by omega
  constructor
  · rw [length_append, hwindow]
    dsimp only
    omega
  · show ((buf.take (start - hdr.length) ++ hdr ++ buf.drop start).take stop).drop (start - hdr.length) = _
    rw [drop_take, append_assoc, drop_left' hbelow, hsplit, take_length_add_append, window,
      drop_take]
  · show (buf.take (start - hdr.length) ++ hdr ++ buf.drop start).take (start - hdr.length) = _
    rw [append_assoc, take_left' hbelow]
  · show (buf.take (start - hdr.length) ++ hdr ++ buf.drop start).drop stop = _
    rw [drop_append, hfront, drop_eq_nil_of_le (by omega), nil_append, drop_drop,
      Nat.add_sub_cancel' hle]

theorem prepend_placed {short long : Nat} (hle : start ≤ stop) (hstop : stop ≤ buf.length)
    (hlen : stop - start < 2 ^ 32) (hroom : (header short long (stop - start)).length ≤ start) :
    ∃ out, prepend short long buf start stop = .ok out ∧
      Placed buf stop (header short long (stop - start) ++ window buf start stop) out := by
  have hheader : (if stop - start ≤ 55 then .ok [UInt8.ofNat (short + (stop - start))]
      else headerInto short long (stop - start) : Except String Bytes) = .ok (header short long (stop - start)) := by
    by_cases hshort : stop - start ≤ 55
    · rw [if_pos hshort, header, if_pos hshort]
    · rw [if_neg hshort, headerInto_eq hlen]
  refine ⟨_, ?_, placed_header hle hstop hroom⟩
  rw [prepend, hheader]
  exact if_neg (Nat.not_lt.2 hroom)

theorem prependList_placed (hle : start ≤ stop) (hstop : stop ≤ buf.length) (hlen : stop - start < 2 ^ 32)
    (hroom : (encodeListPayload (window buf start stop)).length ≤ stop) :
    ∃ out, prependList buf start stop = .ok out ∧
      Placed buf stop (encodeListPayload (window buf start stop)) out := by
  have hwindow := @length_window buf start stop hstop
  rw [encodeListPayload_eq (by omega), wrap, hwindow] at hroom ⊢
  rw [length_append, hwindow] at hroom
  exact prepend_placed hle hstop hlen (by omega)

theorem prependString_placed (hle : start ≤ stop) (hstop : stop ≤ buf.length) (hlen : stop - start < 2 ^ 32)
    (hroom : (encode (window buf start stop)).length ≤ stop) :
    ∃ out, prependString buf start stop = .ok out ∧ Placed buf stop (encode (window buf start stop)) out := by
  have hwindow := @length_window buf start stop hstop
  have hhead : stop - start = 1 → (window buf start stop).headD 0 = buf.getD start 0 := by
    intro hone
    rw [window, headD_eq_head?_getD, List.head?_drop, List.getElem?_take, if_pos (by omega),
      getD_eq_getElem?_getD]
  rw [encode_eq (by omega)] at hroom ⊢
  by_cases hbare : stop - start = 1 ∧ buf.getD start 0 < 0x80
  · -- the byte stays as it is
    rw [prependString, if_pos hbare, encodeStr_of_short ⟨by omega, by rw [hhead hbare.1]; exact hbare.2⟩]
    exact ⟨_, rfl, ⟨by dsimp only; omega, rfl, rfl, rfl⟩⟩
  · have hnot : ¬((window buf start stop).length = 1 ∧ (window buf start stop).headD 0 < 0x80) := by
      rintro ⟨hone, hlow⟩
      rw [hwindow] at hone
      exact hbare ⟨hone, by rw [← hhead hone]; exact hlow⟩
    rw [prependString, if_neg hbare]
    rw [encodeStr_of_not hnot, hwindow] at hroom ⊢
    rw [length_append, hwindow] at hroom
    exact prepend_placed hle hstop hlen (by omega)

-- The whole codec

-- Reading in depth accepts the canonical encodings and nothing else, and loses no byte of them.
structure ReadsCanonical (data : Bytes) : Prop where
  accepts : (∃ v, visit data = .ok v) ↔ ∃ x rest, data = Rlp.encode x ++ rest
  keeps : ∀ v, visit data = .ok v → v.Partitions ∧ write v.value = v.item.raw ∧ ∃ rest, data = v.item.raw ++ rest

theorem readsCanonical {data : Bytes} (hlen : data.length < 2 ^ 32) : ReadsCanonical data := by
  constructor
  · constructor
    · rintro ⟨v, hv⟩
      obtain ⟨_, _, hencode, rest, hrest⟩ := visit_ok hv
      exact ⟨v.value, rest, by rw [hencode, hrest]⟩
    · rintro ⟨x, rest, rfl⟩
      rw [length_append] at hlen
      obtain ⟨v, hv, _⟩ := @visit_encode x (by omega) rest
      exact ⟨v, hv⟩
  · intro v hv
    obtain ⟨_, hparts, hencode, rest, hrest⟩ := visit_ok hv
    rw [hrest, length_append] at hlen
    refine ⟨hparts, ?_, rest, hrest⟩
    rw [write_eq _ (by rw [hencode]; omega), hencode]

-- The helpers that write a payload, or say how long it gets.
structure WritesSame (payload : Bytes) : Prop where
  header : ∀ short long, makeHeader short long payload.length = appendHeader short long payload.length
  listSize : itemSize payload.length = .ok (encodeListPayload payload).length
  stringSize : ¬(payload.length = 1 ∧ payload.headD 0 < 0x80) → itemSize payload.length = .ok (encode payload).length
  string : writeString payload = .ok (encode payload)

theorem writesSame {payload : Bytes} (hlen : payload.length < 2 ^ 32) : WritesSame payload := by
  constructor
  · intro short long
    rw [makeHeader_eq _ _ (by omega), appendHeader_eq hlen]
  · rw [itemSize_eq hlen, encodeListPayload_eq hlen]
  · intro hnot
    rw [itemSize_eq hlen, encode_eq hlen, encodeStr_of_not hnot, wrap, length_append, length_append,
      length_header_eq 0xc0 0xf7 0x80 0xb7]
  · rw [writeString_eq hlen, encode_eq hlen]

-- The size of a string counts a header, also for the one byte that is written without.
theorem itemSize_bareByte : itemSize [(0x05 : UInt8)].length = .ok 2 ∧ (encode [0x05]).length = 1 := by decide

theorem codec_canonical :
    (∀ data : Bytes, data.length < 2 ^ 32 → ReadsCanonical data) ∧
      (∀ x rest, (Rlp.encode x).length < 2 ^ 32 →
        ∃ v, visit (write x ++ rest) = .ok v ∧ v.value = x ∧ v.item.raw = write x) ∧
      (∀ data item, decodeItem data = .ok item →
        (∀ n, asU64 item = .ok n ↔ item.raw = encodeU64 n) ∧ ∀ w, asU256 item = .ok w ↔ item.raw = encodeU256 w) ∧
      (∀ payload : Bytes, payload.length < 2 ^ 32 → WritesSame payload) ∧
      (∀ v, writeU64 v = .ok (encodeU64 v)) ∧
      (∀ v : Bytes32, writeU256 v = .ok (encodeU256 (Word.ofBytes v.toList))) ∧
      ∀ buf start stop, start ≤ stop → stop ≤ buf.length → stop - start < 2 ^ 32 →
        ((encodeListPayload (window buf start stop)).length ≤ stop → ∃ out, prependList buf start stop = .ok out ∧
          Placed buf stop (encodeListPayload (window buf start stop)) out) ∧
        ((encode (window buf start stop)).length ≤ stop → ∃ out, prependString buf start stop = .ok out ∧
          Placed buf stop (encode (window buf start stop)) out) := by
  refine ⟨fun data => readsCanonical, ?_, ?_, fun payload => writesSame, ?_, ?_, ?_⟩
  · intro x rest hlen
    rw [write_eq x hlen]
    exact visit_encode (by omega) rest
  · intro data item hitem
    obtain ⟨hcanonical, _⟩ := decodeItem_ok hitem
    exact ⟨asU64_iff hcanonical, asU256_iff hcanonical⟩
  · intro v
    rw [writeU64_eq, encodeU64_eq, Rlp.encode]
  · intro v
    have hlen : (v.toList.drop (u256SignificantStart v)).length ≤ 32 := by
      rw [List.length_drop, v.toList_length]
      omega
    rw [writeU256, encodeU256_source, writeString_eq (by omega), encode_eq (by omega)]
  · intro buf start stop hle hstop hlen
    exact ⟨prependList_placed hle hstop hlen, prependString_placed hle hstop hlen⟩

-- A list in a list, behind it a byte that is not read; and a list header in front of two bytes.
theorem codec_canonical_nested : (∃ v, visit [0xc2, 0xc1, 0x05, 0x07] = .ok v) ∧
    ∃ out, prependList [0, 0, 0, 1, 2] 3 5 = .ok out ∧ Placed [0, 0, 0, 1, 2] 5 [0xc2, 1, 2] out := by
  obtain ⟨hread, _, _, _, _, _, hprepend⟩ := codec_canonical
  refine ⟨(hread _ (by decide)).accepts.2 ⟨.Lst [.Lst [.Str [0x05]]], [0x07], ?_⟩, ?_⟩
  · simp only [Rlp.encode, encodeAll]
    decide
  · exact (hprepend [0, 0, 0, 1, 2] 3 5 (by decide) (by decide) (by decide)).1 (by decide)

end Zeg.RlpCodec
