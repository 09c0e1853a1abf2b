import Zeg.Base.Rlp
import Zeg.Digest

-- The guest's RLP writers, and its reader, which looks at one item at a time.
namespace Zeg.RlpCodec

open Base Base.Rlp List

-- Enough for every payload below 2^32 bytes.
def beLengthBytes (len : Nat) : Nat :=
  if len ≤ 0xff then 1 else if len ≤ 0xffff then 2 else if len ≤ 0xffffff then 3 else 4

def appendHeader (short long len : Nat) : Bytes :=
  if len ≤ 55 then [UInt8.ofNat (short + len)]
  else UInt8.ofNat (long + beLengthBytes len) :: bytesOf (beLengthBytes len) len

def encode (data : Bytes) : Bytes :=
  match data with
  | [b] => if b.toNat < 0x80 then [b] else appendHeader 0x80 0xb7 1 ++ [b]
  | data => appendHeader 0x80 0xb7 data.length ++ data

def encodeU64 (n : UInt64) : Bytes := encode (beBytes n.toNat)

def encodeU256 (w : Word) : Bytes := encode (beBytes w.toNat)

def encodeListPayload (payload : Bytes) : Bytes := appendHeader 0xc0 0xf7 payload.length ++ payload

def encodeList (items : List Bytes) : Bytes := encodeListPayload items.flatten

inductive ItemKind where
  | String
  | List
deriving DecidableEq, Inhabited

-- `raw` is the whole item, `payload` what its header announces.
structure Item where
  kind : ItemKind
  raw : Bytes
  payload : Bytes
deriving Inhabited

theorem Item.length_digest {item : Item} (h : item.kind = .String ∧ item.payload.length = 32) :
    item.payload.length = 32 := h.2

-- Strings and lists of 56 bytes and more; `rest` follows the first byte `b`.
def decodeLong (kind : ItemKind) (name : String) (lenOfLen : Nat) (b : UInt8) (rest : Bytes) :
    Except String Item :=
  if rest.length < lenOfLen then .error ("rlp::decode_item: long " ++ name ++ " length truncated")
  else if rest.headD 0 = 0 then .error ("rlp::decode_item: long " ++ name ++ " length has leading zero")
  else
    let len := readBe (rest.take lenOfLen)
    if len ≤ 55 then .error ("rlp::decode_item: non-canonical long " ++ name ++ " (fits short form)")
    else if rest.length - lenOfLen < len then .error ("rlp::decode_item: long " ++ name ++ " body truncated")
    else .ok ⟨kind, b :: rest.take (lenOfLen + len), (rest.drop lenOfLen).take len⟩

def decodeItem (data : Bytes) : Except String Item :=
  match data with
  | [] => .error "rlp::decode_item: empty input"
  | b :: rest =>
    let n := b.toNat
    if n < 0x80 then .ok ⟨.String, [b], [b]⟩
    else if n ≤ 0xb7 then
      if rest.length < n - 0x80 then .error "rlp::decode_item: short string truncated"
      else if n - 0x80 = 1 ∧ (rest.headD 0).toNat < 0x80 then
        .error "rlp::decode_item: non-canonical single byte (0x81 form)"
      else .ok ⟨.String, b :: rest.take (n - 0x80), rest.take (n - 0x80)⟩
    else if n ≤ 0xbf then decodeLong .String "string" (n - 0xb7) b rest
    else if n ≤ 0xf7 then
      if rest.length < n - 0xc0 then .error "rlp::decode_item: short list truncated"
      else .ok ⟨.List, b :: rest.take (n - 0xc0), rest.take (n - 0xc0)⟩
    else decodeLong .List "list" (n - 0xf7) b rest

-- ListIter::next; the bytes left over stand for the iterator.
def next (remaining : Bytes) : Except String (Item × Bytes) :=
  if remaining = [] then .error "rlp::ListIter::next: payload exhausted"
  else (decodeItem remaining).map fun item => (item, remaining.drop item.raw.length)

-- A `while (it.has_next())` loop. Every item takes a byte at least, so `fuel` is the payload's length.
def forItems {σ : Type} (body : σ → Item → Except String σ) : Nat → σ → Bytes → Except String σ
  | _, s, [] => .ok s
  | 0, _, _ :: _ => .error "out of fuel"
  | fuel + 1, s, b :: remaining => do
    let (item, rest) ← next (b :: remaining)
    forItems body fuel (← body s item) rest

def forPayload {σ : Type} (body : σ → Item → Except String σ) (s : σ) (payload : Bytes) : Except String σ :=
  forItems body payload.length s payload

-- The two scalar readers differ in their width and in their name.
def asInteger (name : String) (width : Nat) (item : Item) : Except String Nat :=
  if item.kind ≠ .String then .error ("rlp::" ++ name ++ ": expected RLP string")
  else if width < item.payload.length then
    .error ("rlp::" ++ name ++ ": payload > " ++ (if width = 8 then "8" else "32") ++ " bytes")
  else if item.payload ≠ [] ∧ item.payload.headD 0 = 0 then
    .error ("rlp::" ++ name ++ ": non-canonical integer (leading zero)")
  else .ok (readBe item.payload)

def asU64 (item : Item) : Except String UInt64 := (asInteger "as_u64" 8 item).map UInt64.ofNat

def asU256 (item : Item) : Except String Word := (asInteger "as_u256" 32 item).map (BitVec.ofNat 256)

-- What the reader accepts is what the canonical encoding writes.

def Item.Canonical (item : Item) : Prop :=
  item.payload.length < 2 ^ 64 ∧
    item.raw = match item.kind with
      | .String => encodeStr item.payload
      | .List => wrap item.payload

variable {name : String} {item : Item}

theorem decodeLong_ok {kind : ItemKind} {lenOfLen : Nat} {b : UInt8} {rest : Bytes} (hlen : lenOfLen ≤ 8)
    (h : decodeLong kind name lenOfLen b rest = .ok item) :
    55 < item.payload.length ∧ item.payload.length < 2 ^ 64 ∧ item.kind = kind ∧
      (beBytes item.payload.length).length = lenOfLen ∧
      item.raw = b :: (beBytes item.payload.length ++ item.payload) ∧
      b :: rest = item.raw ++ rest.drop (lenOfLen + item.payload.length) := by
  unfold decodeLong at h
  split at h
  · cases h
  · rename_i hsize
    split at h
    · cases h
    · rename_i hzero
      dsimp only at h
      split at h
      · cases h
      · rename_i hlong
        split at h
        · cases h
        · rename_i hbody
          cases h
          have hpayload : ((rest.drop lenOfLen).take (readBe (rest.take lenOfLen))).length =
              readBe (rest.take lenOfLen) := by
            rw [length_take, length_drop]
            omega
          have hdigits : (rest.take lenOfLen).length = lenOfLen := by
            rw [length_take]
            omega
          have hhead : (rest.take lenOfLen).head? ≠ some 0 := by
            intro hhead
            have hpos : lenOfLen ≠ 0 := by
              rintro rfl
              simp at hhead
            rw [List.head?_take, if_neg hpos] at hhead
            exact hzero (by rw [headD_eq_head?_getD, hhead]; rfl)
          have hbe := beBytes_readBe hhead (by omega)
          have hbound := readBe_lt (rest.take lenOfLen)
          rw [hdigits] at hbound
          have hpow : 256 ^ lenOfLen ≤ 256 ^ 8 := Nat.pow_le_pow_right (by omega) hlen
          simp only [hpayload, hbe]
          refine ⟨by omega, by omega, trivial, hdigits, ?_, ?_⟩
          · rw [take_add]
          · rw [cons_append, take_append_drop]

variable {len long short : Nat}

theorem header_short (hlen : len ≤ 55) (b : UInt8) (hb : b.toNat = short + len) :
    header short long len = [b] := by
  rw [header, if_pos hlen, ← hb]
  simp

theorem header_long (hlen : 55 < len) (b : UInt8) (hb : b.toNat = long + (beBytes len).length)
    : header short long len = b :: beBytes len := by
  rw [header, if_neg (by omega), ← hb]
  simp

theorem encodeStr_of_length {bytes : Bytes} (h : ∀ b, bytes = [b] → 0x80 ≤ b.toNat) :
    encodeStr bytes = header 0x80 0xb7 bytes.length ++ bytes := by
  unfold encodeStr
  split
  · rename_i b
    rw [if_neg (Nat.not_lt.2 (h b rfl))]
    rfl
  · rfl

theorem decodeItem_ok {data : Bytes} (h : decodeItem data = .ok item) :
    item.Canonical ∧ ∃ rest, data = item.raw ++ rest := by
  unfold decodeItem at h
  split at h
  · cases h
  · rename_i b rest
    have hb := b.toNat_lt
    dsimp only at h
    split at h
    · -- a byte that stands for itself
      rename_i hn
      cases h
      exact ⟨⟨by simp, by simp [encodeStr, hn]⟩, rest, rfl⟩
    · split at h
      · -- a short string
        rename_i hlow hn
        split at h
        · cases h
        · rename_i hsize
          split at h
          · cases h
          · rename_i hsingle
            cases h
            have hlen : (rest.take (b.toNat - 0x80)).length = b.toNat - 0x80 := by
              rw [length_take]
              omega
            refine ⟨⟨by dsimp only; omega, ?_⟩, rest.drop (b.toNat - 0x80), ?_⟩
            · dsimp only
              rw [encodeStr_of_length, hlen, header_short (by omega) b (by omega)]
              · rw [singleton_append]
              · intro c hc
                have hone : b.toNat - 0x80 = 1 := by rw [← hlen, hc]; rfl
                have hhead : rest.headD 0 = c := by
                  obtain _ | ⟨d, rest⟩ := rest
                  · simp at hc
                  · rw [hone] at hc
                    simpa using hc
                rw [hone, hhead] at hsingle
                omega
            · rw [cons_append, take_append_drop]
      · split at h
        · -- a long string
          rename_i hlow hn
          obtain ⟨hlong, hbound, hkind, hdigits, hraw, hdata⟩ := decodeLong_ok (by omega) h
          refine ⟨⟨hbound, ?_⟩, _, hdata⟩
          rw [hkind, hraw]
          dsimp only
          rw [encodeStr_of_length, header_long hlong b (by omega)]
          · rfl
          · intro c hc
            rw [hc] at hlong
            simp at hlong
        · split at h
          · -- a short list
            rename_i hlow hn
            split at h
            · cases h
            · rename_i hsize
              cases h
              have hlen : (rest.take (b.toNat - 0xc0)).length = b.toNat - 0xc0 := by
                rw [length_take]
                omega
              refine ⟨⟨by dsimp only; omega, ?_⟩, rest.drop (b.toNat - 0xc0), ?_⟩
              · dsimp only
                rw [wrap, hlen, header_short (by omega) b (by omega), singleton_append]
              · rw [cons_append, take_append_drop]
          · -- a long list
            rename_i hlow
            obtain ⟨hlong, hbound, hkind, hdigits, hraw, hdata⟩ := decodeLong_ok (by omega) h
            refine ⟨⟨hbound, ?_⟩, _, hdata⟩
            rw [hkind, hraw]
            dsimp only
            rw [wrap, header_long hlong b (by omega)]
            rfl

variable {payload : Bytes}

theorem decodeLong_append {kind : ItemKind} {b : UInt8} (rest : Bytes) (hlong : 55 < payload.length)
    (hbound : payload.length < 2 ^ 64) :
    decodeLong kind name (beBytes payload.length).length b (beBytes payload.length ++ payload ++ rest) =
      .ok ⟨kind, b :: (beBytes payload.length ++ payload), payload⟩ := by
  have hbe := length_beBytes (n := payload.length) (by omega) hbound
  have hread : readBe (beBytes payload.length) = payload.length := readBe_beBytes (by omega)
  have hhead : (beBytes payload.length ++ payload ++ rest).headD 0 ≠ 0 := by
    obtain ⟨c, digits, hdigits⟩ := exists_cons_of_length_pos hbe.1
    have hhead := head_beBytes (n := payload.length) (by omega)
    rw [hdigits] at hhead ⊢
    simpa using hhead
  unfold decodeLong
  simp only [append_assoc, length_append] at hhead ⊢
  rw [if_neg (by omega), if_neg hhead, take_left, hread, if_neg (by omega), if_neg (by omega),
    drop_left, take_left, ← append_assoc, ← length_append, take_left]

theorem decodeItem_header_str (rest : Bytes) (hbound : payload.length < 2 ^ 64)
    (hsingle : ∀ b, payload = [b] → 0x80 ≤ b.toNat) :
    decodeItem (header 0x80 0xb7 payload.length ++ payload ++ rest) =
      .ok ⟨.String, header 0x80 0xb7 payload.length ++ payload, payload⟩ := by
  unfold header
  split
  · rename_i hlen
    have hn : (UInt8.ofNat (0x80 + payload.length)).toNat = 0x80 + payload.length := toNat_ofNat (by omega)
    simp only [cons_append, nil_append, decodeItem, hn, Nat.add_sub_cancel_left]
    rw [if_neg (by omega), if_pos (by omega), if_neg (by simp), if_neg, take_left]
    rintro ⟨hone, hhead⟩
    obtain ⟨b, hb⟩ := length_eq_one_iff.1 hone
    have := hsingle b hb
    rw [hb] at hhead
    simp at hhead
    omega
  · rename_i hlen
    have hbe := length_beBytes (n := payload.length) (by omega) hbound
    have hn : (UInt8.ofNat (0xb7 + (beBytes payload.length).length)).toNat =
        0xb7 + (beBytes payload.length).length := toNat_ofNat (by omega)
    simp only [cons_append, decodeItem, hn, Nat.add_sub_cancel_left]
    rw [if_neg (by omega), if_neg (by omega), if_pos (by omega)]
    exact decodeLong_append rest (by omega) hbound

theorem decodeItem_append (h : item.Canonical) (rest : Bytes) :
    decodeItem (item.raw ++ rest) = .ok item := by
  obtain ⟨kind, raw, payload⟩ := item
  obtain ⟨hbound, hraw⟩ := h
  dsimp only at hbound hraw
  subst hraw
  cases kind with
  | String =>
    dsimp only
    by_cases hbyte : ∃ b, payload = [b] ∧ b.toNat < 0x80
    · obtain ⟨b, rfl, hb⟩ := hbyte
      simp [encodeStr, hb, decodeItem]
    · have hsingle : ∀ b, payload = [b] → 0x80 ≤ b.toNat := fun b hb => by
        by_contra hlt
        exact hbyte ⟨b, hb, by omega⟩
      rw [encodeStr_of_length hsingle]
      exact decodeItem_header_str rest hbound hsingle
  | List =>
    dsimp only [wrap]
    unfold header
    split
    · rename_i hlen
      have hn : (UInt8.ofNat (0xc0 + payload.length)).toNat = 0xc0 + payload.length := toNat_ofNat (by omega)
      simp only [cons_append, nil_append, decodeItem, hn, Nat.add_sub_cancel_left]
      rw [if_neg (by omega), if_neg (by omega), if_neg (by omega), if_pos (by omega), if_neg (by simp),
        take_left]
    · rename_i hlen
      have hbe := length_beBytes (n := payload.length) (by omega) hbound
      have hn : (UInt8.ofNat (0xf7 + (beBytes payload.length).length)).toNat =
          0xf7 + (beBytes payload.length).length := toNat_ofNat (by omega)
      simp only [cons_append, decodeItem, hn, Nat.add_sub_cancel_left]
      rw [if_neg (by omega), if_neg (by omega), if_neg (by omega), if_neg (by omega)]
      exact decodeLong_append rest (by omega) hbound

theorem Item.Canonical.raw_pos (h : item.Canonical) : 0 < item.raw.length := by
  rw [h.2]
  cases item.kind with
  | String => exact length_encodeStr item.payload
  | List =>
    have := length_wrap item.payload
    dsimp only
    omega

theorem next_ok {remaining rest : Bytes} (h : next remaining = .ok (item, rest)) :
    item.Canonical ∧ remaining = item.raw ++ rest := by
  unfold next at h
  split at h
  · cases h
  · obtain ⟨item', hitem, heq⟩ := map_eq_ok.1 h
    cases heq
    obtain ⟨hcanonical, rest, hrest⟩ := decodeItem_ok hitem
    refine ⟨hcanonical, ?_⟩
    rw [hrest, drop_left]

theorem next_append (h : item.Canonical) (rest : Bytes) :
    next (item.raw ++ rest) = .ok (item, rest) := by
  have hne : item.raw ++ rest ≠ [] := by
    intro hnil
    have := h.raw_pos
    rw [(append_eq_nil_iff.1 hnil).1] at this
    simp at this
  rw [next, if_neg hne, decodeItem_append h]
  simp [Except.map]

theorem items_injective {xs ys : List Item} (hxs : ∀ x ∈ xs, x.Canonical) (hys : ∀ y ∈ ys, y.Canonical)
    (h : xs.flatMap Item.raw = ys.flatMap Item.raw) : xs = ys := by
  induction xs generalizing ys with
  | nil =>
    obtain _ | ⟨y, ys⟩ := ys
    · rfl
    · have hpos := (hys y (by simp)).raw_pos
      have hlen := congrArg List.length h
      rw [flatMap_cons, length_append, flatMap_nil, length_nil] at hlen
      omega
  | cons x xs ih =>
    obtain _ | ⟨y, ys⟩ := ys
    · have hpos := (hxs x (by simp)).raw_pos
      have hlen := congrArg List.length h
      rw [flatMap_cons, length_append, flatMap_nil, length_nil] at hlen
      omega
    · rw [flatMap_cons, flatMap_cons] at h
      have hx := next_append (hxs x (by simp)) (xs.flatMap Item.raw)
      rw [h, next_append (hys y (by simp))] at hx
      obtain ⟨rfl, hrest⟩ := Prod.mk.inj (Except.ok.inj hx)
      rw [ih (fun x hx => hxs x (by simp [hx])) (fun y hy => hys y (by simp [hy])) hrest.symm]

theorem asInteger_ok {width n : Nat} (hwidth : width ≤ 32) (h : asInteger name width item = .ok n) :
    item.kind = .String ∧ item.payload = beBytes n ∧ n < 256 ^ width := by
  unfold asInteger at h
  split at h
  · cases h
  · rename_i hkind
    split at h
    · cases h
    · rename_i hlen
      split at h
      · cases h
      · rename_i hhead
        cases h
        have hlead : item.payload.head? ≠ some 0 := by
          intro hzero
          refine hhead ⟨fun hnil => by simp [hnil] at hzero, ?_⟩
          rw [headD_eq_head?_getD, hzero]
          rfl
        have hbound := readBe_lt item.payload
        have hpow : 256 ^ item.payload.length ≤ 256 ^ width := Nat.pow_le_pow_right (by omega) (by omega)
        exact ⟨not_not.1 hkind, (beBytes_readBe hlead (by omega)).symm, by omega⟩

theorem asU64_ok {n : UInt64} (h : asU64 item = .ok n) :
    item.kind = .String ∧ item.payload = beBytes n.toNat := by
  obtain ⟨k, hk, rfl⟩ := map_eq_ok.1 h
  obtain ⟨hkind, hpayload, hbound⟩ := asInteger_ok (by omega) hk
  refine ⟨hkind, ?_⟩
  rw [UInt64.toNat_ofNat', Nat.mod_eq_of_lt (by simpa using hbound)]
  exact hpayload

theorem asU256_ok {w : Word} (h : asU256 item = .ok w) :
    item.kind = .String ∧ item.payload = beBytes w.toNat := by
  obtain ⟨k, hk, rfl⟩ := map_eq_ok.1 h
  obtain ⟨hkind, hpayload, hbound⟩ := asInteger_ok (by omega) hk
  refine ⟨hkind, ?_⟩
  rw [BitVec.toNat_ofNat, Nat.mod_eq_of_lt (by simpa using hbound)]
  exact hpayload

theorem bytesOf_beLengthBytes (hpos : 0 < len) (hlen : len < 2 ^ 32) :
    bytesOf (beLengthBytes len) len = beBytes len := by
  unfold beLengthBytes beBytes
  split
  · rw [beBytesAux, if_neg (by omega), beBytesAux, if_pos (by omega)]
    simp [bytesOf]
  · split
    · rw [beBytesAux, if_neg (by omega), beBytesAux, if_neg (by omega), beBytesAux, if_pos (by omega)]
      simp [bytesOf, range_succ]
    · split
      · rw [beBytesAux, if_neg (by omega), beBytesAux, if_neg (by omega), beBytesAux, if_neg (by omega),
          beBytesAux, if_pos (by omega)]
        simp [bytesOf, range_succ, Nat.div_div_eq_div_mul]
      · rw [beBytesAux, if_neg (by omega), beBytesAux, if_neg (by omega), beBytesAux, if_neg (by omega),
          beBytesAux, if_neg (by omega), beBytesAux, if_pos (by omega)]
        simp [bytesOf, range_succ, Nat.div_div_eq_div_mul]

theorem appendHeader_eq (hlen : len < 2 ^ 32) :
    appendHeader short long len = header short long len := by
  unfold appendHeader header
  split
  · rfl
  · have hbytes : bytesOf (beLengthBytes len) len = beBytes len := bytesOf_beLengthBytes (by omega) hlen
    have hcount : (beBytes len).length = beLengthBytes len := by rw [← hbytes]; simp [bytesOf]
    rw [hbytes, hcount]

theorem encode_eq {data : Bytes} (hlen : data.length < 2 ^ 32) : encode data = encodeStr data := by
  have hheader : appendHeader 0x80 0xb7 data.length = header 0x80 0xb7 data.length := appendHeader_eq hlen
  obtain _ | ⟨b, _ | ⟨c, rest⟩⟩ := data
  · exact congrArg (· ++ _) hheader
  · simp only [encode, encodeStr]
    exact congrArg (fun h => if b.toNat < 0x80 then [b] else h ++ [b]) hheader
  · exact congrArg (· ++ _) hheader

theorem encodeListPayload_eq (hlen : payload.length < 2 ^ 32) :
    encodeListPayload payload = wrap payload := by
  rw [encodeListPayload, appendHeader_eq hlen, wrap]

theorem length_beBytes_word (w : Word) : (beBytes w.toNat).length ≤ 32 :=
  length_beBytes_le 32 (by simpa using w.isLt)

theorem length_beBytes_u64 (n : UInt64) : (beBytes n.toNat).length ≤ 8 :=
  length_beBytes_le 8 (by simpa using n.toNat_lt)

theorem beBytes_u64_injective {m n : UInt64} (h : beBytes m.toNat = beBytes n.toNat) : m = n := by
  have hlt (k : UInt64) : k.toNat < 2 ^ 256 := Nat.lt_trans k.toNat_lt (by decide)
  exact UInt64.toNat_inj.1 (beBytes_injective (hlt m) (hlt n) h)

theorem beBytes_word_injective {v w : Word} (h : beBytes v.toNat = beBytes w.toNat) : v = w :=
  BitVec.eq_of_toNat_eq (beBytes_injective v.isLt w.isLt h)

theorem encodeU64_eq (n : UInt64) : encodeU64 n = Rlp.encode (.Str (beBytes n.toNat)) := by
  have := length_beBytes_u64 n
  rw [encodeU64, encode_eq (by omega), Rlp.encode]

theorem encodeList_eq {items : List Rlp.Item} (hsize : (Rlp.encode (.Lst items)).length ≤ 2 ^ 32) :
    encodeList (items.map Rlp.encode) = Rlp.encode (.Lst items) := by
  rw [Rlp.encode] at hsize ⊢
  have hpayload := length_wrap (encodeAll items)
  rw [encodeList, ← encodeAll_eq_flatten, encodeListPayload_eq (by omega)]

theorem encodeList_strings {strings : List Bytes} (hsize : (Rlp.encode (.Lst (strings.map .Str))).length ≤ 2 ^ 32)
    (hstrings : ∀ s ∈ strings, s.length < 2 ^ 32) :
    encodeList (strings.map encode) = Rlp.encode (.Lst (strings.map .Str)) := by
  rw [← encodeList_eq hsize, map_map]
  exact congrArg encodeList (map_congr_left fun s hs => by rw [encode_eq (hstrings s hs), Function.comp, Rlp.encode])

theorem length_strings_le {strings : List Bytes} {size : Nat} (hsize : strings.length * (size + 9) < 2 ^ 64)
    (hstrings : ∀ s ∈ strings, s.length ≤ size) :
    (Rlp.encode (.Lst (strings.map .Str))).length ≤ strings.length * (size + 9) + 9 := by
  have hall := length_encodeAll_le (strings.map .Str) (size + 9) (by
    intro x hx
    obtain ⟨s, hs, rfl⟩ := mem_map.1 hx
    have hpos : 1 * (size + 9) ≤ strings.length * (size + 9) := Nat.mul_le_mul_right _ (length_pos_of_mem hs)
    have hle := hstrings s hs
    have := length_encodeStr_le s (by omega)
    rw [Rlp.encode]
    omega)
  rw [length_map] at hall
  have := length_encode_lst_le (strings.map .Str) (by omega)
  omega

end Zeg.RlpCodec
