import Zeg.AccessList.Encode

-- What the two passes of the encoder agree on: the canonical encoding of the access list.
namespace Zeg.AccessList.Encoder

open Base Base.Rlp Base.BigEndian Base.Writer CodeTable List

-- The access list as a value: one account with its changed slots, the slots it only reads, and
-- the changes of its fields.
structure Listed where
  address : Address
  changed : List (Bytes32 × List (UInt32 × Bytes32))
  reads : List Bytes32
  balance : List (UInt32 × Bytes32)
  nonce : List (UInt32 × Bytes32)
  code : List (UInt32 × Bytes)

def wordItem (v : Bytes32) : Item := .Str (beBytes (readBe v.toList))

def pairItem {α : Type} (item : α → Item) (pair : UInt32 × α) : Item :=
  .Lst [.Str (beBytes pair.1.toNat), item pair.2]

def pairsItem {α : Type} (item : α → Item) (pairs : List (UInt32 × α)) : Item := .Lst (pairs.map (pairItem item))

def changedItem (slot : Bytes32 × List (UInt32 × Bytes32)) : Item :=
  .Lst [wordItem slot.1, pairsItem wordItem slot.2]

def Listed.item (l : Listed) : Item :=
  .Lst [.Str l.address.toList, .Lst (l.changed.map changedItem), .Lst (l.reads.map wordItem),
    pairsItem wordItem l.balance, pairsItem wordItem l.nonce, pairsItem .Str l.code]

def listItem (list : List Listed) : Item := .Lst (list.map Listed.item)

-- The entries' access list, with `code` for the bytes behind the code hashes.
def Change.pair (c : Change) : UInt32 × Bytes32 := (c.index, c.value)

def Slot.changed (slot : Slot) : Bytes32 × List (UInt32 × Bytes32) := (slot.key, slot.changes.map Change.pair)

def Entry.listed (code : Bytes32 → Bytes) (e : Entry) : Listed where
  address := e.address
  changed := (e.slots.filter fun slot => !slot.changes.isEmpty).map Slot.changed
  reads := (e.slots.filter fun slot => slot.changes.isEmpty).map Slot.key
  balance := e.account.balance.map Change.pair
  nonce := e.account.nonce.map Change.pair
  code := e.account.code.map fun c => (c.index, code c.value)

def accessList (code : Bytes32 → Bytes) (entries : List Entry) : List Listed := entries.map (Entry.listed code)

def Resolves (contracts : Contracts) (code : Bytes32 → Bytes) (entries : List Entry) : Prop :=
  ∀ e ∈ entries, ∀ c ∈ e.account.code, codeOf contracts c.value = .ok (code c.value)

-- Headers.

theorem beBytesAux_eq_spread (fuel len : Nat) (acc : Bytes) (hpos : 0 < len) (hlen : len < 256 ^ fuel) :
    beBytesAux fuel len acc = spread (lengthBytes fuel len) len ++ acc := by
  induction fuel generalizing len acc with
  | zero => simp at hlen; omega
  | succ fuel ih =>
    have hshift : len >>> 8 = len / 256 := Nat.shiftRight_eq_div_pow len 8
    rw [beBytesAux, if_neg (by omega), lengthBytes, hshift]
    by_cases hq : len / 256 = 0
    · rw [if_pos hq, hq]
      cases fuel <;> simp [beBytesAux, spread]
    · rw [if_neg hq, spread_succ, ih _ _ (by omega) (Nat.div_lt_of_lt_mul (by omega)), append_assoc]
      rfl

theorem lengthBytes_eq {fuel len : Nat} (hpos : 0 < len) (hlen : len < 256 ^ fuel) :
    lengthBytes fuel len = (beBytesAux fuel len []).length := by
  rw [beBytesAux_eq_spread fuel len [] hpos hlen, append_nil, length_spread]

theorem beBytes_eq {width len : Nat} (hwidth : width ≤ 32) (hlen : len < 256 ^ width) :
    beBytesAux width len [] = beBytes len := by
  have hread := readBe_beBytesAux width len [] hlen
  have hhead := head_beBytesAux width len [] (fun _ => by simp) hlen
  have hle := length_beBytesAux_le width len width [] hlen
  rw [length_nil, Nat.pow_zero, Nat.mul_one, show readBe [] = 0 from rfl, Nat.add_zero] at hread
  rw [← beBytes_readBe hhead (by simpa using Nat.le_trans hle (by simpa using hwidth)), hread]

theorem makeHeader_eq (short long : Nat) {len : Nat} (hlen : len < 2 ^ 64) :
    makeHeader short long len = header short long len := by
  unfold makeHeader header
  split
  · rfl
  · have hlen' : len < 256 ^ 8 := by simpa using hlen
    have hbytes := beBytesAux_eq_spread 8 len [] (by omega) hlen'
    have hcount := @lengthBytes_eq 8 len (by omega) hlen'
    rw [beBytes_eq (by decide) hlen'] at hbytes hcount
    rw [append_nil] at hbytes
    show UInt8.ofNat (long + lengthBytes 8 len) :: _ = _
    rw [← hbytes, hcount]

theorem length_header_le_five (short long : Nat) {len : Nat} (hlen : len < 2 ^ 32) :
    (header short long len).length ≤ 5 := by
  unfold header
  split
  · simp
  · have := length_beBytes_le 4 (show len < 256 ^ 4 by simpa using hlen)
    rw [length_cons]
    omega

theorem length_header_eq (short long short' long' len : Nat) :
    (header short long len).length = (header short' long' len).length := by
  unfold header
  split <;> simp

theorem localHeader_eq {len : Nat} (hlen : len < 2 ^ 32) : localHeader len = .ok (header 0x80 0xb7 len) := by
  have hfive := length_header_le_five 0x80 0xb7 hlen
  unfold localHeader headerRoom
  rw [makeHeader_eq _ _ (by omega)]
  exact if_neg (by omega)

theorem itemSize_eq {payload : Bytes} (hlen : payload.length < 2 ^ 32) :
    itemSize payload.length = .ok (wrap payload).length := by
  have hfive := length_header_le_five 0x80 0xb7 hlen
  unfold itemSize
  rw [localHeader_eq hlen]
  show Except.ok (sizeT ((header 0x80 0xb7 payload.length).length + payload.length)) = _
  rw [sizeT_of_lt (by omega), wrap, length_append, length_header_eq 0xc0 0xf7 0x80 0xb7]

-- Strings and integers.

theorem encodeStr_of_not {s : Bytes} (h : ¬(s.length = 1 ∧ s.headD 0 < 0x80)) :
    encodeStr s = header 0x80 0xb7 s.length ++ s := by
  unfold encodeStr
  split
  · next b =>
    have hb : ¬b.toNat < 0x80 := fun hlt => h ⟨rfl, UInt8.lt_iff_toNat_lt.2 hlt⟩
    rw [if_neg hb]
    rfl
  · rfl

theorem encodeStr_of_short {s : Bytes} (h : s.length = 1 ∧ s.headD 0 < 0x80) : encodeStr s = s := by
  obtain ⟨b, rfl⟩ := length_eq_one_iff.1 h.1
  have hb : b.toNat < 0x80 := UInt8.lt_iff_toNat_lt.1 h.2
  rw [encodeStr, if_pos hb]

theorem writeString_eq {s : Bytes} (hlen : s.length < 2 ^ 32) : writeString s = .ok (encodeStr s) := by
  unfold writeString
  split
  · next h => rw [encodeStr_of_short h]
  · next h =>
    rw [encodeStr_of_not h]
    split
    · next hshort => rw [header, if_pos hshort]; rfl
    · rw [localHeader_eq hlen]
      rfl

theorem strSize_eq {s : Bytes} (hlen : s.length < 2 ^ 32) : strSize s = .ok (encodeStr s).length := by
  unfold strSize
  split
  · next h => rw [encodeStr_of_short h, h.1]
  · next h =>
    rw [encodeStr_of_not h, itemSize_eq hlen, wrap, length_append, length_append,
      length_header_eq 0xc0 0xf7 0x80 0xb7]

theorem drop_significantStart (v : Bytes32) :
    v.toList.drop (u256SignificantStart v) = beBytes (readBe v.toList) := by
  have hlen : v.toList.length = 32 := v.toList_length
  rw [u256SignificantStart, scan_eq 4 0 _ hlen, Nat.zero_add, drop_leadingZeros,
    minimal_eq_beBytes _ (Nat.le_of_eq hlen)]

theorem length_beBytes_word (v : Bytes32) : (beBytes (readBe v.toList)).length ≤ 32 := by
  have hlen : v.toList.length = 32 := v.toList_length
  rw [← drop_significantStart, length_drop]
  omega

theorem writeInt_eq (v : Bytes32) : writeInt v = .ok (Rlp.encode (wordItem v)) := by
  have hlen := length_beBytes_word v
  rw [writeInt, drop_significantStart, writeString_eq (by omega), wordItem, Rlp.encode]

theorem getLast_of_length_one {s t : Bytes} {n : Nat} (hs : s.drop n = t) (ht : t.length = 1) :
    s.getD (s.length - 1) 0 = t.headD 0 := by
  obtain ⟨b, rfl⟩ := length_eq_one_iff.1 ht
  have hlen := congrArg List.length hs
  rw [length_drop, length_singleton] at hlen
  have hget : (s.drop n)[0]? = some b := by rw [hs]; rfl
  rw [List.getElem?_drop, Nat.add_zero] at hget
  rw [getD_eq_getElem?_getD, show s.length - 1 = n by omega, hget]
  rfl

theorem intSize_eq (v : Bytes32) : intSize v = (Rlp.encode (wordItem v)).length := by
  have hlen : v.toList.length = 32 := v.toList_length
  have hdrop := drop_significantStart v
  have hcount := congrArg List.length hdrop
  rw [length_drop, hlen] at hcount
  have hsize : .ok (intSize v) = strSize (beBytes (readBe v.toList)) := by
    unfold intSize strSize
    simp only [hcount]
    by_cases hone : (beBytes (readBe v.toList)).length = 1
    · have hlast := getLast_of_length_one hdrop hone
      rw [hlen] at hlast
      rw [hlast]
      split
      · rfl
      · rw [hone]
        rfl
    · rw [if_neg fun h => hone h.1, if_neg fun h => hone h.1, itemSize, localHeader_eq (by omega), header,
        if_pos (by omega)]
      show _ = Except.ok (sizeT (1 + _))
      rw [sizeT_of_lt (by omega)]
  rw [strSize_eq (by omega)] at hsize
  exact Except.ok.inj hsize

theorem drop_significant_u64 (v : UInt64) :
    (spread 8 v.toNat).drop (if v ≠ 0 then clz v.toNat >>> 3 else 8) = beBytes v.toNat := by
  have hlen := length_spread 8 v.toNat
  have hread := readBe_spread (show v.toNat < 256 ^ 8 from v.toNat_lt)
  have hmin : beBytes v.toNat = minimal (spread 8 v.toNat) := by
    rw [minimal_eq_beBytes _ (by omega), hread]
  rw [hmin, ← drop_leadingZeros]
  congr 1
  split
  · next hv =>
    have hne : readBe (spread 8 v.toNat) ≠ 0 := fun h => hv (UInt64.toNat_inj.1 (hread.symm.trans h))
    have hclz := clz_readBe hlen hne
    rwa [hread] at hclz
  · next hv =>
    rw [leadingZeros_of_readBe_eq_zero, hlen]
    rw [hread, not_not.1 hv]
    rfl

theorem writeU64_eq (v : UInt64) : writeU64 v = .ok (encodeStr (beBytes v.toNat)) := by
  have hbytes := length_beBytes_le 8 (show v.toNat < 256 ^ 8 from v.toNat_lt)
  rw [writeU64]
  simp only [drop_significant_u64]
  rw [writeString_eq (by omega)]

theorem length_encodeStr_beBytes {width n : Nat} (hpos : 0 < width) (hwidth : width < 32) (hlow : 256 ^ width ≤ n)
    (hhigh : n < 256 ^ (width + 1)) : (encodeStr (beBytes n)).length = width + 2 := by
  have hlen := length_beBytes_eq hwidth hlow hhigh
  have hnot : ¬((beBytes n).length = 1 ∧ (beBytes n).headD 0 < 0x80) := fun h => by omega
  rw [encodeStr_of_not hnot, length_append, hlen, header, if_pos (by omega), length_singleton]
  omega

theorem length_encodeStr_byte {n : Nat} (hn : n < 256) :
    (encodeStr (beBytes n)).length = if n < 0x80 then 1 else 2 := by
  obtain rfl | hpos := Nat.eq_zero_or_pos n
  · rfl
  · have hbytes : beBytes n = [UInt8.ofNat n] := by
      rw [beBytes, beBytesAux, if_neg (by omega), show n / 256 = 0 by omega]
      rfl
    rw [hbytes, encodeStr, toNat_ofNat hn]
    split <;> rfl

theorem indexSize_eq (i : UInt32) : indexSize i = (encodeStr (beBytes i.toNat)).length := by
  have hlt := i.toNat_lt
  unfold indexSize
  simp only [UInt32.lt_iff_toNat_lt, UInt32.reduceToNat]
  by_cases hbyte : i.toNat < 256
  · rw [length_encodeStr_byte hbyte]
    split
    · rfl
    · rfl
  · rw [if_neg (by omega), if_neg hbyte]
    split
    · next h => rw [@length_encodeStr_beBytes 1 _ (by decide) (by decide) (by omega) (by omega)]
    split
    · next h => rw [@length_encodeStr_beBytes 2 _ (by decide) (by decide) (by omega) (by omega)]
    · rw [@length_encodeStr_beBytes 3 _ (by decide) (by decide) (by omega) (by omega)]

-- Change lists.

def Kind.bytes (code : Bytes32 → Bytes) : Kind → Bytes32 → Bytes
  | .Integer, value => beBytes (readBe value.toList)
  | .Code, value => code value

def Change.item (code : Bytes32 → Bytes) (kind : Kind) (c : Change) : Item :=
  .Lst [.Str (beBytes c.index.toNat), .Str (kind.bytes code c.value)]

theorem encodeAll_map {α : Type} (f : α → Item) (xs : List α) :
    encodeAll (xs.map f) = xs.flatMap fun x => Rlp.encode (f x) := by
  induction xs with
  | nil => rfl
  | cons x xs ih => rw [map_cons, encodeAll, ih, flatMap_cons]

theorem length_encode_le_of_mem {x : Item} {xs : List Item} (h : x ∈ xs) :
    (Rlp.encode x).length ≤ (encodeAll xs).length := by
  induction xs with
  | nil => cases h
  | cons y ys ih =>
    rw [encodeAll, length_append]
    obtain rfl | h := mem_cons.1 h
    · omega
    · have := ih h
      omega

theorem length_encodeAll_lt (xs : List Item) : (encodeAll xs).length < (Rlp.encode (.Lst xs)).length := by
  exact length_wrap _

theorem writes_list {room : Nat} {w : Bytes → Except String Bytes} {payload : Bytes}
    (h : Writes room w payload) (hlen : payload.length < 2 ^ 64) :
    Writes room (fun out => put room (listHeader payload.length) out >>= w) (wrap payload) := by
  have hboth := (writes_put (listHeader payload.length)).bind h
  rwa [listHeader, makeHeader_eq _ _ hlen] at hboth ⊢

theorem writes_list_bind {room : Nat} {w v : Bytes → Except String Bytes} {payload rest : Bytes}
    (hw : Writes room w payload) (hlen : payload.length < 2 ^ 64) (hv : Writes room v rest) :
    Writes room (fun out => put room (listHeader payload.length) out >>= fun out => w out >>= v)
      (wrap payload ++ rest) := by
  have hall := (writes_put (listHeader payload.length)).bind (hw.bind hv)
  rw [← append_assoc] at hall
  rwa [listHeader, makeHeader_eq _ _ hlen] at hall ⊢

section

variable {contracts : Contracts} {code : Bytes32 → Bytes} {room : Nat} {kind : Kind} {c : Change} {l : List Change}
  {slot : Slot} {slots : List Slot} {e : Entry} {entries : List Entry}

def Known (contracts : Contracts) (code : Bytes32 → Bytes) (kind : Kind) (l : List Change) : Prop :=
  match kind with
  | .Integer => True
  | .Code => ∀ c ∈ l, codeOf contracts c.value = .ok (code c.value)

theorem known_integer : Known contracts code .Integer l := trivial

theorem Known.of_mem (h : Known contracts code kind l) (hc : c ∈ l) : Known contracts code kind [c] := by
  cases kind with
  | Integer => trivial
  | Code =>
    intro d hd
    rw [mem_singleton.1 hd]
    exact h c hc

theorem valueSize_eq (hknown : Known contracts code kind [c]) (hlen : (kind.bytes code c.value).length < 2 ^ 32) :
    valueSize contracts kind c.value = .ok (encodeStr (kind.bytes code c.value)).length := by
  cases kind with
  | Integer => rw [valueSize, intSize_eq, wordItem, Rlp.encode]; rfl
  | Code =>
    rw [valueSize, hknown c (mem_singleton_self c)]
    exact strSize_eq hlen

theorem writeValue_eq (hknown : Known contracts code kind [c]) (hlen : (kind.bytes code c.value).length < 2 ^ 32) :
    writeValue contracts kind c.value = .ok (encodeStr (kind.bytes code c.value)) := by
  cases kind with
  | Integer => rw [writeValue, writeInt_eq, wordItem, Rlp.encode]; rfl
  | Code =>
    rw [writeValue, hknown c (mem_singleton_self c)]
    exact writeString_eq hlen

-- A change and a changed slot are both lists of two items.

theorem encode_pair (x y : Item) : Rlp.encode (.Lst [x, y]) = wrap (Rlp.encode x ++ Rlp.encode y) := by
  simp only [Rlp.encode, encodeAll, append_nil]

section

variable {x y : Item} (hlen : (Rlp.encode (.Lst [x, y])).length < 2 ^ 32)
include hlen

theorem length_pair_lt : (Rlp.encode x).length + (Rlp.encode y).length < 2 ^ 32 := by
  have hwrap := length_wrap (Rlp.encode x ++ Rlp.encode y)
  rw [encode_pair] at hlen
  rw [length_append] at hwrap
  omega

theorem pairSize_eq :
    itemSize (sizeT ((Rlp.encode x).length + (Rlp.encode y).length)) = .ok (Rlp.encode (.Lst [x, y])).length := by
  have hpair := length_pair_lt hlen
  rw [sizeT_of_lt (by omega), ← length_append, itemSize_eq, encode_pair]
  rwa [length_append]

theorem writes_pair {v w : Bytes → Except String Bytes} (hx : Writes room v (Rlp.encode x))
    (hy : Writes room w (Rlp.encode y)) :
    Writes room (fun out => put room (listHeader (sizeT ((Rlp.encode x).length + (Rlp.encode y).length))) out >>=
      fun out => v out >>= w) (Rlp.encode (.Lst [x, y])) := by
  have hpair := length_pair_lt hlen
  have hlist := writes_list (hx.bind hy) (by rw [length_append]; omega)
  rwa [← encode_pair, length_append, ← sizeT_of_lt (Nat.lt_trans hpair (by decide))] at hlist

end

theorem length_value_lt (hlen : (Rlp.encode (c.item code kind)).length < 2 ^ 32) :
    (kind.bytes code c.value).length < 2 ^ 32 := by
  have hvalue := length_le_encodeStr (kind.bytes code c.value)
  have hpair := length_pair_lt hlen
  rw [Rlp.encode, Rlp.encode] at hpair
  omega

theorem changeSize_eq (hknown : Known contracts code kind [c])
    (hlen : (Rlp.encode (c.item code kind)).length < 2 ^ 32) :
    changeSize contracts kind c = .ok (Rlp.encode (c.item code kind)).length := by
  simp only [changeSize, valueSize_eq hknown (length_value_lt hlen), ok_bind, indexSize_eq]
  exact pairSize_eq hlen

def Kind.items (code : Bytes32 → Bytes) (kind : Kind) (l : List Change) : List Item := l.map (Change.item code kind)

theorem listPayload_eq (hknown : Known contracts code kind l) (hlen : (encodeAll (kind.items code l)).length < 2 ^ 32) :
    listPayload contracts kind l = .ok (encodeAll (kind.items code l)).length := by
  rw [Kind.items, encodeAll_map] at hlen ⊢
  have hsum := sumSizes_eq (changeSize contracts kind) (fun c => Rlp.encode (c.item code kind)) (2 ^ 32) (by decide) l
    (fun c hc hsize => changeSize_eq (hknown.of_mem hc) hsize) 0 (by omega)
  rwa [Nat.zero_add] at hsum

theorem writeChange_writes (hknown : Known contracts code kind [c])
    (hlen : (Rlp.encode (c.item code kind)).length < 2 ^ 32) :
    Writes room (fun out => writeChange contracts room kind out c) (Rlp.encode (c.item code kind)) := by
  have hvalue := length_value_lt hlen
  have hindex : c.index.toUInt64.toNat = c.index.toNat := by simp
  simp only [writeChange, valueSize_eq hknown hvalue, indexSize_eq, writeU64_eq, hindex, writeValue_eq hknown hvalue,
    ok_bind]
  exact writes_pair hlen (writes_put _) (writes_put _)

theorem writeChanges_writes (hknown : Known contracts code kind l)
    (hlen : (encodeAll (kind.items code l)).length < 2 ^ 32) :
    Writes room (writeChanges contracts room l (encodeAll (kind.items code l)).length kind)
      (Rlp.encode (.Lst (kind.items code l))) := by
  have hitems : Writes room (fun out => l.foldlM (writeChange contracts room kind) out)
      (encodeAll (kind.items code l)) := by
    rw [Kind.items, encodeAll_map]
    apply Writes.foldlM
    intro c hc
    have hmem := length_encode_le_of_mem (mem_map_of_mem (f := Change.item code kind) hc)
    exact writeChange_writes (hknown.of_mem hc) (Nat.lt_of_le_of_lt hmem hlen)
  exact writes_list hitems (by omega)

-- Slots.

def Slot.item (code : Bytes32 → Bytes) (slot : Slot) : Item :=
  .Lst [wordItem slot.key, .Lst (Kind.Integer.items code slot.changes)]

def changedSlots (slots : List Slot) : List Slot := slots.filter fun slot => !slot.changes.isEmpty

def readSlots (slots : List Slot) : List Slot := slots.filter fun slot => slot.changes.isEmpty

theorem length_slot_lt (hlen : (Rlp.encode (slot.item code)).length < 2 ^ 32) :
    (encodeAll (Kind.Integer.items code slot.changes)).length < 2 ^ 32 := by
  have hlist := length_encodeAll_lt (Kind.Integer.items code slot.changes)
  have hpair := length_pair_lt hlen
  omega

theorem listSize_eq (hlen : (encodeAll (Kind.Integer.items code slot.changes)).length < 2 ^ 32) :
    itemSize (encodeAll (Kind.Integer.items code slot.changes)).length =
      .ok (Rlp.encode (.Lst (Kind.Integer.items code slot.changes))).length := by
  rw [itemSize_eq hlen, Rlp.encode]

theorem changesPayload_eq (hlen : (Rlp.encode (slot.item code)).length < 2 ^ 32) :
    listPayload contracts .Integer slot.changes = .ok (encodeAll (Kind.Integer.items code slot.changes)).length :=
  listPayload_eq known_integer (length_slot_lt hlen)

theorem changedSize_eq (hlen : (Rlp.encode (slot.item code)).length < 2 ^ 32) :
    changedSize contracts slot = .ok (Rlp.encode (slot.item code)).length := by
  simp only [changedSize, changesPayload_eq hlen, ok_bind, listSize_eq (length_slot_lt hlen), intSize_eq]
  exact pairSize_eq hlen

def changedBytes (code : Bytes32 → Bytes) (slots : List Slot) : Bytes :=
  encodeAll ((changedSlots slots).map (Slot.item code))

def readBytes (slots : List Slot) : Bytes := encodeAll ((readSlots slots).map fun slot => wordItem slot.key)

theorem changedBytes_cons (slot : Slot) (slots : List Slot) : changedBytes code (slot :: slots) =
    (if slot.changes.isEmpty then [] else Rlp.encode (slot.item code)) ++ changedBytes code slots := by
  unfold changedBytes changedSlots
  rw [filter_cons]
  cases slot.changes.isEmpty <;> rfl

theorem readBytes_cons (slot : Slot) (slots : List Slot) : readBytes (slot :: slots) =
    (if slot.changes.isEmpty then Rlp.encode (wordItem slot.key) else []) ++ readBytes slots := by
  unfold readBytes readSlots
  rw [filter_cons]
  cases slot.changes.isEmpty <;> rfl

theorem slotSizes_eq (slots : List Slot) (sc sr : Nat) (hsc : sc + (changedBytes code slots).length < 2 ^ 32)
    (hsr : sr + (readBytes slots).length < 2 ^ 32) :
    slotSizes contracts slots (sc, sr) =
      .ok (sc + (changedBytes code slots).length, sr + (readBytes slots).length) := by
  induction slots generalizing sc sr with
  | nil => rfl
  | cons slot slots ih =>
    rw [changedBytes_cons, length_append] at hsc ⊢
    rw [readBytes_cons, length_append] at hsr ⊢
    rw [slotSizes, foldlM_cons, slotSize]
    split at hsc
    · next hread =>
      rw [if_pos hread] at hsr
      rw [if_pos hread, if_pos hread, if_pos hread, intSize_eq, length_nil]
      show slotSizes contracts slots (sc, sizeT (sr + _)) = _
      rw [sizeT_of_lt (by omega), ih sc _ (by omega) (by omega), Nat.zero_add, Nat.add_assoc]
    · next hread =>
      rw [if_neg hread] at hsr
      rw [if_neg hread, if_neg hread, if_neg hread, @changedSize_eq contracts code slot (by omega), length_nil]
      show slotSizes contracts slots (sizeT (sc + _), sr) = _
      rw [sizeT_of_lt (by omega), ih _ sr (by omega) (by rw [length_nil] at hsr; omega), Nat.zero_add,
        Nat.add_assoc]

theorem writeChanged_writes (hlen : (changedBytes code slots).length < 2 ^ 32) :
    Writes room (fun out => slots.foldlM (writeChanged contracts room) out) (changedBytes code slots) := by
  have hbytes : changedBytes code slots =
      slots.flatMap fun slot => if slot.changes.isEmpty then [] else Rlp.encode (slot.item code) := by
    clear hlen
    induction slots with
    | nil => rfl
    | cons slot slots ih => rw [changedBytes_cons, ih, flatMap_cons]
  rw [hbytes]
  apply Writes.foldlM
  intro slot hslot
  by_cases hread : slot.changes.isEmpty
  · simp only [writeChanged, hread, if_true]
    exact writes_nil
  · have hmem : slot ∈ changedSlots slots := mem_filter.2 ⟨hslot, by simpa using hread⟩
    have hle := length_encode_le_of_mem (mem_map_of_mem (f := Slot.item code) hmem)
    have hslot := Nat.lt_of_le_of_lt hle hlen
    have hchanges := length_slot_lt hslot
    simp only [writeChanged, if_neg hread, changesPayload_eq hslot, intSize_eq, writeInt_eq, ok_bind,
      listSize_eq hchanges]
    exact writes_pair hslot (writes_put _) (writeChanges_writes known_integer hchanges)

theorem writeRead_writes (slots : List Slot) :
    Writes room (fun out => slots.foldlM (writeRead room) out) (readBytes slots) := by
  have hbytes : readBytes slots =
      slots.flatMap fun slot => if slot.changes.isEmpty then Rlp.encode (wordItem slot.key) else [] := by
    induction slots with
    | nil => rfl
    | cons slot slots ih => rw [readBytes_cons, ih, flatMap_cons]
  rw [hbytes]
  apply Writes.foldlM
  intro slot _
  by_cases hread : slot.changes.isEmpty
  · simp only [writeRead, hread, if_true, writeInt_eq]
    exact writes_put _
  · simp only [writeRead, if_neg hread]
    exact writes_nil

-- Entries.

def Entry.items (code : Bytes32 → Bytes) (e : Entry) : List Item :=
  [.Str e.address.toList, .Lst ((changedSlots e.slots).map (Slot.item code)),
    .Lst ((readSlots e.slots).map fun slot => wordItem slot.key), .Lst (Kind.Integer.items code e.account.balance),
    .Lst (Kind.Integer.items code e.account.nonce), .Lst (Kind.Code.items code e.account.code)]

theorem pairsItem_eq (l : List Change) :
    pairsItem wordItem (l.map Change.pair) = .Lst (Kind.Integer.items code l) := by
  rw [pairsItem, map_map]
  rfl

theorem listed_item (e : Entry) : (e.listed code).item = .Lst (e.items code) := by
  unfold Listed.item Entry.listed Entry.items
  have hchanged : (changedSlots e.slots).map (changedItem ∘ Slot.changed) =
      (changedSlots e.slots).map (Slot.item code) := by
    apply map_congr_left
    intro slot _
    exact congrArg (fun item => Item.Lst [wordItem slot.key, item]) (pairsItem_eq slot.changes)
  have hcode : pairsItem Item.Str (e.account.code.map fun c => (c.index, code c.value)) =
      .Lst (Kind.Code.items code e.account.code) := by
    rw [pairsItem, map_map]
    rfl
  rw [map_map, map_map, pairsItem_eq, pairsItem_eq, hcode]
  exact congrArg (fun changed => Item.Lst (Item.Str e.address.toList :: Item.Lst changed :: _)) hchanged

def Entry.sizes (code : Bytes32 → Bytes) (e : Entry) : Sizes where
  sc := (changedBytes code e.slots).length
  sr := (readBytes e.slots).length
  bal := (encodeAll (Kind.Integer.items code e.account.balance)).length
  nonce := (encodeAll (Kind.Integer.items code e.account.nonce)).length
  code := (encodeAll (Kind.Code.items code e.account.code)).length
  payload := (encodeAll (e.items code)).length

theorem length_address (address : Address) : (Rlp.encode (.Str address.toList)).length = 21 := by
  have hlen : address.toList.length = 20 := address.toList_length
  rw [Rlp.encode, encodeStr_of_not (by omega), hlen, length_append, hlen, header, if_pos (by decide)]
  rfl

theorem encodeAll_items (e : Entry) : encodeAll (e.items code) =
    Rlp.encode (.Str e.address.toList) ++ (wrap (changedBytes code e.slots) ++ (wrap (readBytes e.slots) ++
      (wrap (encodeAll (Kind.Integer.items code e.account.balance)) ++
        (wrap (encodeAll (Kind.Integer.items code e.account.nonce)) ++
          wrap (encodeAll (Kind.Code.items code e.account.code)))))) := by
  simp only [Entry.items, encodeAll, Rlp.encode, append_nil]
  rfl

theorem entry_bounds (hlen : (encodeAll (e.items code)).length < 2 ^ 32) :
    (changedBytes code e.slots).length < 2 ^ 32 ∧ (readBytes e.slots).length < 2 ^ 32 ∧
      (encodeAll (Kind.Integer.items code e.account.balance)).length < 2 ^ 32 ∧
      (encodeAll (Kind.Integer.items code e.account.nonce)).length < 2 ^ 32 ∧
      (encodeAll (Kind.Code.items code e.account.code)).length < 2 ^ 32 := by
  have h₁ := length_wrap (changedBytes code e.slots)
  have h₂ := length_wrap (readBytes e.slots)
  have h₃ := length_wrap (encodeAll (Kind.Integer.items code e.account.balance))
  have h₄ := length_wrap (encodeAll (Kind.Integer.items code e.account.nonce))
  have h₅ := length_wrap (encodeAll (Kind.Code.items code e.account.code))
  simp only [encodeAll_items, length_append] at hlen
  omega

theorem entrySizes_eq (hknown : Known contracts code .Code e.account.code)
    (hlen : (encodeAll (e.items code)).length < 2 ^ 32) : entrySizes contracts e = .ok (e.sizes code) := by
  obtain ⟨hsc, hsr, hbal, hnonce, hcode⟩ := entry_bounds hlen
  have hslots := @slotSizes_eq contracts code e.slots 0 0 (by omega) (by omega)
  have hpayload : (encodeAll (e.items code)).length = 21 + (wrap (changedBytes code e.slots)).length +
      (wrap (readBytes e.slots)).length + (wrap (encodeAll (Kind.Integer.items code e.account.balance))).length +
      (wrap (encodeAll (Kind.Integer.items code e.account.nonce))).length +
      (wrap (encodeAll (Kind.Code.items code e.account.code))).length := by
    simp only [encodeAll_items, length_append, length_address, Nat.add_assoc]
  rw [Nat.zero_add, Nat.zero_add] at hslots
  have hsize := sizeT_of_lt (Nat.lt_trans (hpayload ▸ hlen) (show 2 ^ 32 < 2 ^ 64 by decide))
  rw [Entry.sizes, hpayload, ← hsize]
  simp only [entrySizes, bind, Except.bind, hslots, listPayload_eq known_integer hbal,
    listPayload_eq known_integer hnonce, listPayload_eq hknown hcode, itemSize_eq hsc, itemSize_eq hsr, itemSize_eq hbal, itemSize_eq hnonce,
    itemSize_eq hcode]
  rfl

theorem writeEntry_writes (hknown : Known contracts code .Code e.account.code)
    (hlen : (encodeAll (e.items code)).length < 2 ^ 32) :
    Writes room (fun out => writeEntry contracts room out (e, e.sizes code)) (Rlp.encode (.Lst (e.items code))) := by
  obtain ⟨hsc, hsr, hbal, hnonce, hcode⟩ := entry_bounds hlen
  have haddress : writeString e.address.toList = .ok (Rlp.encode (.Str e.address.toList)) := by
    have : e.address.toList.length = 20 := e.address.toList_length
    rw [writeString_eq (by omega), Rlp.encode]
  have hchanged : Writes room _ _ := @writeChanged_writes contracts code room e.slots hsc
  have hreads : Writes room _ _ := writeRead_writes e.slots
  have hbalance : Writes room _ _ := writeChanges_writes (@known_integer contracts _ _) hbal
  have hnonces : Writes room _ _ := writeChanges_writes (@known_integer contracts _ _) hnonce
  have hcodes : Writes room _ _ := writeChanges_writes hknown hcode
  have hall := (writes_put (Rlp.encode (.Str e.address.toList))).bind <| writes_list_bind hchanged (by omega) <|
    writes_list_bind hreads (by omega) <| hbalance.bind <| hnonces.bind hcodes
  have hlist := writes_list ((encodeAll_items e).symm ▸ hall) (by omega)
  simp only [writeEntry, haddress, ok_bind]
  exact hlist

theorem entries_length (he : e ∈ entries)
    (hlen : (encodeAll (entries.map fun e => .Lst (e.items code))).length < 2 ^ 32) :
    (encodeAll (e.items code)).length < 2 ^ 32 := by
  have hmem := length_encode_le_of_mem (mem_map_of_mem (f := fun e : Entry => Item.Lst (e.items code)) he)
  have hlist := length_encodeAll_lt (e.items code)
  omega

theorem total_eq
    (hlen : (encodeAll (entries.map fun e => .Lst (e.items code))).length < 2 ^ 32) :
    sumSizes (fun s : Sizes => itemSize s.payload) (entries.map (Entry.sizes code)) 0 =
      .ok (encodeAll (entries.map fun e => .Lst (e.items code))).length := by
  have hmap : sumSizes (fun s : Sizes => itemSize s.payload) (entries.map (Entry.sizes code)) 0 =
      sumSizes (fun e : Entry => itemSize (encodeAll (e.items code)).length) entries 0 := foldlM_map
  rw [encodeAll_map] at hlen
  rw [hmap, encodeAll_map, sumSizes_eq _ (fun e => Rlp.encode (.Lst (e.items code))) (2 ^ 32) (by decide) entries,
    Nat.zero_add]
  · intro e _ hsize
    have hitems := length_encodeAll_lt (e.items code)
    rw [itemSize_eq (by omega), Rlp.encode]
  · rwa [Nat.zero_add]

theorem encode_eq (hcode : Resolves contracts code entries)
    (hlen : (encodeAll (entries.map fun e => .Lst (e.items code))).length < 2 ^ 32) :
    encode contracts entries = .ok (Rlp.encode (.Lst (entries.map fun e => .Lst (e.items code)))) := by
  have hsizes : entries.mapM (entrySizes contracts) = .ok (entries.map (Entry.sizes code)) :=
    mapM_eq_ok_map fun e he => entrySizes_eq (hcode e he) (entries_length he hlen)
  have hzip : entries.zip (entries.map (Entry.sizes code)) = entries.map fun e => (e, e.sizes code) := by
    have h := @List.zip_map' Entry Entry Sizes id (Entry.sizes code) entries
    rwa [map_id] at h
  have hwrites : Writes (wrap (encodeAll (entries.map fun e => .Lst (e.items code)))).length
      (fun out => (entries.zip (entries.map (Entry.sizes code))).foldlM
        (writeEntry contracts (wrap (encodeAll (entries.map fun e => .Lst (e.items code)))).length) out)
      (encodeAll (entries.map fun e => .Lst (e.items code))) := by
    rw [hzip, encodeAll_map]
    simp only [foldlM_map]
    exact Writes.foldlM entries fun e he => writeEntry_writes (hcode e he) (entries_length he hlen)
  have hlist := writes_list hwrites (by omega) [] (by simp)
  obtain ⟨out, hput, hfold⟩ := bind_eq_ok.1 hlist
  simp only [encode, bind, Except.bind, hsizes, total_eq hlen, itemSize_eq hlen, hput, hfold]
  exact if_neg (not_not.2 rfl)

end

end Zeg.AccessList.Encoder
