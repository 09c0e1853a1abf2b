import Zeg.AccessList.Canonical

-- Decoding the access list, and what it means for two lists to have the same bytes.
namespace Zeg.AccessList.Encoder

open Base Base.Rlp Base.BigEndian Base.Writer CodeTable List

variable {α : Type}

def parseWord : Item → Option Bytes32
  | .Str bytes => if h : (pad 32 bytes).length = 32 then some ⟨pad 32 bytes, h⟩ else none
  | .Lst _ => none

def parseBytes : Item → Option Bytes
  | .Str bytes => some bytes
  | .Lst _ => none

def parseList (parse : Item → Option α) : Item → Option (List α)
  | .Lst items => items.mapM parse
  | .Str _ => none

def parsePair (parse : Item → Option α) : Item → Option (UInt32 × α)
  | .Lst [.Str index, value] => do return (UInt32.ofNat (readBe index), ← parse value)
  | _ => none

def parseChanged : Item → Option (Bytes32 × List (UInt32 × Bytes32))
  | .Lst [key, changes] => do return (← parseWord key, ← parseList (parsePair parseWord) changes)
  | _ => none

def parseListed : Item → Option Listed
  | .Lst [.Str address, changed, reads, balance, nonce, code] =>
    if h : address.length = 20 then do
      return {
        address := ⟨address, h⟩
        changed := ← parseList parseChanged changed
        reads := ← parseList parseWord reads
        balance := ← parseList (parsePair parseWord) balance
        nonce := ← parseList (parsePair parseWord) nonce
        code := ← parseList (parsePair parseBytes) code }
    else none
  | _ => none

def decodeList (bytes : Bytes) : Option (List Listed) :=
  match decodeAll bytes with
  | .ok (item, []) => parseList parseListed item
  | _ => none

theorem parseList_map {parse : Item → Option α} {item : α → Item} (h : ∀ x, parse (item x) = some x)
    (xs : List α) : parseList parse (.Lst (xs.map item)) = some xs := by
  induction xs with
  | nil => rfl
  | cons x xs ih =>
    have hxs : (xs.map item).mapM parse = some xs := ih
    rw [parseList, map_cons, mapM_cons, h, hxs]
    rfl

theorem parseWord_item (v : Bytes32) : parseWord (wordItem v) = some v := by
  have hlen : v.toList.length = 32 := v.toList_length
  have hpad : pad 32 (beBytes (readBe v.toList)) = v.toList := by
    have h := pad_minimal v.toList
    rwa [minimal_eq_beBytes _ (Nat.le_of_eq hlen), hlen] at h
  rw [wordItem, parseWord, dif_pos (by rw [hpad, hlen])]
  exact congrArg some (Subtype.ext hpad)

theorem parsePair_item {parse : Item → Option α} {item : α → Item} (h : ∀ x, parse (item x) = some x)
    (pair : UInt32 × α) : parsePair parse (pairItem item pair) = some pair := by
  have hlt := pair.1.toNat_lt
  rw [pairItem, parsePair, h, readBe_beBytes (Nat.lt_trans hlt (by decide)), UInt32.ofNat_toNat]
  rfl

theorem parseChanged_item (slot : Bytes32 × List (UInt32 × Bytes32)) :
    parseChanged (changedItem slot) = some slot := by
  rw [changedItem, parseChanged, parseWord_item, pairsItem, parseList_map (parsePair_item parseWord_item)]
  rfl

theorem parseListed_item (l : Listed) : parseListed l.item = some l := by
  have hlen : l.address.toList.length = 20 := l.address.toList_length
  have hpairs := parseList_map (parsePair_item parseWord_item)
  have hcode := parseList_map (parsePair_item (fun bytes : Bytes => show parseBytes (.Str bytes) = some bytes from rfl))
  rw [Listed.item, parseListed, dif_pos hlen, parseList_map parseChanged_item, parseList_map parseWord_item,
    pairsItem, pairsItem, pairsItem, hpairs, hpairs, hcode]
  rfl

theorem decodeList_encode (list : List Listed) (hlen : (encodeAll (list.map Listed.item)).length < 2 ^ 32) :
    decodeList (Rlp.encode (listItem list)) = some list := by
  have hsize : (Rlp.encode (listItem list)).length < 2 ^ 64 := by
    have := length_encode_lst_le (list.map Listed.item) (by omega)
    rw [listItem]
    omega
  have hdecode := decode_encode (listItem list) [] hsize (2 * (Rlp.encode (listItem list)).length) (by omega)
  rw [append_nil] at hdecode
  rw [decodeList, decodeAll, hdecode]
  exact parseList_map parseListed_item list

theorem accessList_items (code : Bytes32 → Bytes) (entries : List Entry) :
    (accessList code entries).map Listed.item = entries.map fun e => .Lst (e.items code) := by
  rw [accessList, map_map]
  exact map_congr_left fun e _ => listed_item e

-- A list of less than 4 GiB fills the buffer of its size exactly, with its canonical encoding;
-- no other list of that size has the same bytes.
theorem encoder_canonical (contracts : Contracts) (code : Bytes32 → Bytes) (entries : List Entry)
    (hcode : Resolves contracts code entries)
    (hlen : (encodeAll ((accessList code entries).map Listed.item)).length < 2 ^ 32) :
    encode contracts entries = .ok (Rlp.encode (listItem (accessList code entries))) ∧
      decodeList (Rlp.encode (listItem (accessList code entries))) = some (accessList code entries) ∧
      ∀ contracts' code' entries', Resolves contracts' code' entries' →
        (encodeAll ((accessList code' entries').map Listed.item)).length < 2 ^ 32 →
        encode contracts' entries' = encode contracts entries →
        accessList code' entries' = accessList code entries := by
  have hencode : ∀ contracts code entries, Resolves contracts code entries →
      (encodeAll ((accessList code entries).map Listed.item)).length < 2 ^ 32 →
      encode contracts entries = .ok (Rlp.encode (listItem (accessList code entries))) := by
    intro contracts code entries hcode hlen
    rw [listItem, accessList_items] at *
    exact encode_eq hcode hlen
  refine ⟨hencode contracts code entries hcode hlen, decodeList_encode _ hlen, ?_⟩
  intro contracts' code' entries' hcode' hlen' hsame
  rw [hencode contracts code entries hcode hlen, hencode contracts' code' entries' hcode' hlen'] at hsame
  have hdecode := congrArg decodeList (Except.ok.inj hsame)
  rw [decodeList_encode _ hlen, decodeList_encode _ hlen'] at hdecode
  exact Option.some.inj hdecode

def wordBytes (w : Word) : Bytes32 := ⟨spread 32 w.toNat, length_spread _ _⟩

def nonceValue (nonce : UInt64) : Bytes32 := ⟨spread 32 nonce.toNat, length_spread _ _⟩

def changesOf (bytes : α → Bytes32) (changes : List (Nat × α)) : List Change :=
  changes.map fun change => ⟨UInt32.ofNat change.1, bytes change.2⟩

def recordsOf (bal : BlockAccessList) (slots : List (Bytes32 × Nat)) : List (Bytes32 × List (Nat × Word)) :=
  slots.filterMap fun slot => (bal.slots slot.2).map fun record => (slot.1, record.track.changes)

def slotOf (record : Bytes32 × List (Nat × Word)) : Slot := ⟨record.1, changesOf wordBytes record.2⟩

def entryOf (bal : BlockAccessList) (entry : AccessList.Entry) : Entry where
  address := entry.address
  account := ⟨changesOf wordBytes (bal.accounts entry.row).balance,
    changesOf nonceValue (bal.accounts entry.row).nonce, changesOf id (bal.accounts entry.row).code⟩
  slots := (recordsOf bal entry.slots).map slotOf

def Indexed (changes : List (Nat × α)) : Prop := ∀ change ∈ changes, change.1 < 2 ^ 32

structure RecordsIndexed (bal : BlockAccessList) (entry : AccessList.Entry) : Prop where
  balance : Indexed (bal.accounts entry.row).balance
  nonce : Indexed (bal.accounts entry.row).nonce
  code : Indexed (bal.accounts entry.row).code
  slots : ∀ record ∈ recordsOf bal entry.slots, Indexed record.2

theorem wordItem_position (position : Bytes32) :
    AccessList.wordItem (Word.ofBytes position.toList) = wordItem position := by
  have hlt : readBe position.toList < 2 ^ 256 := by
    have h := readBe_lt position.toList
    rwa [show position.toList.length = 32 from position.toList_length, show 256 ^ 32 = 2 ^ 256 by decide] at h
  rw [AccessList.wordItem, wordItem, toNat_ofBytes, Nat.mod_eq_of_lt hlt]

theorem beBytes_spread {n : Nat} (hn : n < 256 ^ 32) : beBytes (readBe (spread 32 n)) = beBytes n := by
  rw [readBe_spread hn]

theorem changesItem_eq {value : α → Except String Bytes} {bytes : α → Bytes32} {code : Bytes32 → Bytes}
    {kind : Kind} {changes : List (Nat × α)} (hindex : Indexed changes)
    (hvalue : ∀ change ∈ changes, value change.2 = .ok (kind.bytes code (bytes change.2))) :
    changesItem value changes = .ok (.Lst (kind.items code (changesOf bytes changes))) := by
  have hitems := @mapM_eq_ok_map _ _ _
    (fun change : Nat × α => do return Item.Lst [.Str (beBytes change.1), .Str (← value change.2)])
    (fun change => Change.item code kind ⟨UInt32.ofNat change.1, bytes change.2⟩) changes (by
      intro change hchange
      have hlt := hindex change hchange
      rw [hvalue change hchange, Change.item, UInt32.toNat_ofNat_of_lt' hlt]
      rfl)
  rw [changesItem, hitems, Kind.items, changesOf, map_map]
  rfl

theorem changesItem_words {code : Bytes32 → Bytes} {changes : List (Nat × Word)} (hindex : Indexed changes) :
    changesItem (fun w => .ok (beBytes w.toNat)) changes =
      .ok (.Lst (Kind.Integer.items code (changesOf wordBytes changes))) :=
  changesItem_eq hindex fun change _ => congrArg Except.ok (beBytes_spread change.2.isLt).symm

theorem changedSlots_map (records : List (Bytes32 × List (Nat × Word))) :
    changedSlots (records.map slotOf) = (records.filter fun record => record.2 ≠ []).map slotOf := by
  rw [changedSlots, filter_map]
  congr 2
  funext record
  obtain ⟨key, changes⟩ := record
  cases changes <;> rfl

theorem readSlots_map (records : List (Bytes32 × List (Nat × Word))) :
    readSlots (records.map slotOf) = (records.filter fun record => record.2 = []).map slotOf := by
  rw [readSlots, filter_map]
  congr 2
  funext record
  obtain ⟨key, changes⟩ := record
  cases changes <;> rfl

theorem slotsItems_eq {code : Bytes32 → Bytes} {bal : BlockAccessList} {slots : List (Bytes32 × Nat)}
    (hindex : ∀ record ∈ recordsOf bal slots, Indexed record.2) :
    slotsItems bal slots = .ok
      (.Lst ((changedSlots ((recordsOf bal slots).map slotOf)).map (Slot.item code)),
        .Lst ((readSlots ((recordsOf bal slots).map slotOf)).map fun slot => wordItem slot.key)) := by
  have hchanged := @mapM_eq_ok_map _ _ _
    (fun record : Bytes32 × List (Nat × Word) => do
      let changes ← changesItem (fun w => .ok (beBytes w.toNat)) record.2
      return Item.Lst [AccessList.wordItem (Word.ofBytes record.1.toList), changes])
    (fun record => (slotOf record).item code) ((recordsOf bal slots).filter fun record => record.2 ≠ []) (by
      intro record hrecord
      rw [changesItem_words (hindex record (mem_filter.1 hrecord).1), wordItem_position]
      rfl)
  rw [changedSlots_map, readSlots_map, map_map, map_map]
  simp only [slotsItems]
  rw [show (slots.filterMap fun slot => (bal.slots slot.2).map fun record => (slot.1, record.track.changes)) =
    recordsOf bal slots from rfl, hchanged]
  have hreads := map_congr_left (l := (recordsOf bal slots).filter fun record => record.2 = [])
    fun record _ => wordItem_position record.1
  rw [hreads]
  rfl

-- The final pass hashes what the encoder writes.
theorem final_pass_hashes_encoding (contracts : Contracts) (code : Bytes32 → Bytes) (bal : BlockAccessList)
    (entries : List AccessList.Entry) (hindex : ∀ entry ∈ entries, RecordsIndexed bal entry)
    (hcode : Resolves contracts code (entries.map (entryOf bal)))
    (hlen : (encodeAll ((accessList code (entries.map (entryOf bal))).map Listed.item)).length < 2 ^ 32) :
    encodeEntries (codeOf contracts) bal entries = encode contracts (entries.map (entryOf bal)) := by
  have hitem : ∀ entry ∈ entries,
      entryItem (codeOf contracts) bal entry = .ok (.Lst ((entryOf bal entry).items code)) := by
    intro entry hentry
    have hresolved := hcode _ (mem_map_of_mem hentry)
    have hcodes : changesItem (fun h => if h = kEmptyCodeHash then .ok [] else codeOf contracts h)
        (bal.accounts entry.row).code = .ok (.Lst (Kind.Code.items code (entryOf bal entry).account.code)) := by
      apply changesItem_eq (hindex entry hentry).code
      intro change hchange
      have h : codeOf contracts change.2 = .ok (code change.2) := hresolved _ (mem_map_of_mem hchange)
      split
      · next hempty => rwa [codeOf, if_pos hempty] at h
      · exact h
    have hnonces : changesItem (fun n : UInt64 => .ok (beBytes n.toNat)) (bal.accounts entry.row).nonce =
        .ok (.Lst (Kind.Integer.items code (entryOf bal entry).account.nonce)) :=
      changesItem_eq (hindex entry hentry).nonce fun change _ =>
        congrArg Except.ok (beBytes_spread (Nat.lt_trans change.2.toNat_lt (by decide))).symm
    have hslots := @slotsItems_eq code _ _ (hindex entry hentry).slots
    have hbalance := @changesItem_words code _ (hindex entry hentry).balance
    simp only [entryItem, bind, Except.bind, hslots, hbalance, hnonces, hcodes]
    rfl
  rw [accessList_items] at hlen
  rw [encode_eq hcode hlen, encodeEntries, mapM_eq_ok_map hitem, map_map]
  rfl

-- One code, under its hash.
def oneContract (hash : Bytes32) (code : Bytes) : Contracts where
  contracts := [⟨hash, code, .Heap, none, false⟩]
  index := fun h => if h = hash then some 0 else none
  staged := []

theorem codeOf_oneContract {hash : Bytes32} (code : Bytes) (hhash : hash ≠ kEmptyCodeHash) :
    codeOf (oneContract hash code) hash = .ok code := by
  simp [codeOf, if_neg hhash, Contracts.byHash, oneContract]

-- An account that is paid in the first transaction.
def payment : BlockAccessList :=
  { BlockAccessList.init with accounts := fun _ => { AccountRecord.init with balance := [(1, 70000)] } }

theorem final_pass_hashes_encoding_payment :
    encodeEntries (codeOf (oneContract (digestOf 9) [])) payment [⟨addressOf 1, 0, []⟩] =
      encode (oneContract (digestOf 9) []) [entryOf payment ⟨addressOf 1, 0, []⟩] := by
  apply final_pass_hashes_encoding _ (fun _ => []) payment [⟨addressOf 1, 0, []⟩]
  · intro entry _
    exact ⟨by simp [Indexed, payment], by simp [Indexed, payment, AccountRecord.init],
      by simp [Indexed, payment, AccountRecord.init], by simp [recordsOf, payment, BlockAccessList.init]⟩
  · intro entry hentry change hchange
    obtain rfl := mem_singleton.1 hentry
    cases hchange
  · decide +kernel

-- An account that gets code in the first transaction; it changes one slot and reads another.
def deployment : Entry where
  address := addressOf 1
  account := ⟨[⟨0, digestOf 0⟩, ⟨300, digestOf 70000⟩], [⟨1, digestOf 1⟩], [⟨1, digestOf 9⟩]⟩
  slots := [⟨digestOf 0, []⟩, ⟨digestOf 1, [⟨1, digestOf 127⟩, ⟨2, digestOf 128⟩]⟩]

theorem encoder_canonical_deployment :
    Resolves (oneContract (digestOf 9) [0x60, 0x00]) (fun _ => [0x60, 0x00]) [deployment] ∧
      (encodeAll ((accessList (fun _ => [0x60, 0x00]) [deployment]).map Listed.item)).length < 2 ^ 32 ∧
      encode (oneContract (digestOf 9) [0x60, 0x00]) [deployment] =
        .ok (Rlp.encode (listItem (accessList (fun _ => [0x60, 0x00]) [deployment]))) := by
  have hcode : Resolves (oneContract (digestOf 9) [0x60, 0x00]) (fun _ => [0x60, 0x00]) [deployment] := by
    intro e he c hc
    obtain rfl := List.mem_singleton.1 he
    obtain rfl := List.mem_singleton.1 hc
    exact codeOf_oneContract _ (by decide)
  have hlen : (encodeAll ((accessList (fun _ => [0x60, 0x00]) [deployment]).map Listed.item)).length < 2 ^ 32 := by
    decide +kernel
  exact ⟨hcode, hlen, (encoder_canonical _ _ _ hcode hlen).1⟩

-- An account of which only the code changes.
def codeChange : Entry where
  address := addressOf 1
  account := ⟨[], [], [⟨1, digestOf 9⟩]⟩
  slots := []

-- The header of a 4 GiB string has six bytes.
theorem strSize_of_long {s : Bytes} (hlen : s.length = 2 ^ 32) : strSize s = .error "write past the end of hdr[5]" := by
  have hnot : ¬(s.length = 1 ∧ s.headD 0 < 0x80) := fun h => by omega
  rw [strSize, if_neg hnot, hlen]
  decide

theorem encode_of_long_code {code : Bytes} (hlen : code.length = 2 ^ 32) :
    encode (oneContract (digestOf 9) code) [codeChange] = .error "write past the end of hdr[5]" := by
  have hpayload : listPayload (oneContract (digestOf 9) code) .Code codeChange.account.code =
      .error "write past the end of hdr[5]" := by
    rw [listPayload, codeChange, sumSizes_cons, changeSize, valueSize, codeOf_oneContract code (by decide)]
    show (strSize code >>= _ : Except String Nat) >>= _ = _
    rw [strSize_of_long hlen]
    rfl
  have hsizes : entrySizes (oneContract (digestOf 9) code) codeChange = .error "write past the end of hdr[5]" := by
    show (listPayload (oneContract (digestOf 9) code) .Code codeChange.account.code >>= _ : Except String Sizes) = _
    rw [hpayload]
    rfl
  rw [encode, mapM_cons, hsizes]
  rfl

theorem long_code_overruns_header :
    encode (oneContract (digestOf 9) (List.replicate (2 ^ 32) 0)) [codeChange] =
      .error "write past the end of hdr[5]" :=
  encode_of_long_code List.length_replicate

end Zeg.AccessList.Encoder
