import Zeg.RlpCodec.Writers
import Zeg.Transactions.Canonical

-- Receipts: sized first, then written once into a buffer of that size.
namespace Zeg.Receipt

open Base Base.Writer List
open Base.Rlp hiding Item encode decode
open RlpCodec (headerInto headerInto_eq beBytes_u64_injective)
open Gas (TxType)
open AccessList.Encoder (itemSize itemSize_eq strSize strSize_eq writeString writeString_eq writeU64 writeU64_eq
  encodeAll_map length_encode_le_of_mem)

structure LogEntry where
  address : Address
  topics : List Bytes32
  data : Bytes

structure TxReceipt where
  txType : TxType
  status : Bool
  cumulativeGasUsed : UInt64
  logsBloom : List.Vector UInt8 256
  logs : List LogEntry

def typeByte : TxType → UInt8
  | .Legacy => 0
  | .AccessList => 1
  | .DynamicFee => 2
  | .Blob => 3
  | .SetCode => 4
  | .Osaka => 5

def topicsSize (log : LogEntry) : Except String Nat := do return sizeT (log.topics.length * (← itemSize 32))

-- [address, [topics...], data]
def logPayload (log : LogEntry) : Except String Nat := do
  let topics ← topicsSize log
  let data ← strSize log.data
  return sizeT ((← itemSize 20) + (← itemSize topics) + data)

section

variable (room : Nat)

def writeListHeader (payloadLen : Nat) (out : Bytes) : Except String Bytes := do
  put room (← headerInto 0xc0 0xf7 payloadLen) out

def writeBytes (src out : Bytes) : Except String Bytes := do
  put room (← writeString src) out

def writeLog (out : Bytes) (log : LogEntry) : Except String Bytes := do
  let out ← writeListHeader room (← logPayload log) out
  let out ← writeBytes room log.address.toList out
  let out ← writeListHeader room (← topicsSize log) out
  let out ← log.topics.foldlM (fun out t => writeBytes room t.toList out) out
  writeBytes room log.data out

def writeType (type : TxType) (out : Bytes) : Except String Bytes :=
  if type ≠ .Legacy then put room [typeByte type] out else .ok out

def writeBody (r : TxReceipt) (bodyPayload logsPayload : Nat) (status cumGas out : Bytes) : Except String Bytes := do
  let out ← writeListHeader room bodyPayload out
  let out ← put room status out
  let out ← put room cumGas out
  let out ← writeBytes room r.logsBloom.toList out
  let out ← writeListHeader room logsPayload out
  r.logs.foldlM (writeLog room) out

end

-- status_buf and cum_gas_buf are local arrays of nine bytes.
def encodeReceipt (r : TxReceipt) : Except String Bytes := do
  let logsPayload ← sumSizes (fun log => do itemSize (← logPayload log)) r.logs 0
  let status ← put 9 (← writeU64 (if r.status then 1 else 0)) []
  let cumGas ← put 9 (← writeU64 r.cumulativeGasUsed) []
  let bodyPayload := sizeT (status.length + cumGas.length + (← itemSize r.logsBloom.toList.length) +
    (← itemSize logsPayload))
  let room := sizeT ((if r.txType ≠ .Legacy then 1 else 0) + (← itemSize bodyPayload))
  let out ← writeBody room r bodyPayload logsPayload status cumGas (← writeType room r.txType [])
  if out.length ≠ room then .error "encode_receipt: size mismatch" else return out

-- The canonical encoding

def logItem (log : LogEntry) : Rlp.Item :=
  .Lst [.Str log.address.toList, .Lst (log.topics.map fun t => .Str t.toList), .Str log.data]

def bodyItem (r : TxReceipt) : Rlp.Item :=
  .Lst [.Str (beBytes (if r.status then 1 else 0)), .Str (beBytes r.cumulativeGasUsed.toNat), .Str r.logsBloom.toList,
    .Lst (r.logs.map logItem)]

def canonical (r : TxReceipt) : Bytes :=
  (if r.txType ≠ .Legacy then [typeByte r.txType] else []) ++ Rlp.encode (bodyItem r)

theorem encode_logItem (log : LogEntry) : Rlp.encode (logItem log) =
    wrap (encodeStr log.address.toList ++
      (wrap (log.topics.flatMap fun t => encodeStr t.toList) ++ encodeStr log.data)) := by
  simp only [logItem, Rlp.encode, encodeAll, encodeAll_map, append_nil]

theorem encode_bodyItem (r : TxReceipt) : Rlp.encode (bodyItem r) =
    wrap (encodeStr (beBytes (if r.status then 1 else 0)) ++ (encodeStr (beBytes r.cumulativeGasUsed.toNat) ++
      (encodeStr r.logsBloom.toList ++ wrap (r.logs.flatMap fun log => Rlp.encode (logItem log))))) := by
  simp only [bodyItem, Rlp.encode, encodeAll, encodeAll_map, append_nil]

-- Sizes

def topicsBytes (log : LogEntry) : Bytes := log.topics.flatMap fun t => encodeStr t.toList

def logBytes (log : LogEntry) : Bytes :=
  encodeStr log.address.toList ++ (wrap (topicsBytes log) ++ encodeStr log.data)

theorem length_encodeStr_short {bytes : Bytes} (hlow : 1 < bytes.length) (hhigh : bytes.length ≤ 55) :
    (encodeStr bytes).length = bytes.length + 1 := by
  have hsingle : ∀ b, bytes = [b] → 0x80 ≤ b.toNat := by
    rintro b rfl
    exact absurd hlow (Nat.lt_irrefl 1)
  rw [RlpCodec.encodeStr_of_length hsingle, header, if_pos hhigh, length_append, length_singleton]
  exact Nat.add_comm 1 bytes.length

theorem length_topicsBytes (log : LogEntry) : (topicsBytes log).length = log.topics.length * 33 := by
  unfold topicsBytes
  induction log.topics with
  | nil => rfl
  | cons t topics ih =>
    have ht : t.toList.length = 32 := t.toList_length
    rw [flatMap_cons, length_append, ih, length_cons, length_encodeStr_short (by omega) (by omega), ht]
    omega

theorem topicsSize_eq {log : LogEntry} (hlen : (topicsBytes log).length < 2 ^ 32) :
    topicsSize log = .ok (topicsBytes log).length := by
  rw [length_topicsBytes] at hlen ⊢
  show Except.ok (sizeT (log.topics.length * 33)) = _
  rw [sizeT_of_lt (by omega)]

theorem length_logBytes (log : LogEntry) :
    (logBytes log).length = 21 + (wrap (topicsBytes log)).length + (encodeStr log.data).length := by
  have haddress : log.address.toList.length = 20 := log.address.toList_length
  rw [logBytes, length_append, length_append, length_encodeStr_short (by omega) (by omega), haddress]
  omega

theorem logPayload_eq {log : LogEntry} (hlen : (logBytes log).length < 2 ^ 32) :
    logPayload log = .ok (logBytes log).length := by
  have hwrap := length_wrap (topicsBytes log)
  have hdata := length_le_encodeStr log.data
  have hsplit := length_logBytes log
  rw [logPayload, topicsSize_eq (by omega), ok_bind, strSize_eq (by omega), ok_bind, itemSize_eq (by omega)]
  show Except.ok (sizeT (21 + _ + _)) = _
  rw [← hsplit, sizeT_of_lt (by omega)]

-- Bytes

section

variable {room : Nat}

theorem writes_listHeader (payload : Bytes) (hlen : payload.length < 2 ^ 32) :
    Writes room (writeListHeader room payload.length) (header 0xc0 0xf7 payload.length) := by
  intro out hout
  rw [writeListHeader, headerInto_eq hlen]
  exact writes_put _ out hout

theorem writes_bytes (src : Bytes) (hlen : src.length < 2 ^ 32) : Writes room (writeBytes room src) (encodeStr src) := by
  intro out hout
  rw [writeBytes, writeString_eq hlen]
  exact writes_put _ out hout

theorem writes_log {log : LogEntry} (hlen : (logBytes log).length < 2 ^ 32) :
    Writes room (fun out => writeLog room out log) (Rlp.encode (logItem log)) := by
  have hwrap := length_wrap (topicsBytes log)
  have hdata := length_le_encodeStr log.data
  have hsplit := length_logBytes log
  have haddress : log.address.toList.length = 20 := log.address.toList_length
  have htopics : Writes room (fun out => log.topics.foldlM (fun out t => writeBytes room t.toList out) out)
      (topicsBytes log) := by
    apply Writes.foldlM
    intro t _
    exact writes_bytes t.toList (by rw [t.toList_length]; decide)
  have hall : Writes room _ _ := (writes_listHeader (logBytes log) hlen).bind
    ((writes_bytes log.address.toList (by omega)).bind ((writes_listHeader (topicsBytes log) (by omega)).bind
      (htopics.bind (writes_bytes log.data (by omega)))))
  have hbytes : Rlp.encode (logItem log) = header 0xc0 0xf7 (logBytes log).length ++ (encodeStr log.address.toList ++
      (header 0xc0 0xf7 (topicsBytes log).length ++ (topicsBytes log ++ encodeStr log.data))) := by
    rw [encode_logItem]
    show wrap (logBytes log) = _
    rw [wrap, logBytes, wrap, append_assoc]
  intro out hout
  rw [hbytes] at hout ⊢
  simp only [writeLog, logPayload_eq hlen, topicsSize_eq (show (topicsBytes log).length < 2 ^ 32 by omega), ok_bind]
  exact hall out hout

end

-- The receipt

def logsBytes (r : TxReceipt) : Bytes := r.logs.flatMap fun log => Rlp.encode (logItem log)

def statusBytes (r : TxReceipt) : Bytes := encodeStr (beBytes (if r.status then 1 else 0))

def cumGasBytes (r : TxReceipt) : Bytes := encodeStr (beBytes r.cumulativeGasUsed.toNat)

def bodyBytes (r : TxReceipt) : Bytes :=
  statusBytes r ++ (cumGasBytes r ++ (encodeStr r.logsBloom.toList ++ wrap (logsBytes r)))

def prefixBytes (r : TxReceipt) : Bytes := if r.txType ≠ .Legacy then [typeByte r.txType] else []

theorem length_log_lt {r : TxReceipt} {log : LogEntry} (hlog : log ∈ r.logs) :
    (logBytes log).length < (logsBytes r).length := by
  have hmem := length_encode_le_of_mem (mem_map_of_mem (f := logItem) hlog)
  rw [encodeAll_map, encode_logItem] at hmem
  exact Nat.lt_of_lt_of_le (length_wrap _) hmem

theorem logsPayload_eq {r : TxReceipt} (hlen : (logsBytes r).length < 2 ^ 32) :
    sumSizes (fun log => do itemSize (← logPayload log)) r.logs 0 = .ok (logsBytes r).length := by
  have hsum := sumSizes_eq (fun log => do itemSize (← logPayload log)) (fun log => Rlp.encode (logItem log)) (2 ^ 32)
    (by decide) r.logs (by
      intro log hlog _
      have hlog := length_log_lt hlog
      rw [logPayload_eq (by omega), ok_bind, itemSize_eq (by omega), encode_logItem]
      rfl) 0 (by rw [Nat.zero_add]; exact hlen)
  rwa [Nat.zero_add] at hsum

theorem writes_logs {room : Nat} {r : TxReceipt} (hlen : (logsBytes r).length < 2 ^ 32) :
    Writes room (fun out => r.logs.foldlM (writeLog room) out) (logsBytes r) := by
  apply Writes.foldlM
  intro log hlog
  exact writes_log (Nat.lt_trans (length_log_lt hlog) hlen)

theorem length_statusBytes (r : TxReceipt) : (statusBytes r).length = 1 := by
  rw [statusBytes]
  cases r.status with
  | false => rfl
  | true => rfl

theorem length_cumGasBytes (r : TxReceipt) : (cumGasBytes r).length ≤ 9 := by
  have hlen := RlpCodec.length_beBytes_u64 r.cumulativeGasUsed
  rw [cumGasBytes]
  exact Nat.le_trans (Transactions.length_encodeStr_small (by omega)) (by omega)

theorem canonical_eq (r : TxReceipt) : canonical r = prefixBytes r ++ wrap (bodyBytes r) := by
  rw [canonical, encode_bodyItem]
  rfl

theorem bloomSize_eq (r : TxReceipt) :
    itemSize r.logsBloom.toList.length = .ok (encodeStr r.logsBloom.toList).length := by
  have hlen : r.logsBloom.toList.length = 256 := r.logsBloom.toList_length
  have hsize := (@RlpCodec.writesSame r.logsBloom.toList (by omega)).stringSize (fun h => by omega)
  rwa [RlpCodec.encode_eq (by omega)] at hsize

theorem length_bodyBytes (r : TxReceipt) : (bodyBytes r).length =
    (statusBytes r).length + (cumGasBytes r).length + (encodeStr r.logsBloom.toList).length +
      (wrap (logsBytes r)).length := by
  rw [bodyBytes, length_append, length_append, length_append]
  omega

theorem writes_body {room : Nat} {r : TxReceipt} (hlen : (bodyBytes r).length < 2 ^ 32) :
    Writes room (writeBody room r (bodyBytes r).length (logsBytes r).length (statusBytes r) (cumGasBytes r))
      (wrap (bodyBytes r)) := by
  have hsplit := length_bodyBytes r
  have hlogs := length_wrap (logsBytes r)
  have hbloom : r.logsBloom.toList.length = 256 := r.logsBloom.toList_length
  have hall : Writes room _ _ := (writes_listHeader (bodyBytes r) hlen).bind ((writes_put (statusBytes r)).bind
    ((writes_put (cumGasBytes r)).bind ((writes_bytes r.logsBloom.toList (by omega)).bind
      ((writes_listHeader (logsBytes r) (by omega)).bind (@writes_logs room r (by omega))))))
  exact hall

theorem writes_type {room : Nat} (r : TxReceipt) : Writes room (writeType room r.txType) (prefixBytes r) := by
  intro out hout
  rw [prefixBytes] at hout ⊢
  rw [writeType]
  by_cases htyped : r.txType ≠ .Legacy
  · rw [if_pos htyped] at hout
    rw [if_pos htyped, if_pos htyped]
    exact writes_put _ out hout
  · rw [if_neg htyped, if_neg htyped, append_nil]

theorem length_prefixBytes (r : TxReceipt) : (prefixBytes r).length = if r.txType ≠ .Legacy then 1 else 0 := by
  rw [prefixBytes, apply_ite List.length]
  rfl

theorem put_local {bytes : Bytes} (hle : bytes.length ≤ 9) : put 9 bytes [] = .ok bytes := by
  have h := @writes_put 9 bytes [] (by rw [length_nil]; omega)
  rwa [nil_append] at h

theorem writeStatus_eq (r : TxReceipt) : writeU64 (if r.status then 1 else 0) = .ok (statusBytes r) := by
  rw [writeU64_eq, statusBytes]
  cases r.status with
  | false => rfl
  | true => rfl

-- The sizes are those of the bytes, so the two passes meet.
theorem encodeReceipt_eq {r : TxReceipt} (hlen : (canonical r).length < 2 ^ 32) : encodeReceipt r = .ok (canonical r) := by
  rw [canonical_eq, length_append] at hlen
  have hwrap := length_wrap (bodyBytes r)
  have hsplit := length_bodyBytes r
  have hlogs := length_wrap (logsBytes r)
  have hone := length_statusBytes r
  have hnine := length_cumGasBytes r
  have hroom : sizeT ((if r.txType ≠ .Legacy then 1 else 0) + (wrap (bodyBytes r)).length) =
      (prefixBytes r ++ wrap (bodyBytes r)).length := by
    rw [← length_prefixBytes, sizeT_of_lt (by omega), length_append]
  have hwrites := (@writes_type (prefixBytes r ++ wrap (bodyBytes r)).length r).bind (writes_body (r := r) (by omega)) []
    (by rw [length_nil, Nat.zero_add])
  have hgas : writeU64 r.cumulativeGasUsed = .ok (cumGasBytes r) := writeU64_eq _
  rw [canonical_eq]
  simp only [encodeReceipt, logsPayload_eq (show (logsBytes r).length < 2 ^ 32 by omega), writeStatus_eq, hgas, ok_bind,
    put_local (show (statusBytes r).length ≤ 9 by omega), put_local hnine, bloomSize_eq,
    itemSize_eq (show (logsBytes r).length < 2 ^ 32 by omega), ← hsplit,
    sizeT_of_lt (show (bodyBytes r).length < 2 ^ 64 by omega), itemSize_eq (show (bodyBytes r).length < 2 ^ 32 by omega),
    hroom]
  obtain ⟨front, hfront, hback⟩ := bind_eq_ok.1 hwrites
  rw [hfront, ok_bind, hback, ok_bind, nil_append]
  exact if_neg (not_not.2 rfl)

theorem logItem_injective {log log' : LogEntry} (h : logItem log = logItem log') : log = log' := by
  obtain ⟨address, topics, data⟩ := log
  obtain ⟨address', topics', data'⟩ := log'
  simp only [logItem, Rlp.Item.Lst.injEq, List.cons.injEq, Rlp.Item.Str.injEq, and_true] at h
  obtain ⟨haddress, htopics, rfl⟩ := h
  have htopic : Function.Injective fun t : Bytes32 => Rlp.Item.Str t.toList :=
    fun s t hst => List.Vector.eq s t (Rlp.Item.Str.inj hst)
  rw [List.Vector.eq _ _ haddress, map_injective_iff.2 htopic htopics]

theorem bodyItem_injective {r r' : TxReceipt} (h : bodyItem r = bodyItem r') (htype : r.txType = r'.txType) : r = r' := by
  obtain ⟨type, status, gas, bloom, logs⟩ := r
  obtain ⟨type', status', gas', bloom', logs'⟩ := r'
  simp only [bodyItem, Rlp.Item.Lst.injEq, List.cons.injEq, Rlp.Item.Str.injEq, and_true] at h
  obtain ⟨hstatus, hgas, hbloom, hlogs⟩ := h
  have hflag : status = status' := by
    have hbit : beBytes 1 ≠ beBytes 0 := by decide
    cases status <;> cases status' <;> first | rfl | exact absurd hstatus hbit | exact absurd hstatus.symm hbit
  dsimp only at htype
  rw [htype, hflag, beBytes_u64_injective hgas, List.Vector.eq _ _ hbloom,
    map_injective_iff.2 (fun _ _ => logItem_injective) hlogs]

theorem typeByte_injective {type type' : TxType} (h : typeByte type = typeByte type') : type = type' := by
  cases type <;> cases type' <;> first | rfl | exact absurd h (by decide)

theorem typeByte_lt (type : TxType) : typeByte type < 0xc0 := by cases type <;> decide

theorem canonical_cons {r : TxReceipt} (hlen : (canonical r).length < 2 ^ 64) : ∃ b rest, canonical r = b :: rest ∧
    if r.txType ≠ .Legacy then b = typeByte r.txType ∧ rest = Rlp.encode (bodyItem r)
    else 0xc0 ≤ b ∧ b :: rest = Rlp.encode (bodyItem r) := by
  by_cases htyped : r.txType ≠ .Legacy
  · refine ⟨typeByte r.txType, Rlp.encode (bodyItem r), ?_, ?_⟩
    · rw [canonical, if_pos htyped, singleton_append]
    · rw [if_pos htyped]
      exact ⟨rfl, rfl⟩
  · have hwrap := length_wrap (bodyBytes r)
    rw [canonical_eq, length_append] at hlen
    obtain ⟨b, rest, hcons, hb⟩ := Transactions.head_wrap (bodyBytes r) (by omega)
    have hbody : Rlp.encode (bodyItem r) = b :: rest := by
      rw [encode_bodyItem]
      exact hcons
    refine ⟨b, rest, ?_, ?_⟩
    · rw [canonical, if_neg htyped, nil_append, hbody]
    · rw [if_neg htyped]
      exact ⟨hb, hbody.symm⟩

theorem canonical_injective {r r' : TxReceipt} (hlen : (canonical r).length < 2 ^ 64)
    (h : canonical r = canonical r') : r = r' := by
  have hbody : (Rlp.encode (bodyItem r)).length < 2 ^ 64 := by
    rw [canonical, length_append] at hlen
    omega
  obtain ⟨b, rest, hcons, hr⟩ := canonical_cons hlen
  obtain ⟨b', rest', hcons', hr'⟩ := canonical_cons (h ▸ hlen)
  rw [h, hcons'] at hcons
  obtain ⟨rfl, rfl⟩ := List.cons.inj hcons
  by_cases htyped : r.txType ≠ .Legacy
  · rw [if_pos htyped] at hr
    by_cases htyped' : r'.txType ≠ .Legacy
    · rw [if_pos htyped'] at hr'
      exact bodyItem_injective (Rlp.encode_injective hbody (hr.2.symm.trans hr'.2))
        (typeByte_injective (hr.1.symm.trans hr'.1))
    · rw [if_neg htyped', hr.1] at hr'
      exact absurd (typeByte_lt r.txType) (UInt8.not_lt.2 hr'.1)
  · rw [if_neg htyped] at hr
    by_cases htyped' : r'.txType ≠ .Legacy
    · rw [if_pos htyped'] at hr'
      rw [hr'.1] at hr
      exact absurd (typeByte_lt r'.txType) (UInt8.not_lt.2 hr.1)
    · rw [if_neg htyped'] at hr'
      exact bodyItem_injective (Rlp.encode_injective hbody (hr.2.symm.trans hr'.2))
        ((not_not.1 htyped).trans (not_not.1 htyped').symm)

end Zeg.Receipt
