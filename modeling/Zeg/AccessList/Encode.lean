import Zeg.AccessList.Hash
import Zeg.Base.BigEndian
import Zeg.Base.Writer
import Zeg.CodeTable

-- The encoder of the block access list: sizes in a first pass, bytes in a second.
namespace Zeg.AccessList.Encoder

open Base Base.Rlp Base.BigEndian Base.Writer CodeTable

structure Change where
  index : UInt32
  value : Bytes32

structure Slot where
  key : Bytes32
  changes : List Change

structure Account where
  balance : List Change
  nonce : List Change
  code : List Change

structure Entry where
  address : Address
  account : Account
  slots : List Slot

-- for (v = payload_len >> 8; v; v >>= 8) ++n, from n = 1
def lengthBytes : Nat → Nat → Nat
  | 0, _ => 0
  | fuel + 1, len => if len >>> 8 = 0 then 1 else lengthBytes fuel (len >>> 8) + 1

def makeHeader (shortBase longBase payloadLen : Nat) : Bytes :=
  if payloadLen ≤ 55 then [UInt8.ofNat (shortBase + payloadLen)]
  else
    let n := lengthBytes 8 payloadLen
    UInt8.ofNat (longBase + n) :: spread n payloadLen

-- uint8_t hdr[5] on the caller's stack
def headerRoom : Nat := 5

def localHeader (payloadLen : Nat) : Except String Bytes :=
  let hdr := makeHeader 0x80 0xb7 payloadLen
  if headerRoom < hdr.length then .error "write past the end of hdr[5]" else .ok hdr

def itemSize (payloadLen : Nat) : Except String Nat := do
  return sizeT ((← localHeader payloadLen).length + payloadLen)

-- What the call writes at `dst`.
def writeString (src : Bytes) : Except String Bytes :=
  if src.length = 1 ∧ src.headD 0 < 0x80 then .ok src
  else if src.length ≤ 55 then .ok (UInt8.ofNat (0x80 + src.length) :: src)
  else do return (← localHeader src.length) ++ src

def writeU64 (v : UInt64) : Except String Bytes :=
  let start := if v ≠ 0 then clz v.toNat >>> 3 else 8
  writeString ((spread 8 v.toNat).drop start)

def u256SignificantStart (v : Bytes32) : Nat := scan 4 0 v.toList

def intSize (v : Bytes32) : Nat :=
  let len := 32 - u256SignificantStart v
  if len = 1 ∧ v.toList.getD 31 0 < 0x80 then 1 else 1 + len

def writeInt (v : Bytes32) : Except String Bytes := writeString (v.toList.drop (u256SignificantStart v))

def strSize (s : Bytes) : Except String Nat :=
  if s.length = 1 ∧ s.headD 0 < 0x80 then .ok 1 else itemSize s.length

def indexSize (i : UInt32) : Nat :=
  if i < 0x80 then 1 else if i < 0x100 then 2 else if i < 0x10000 then 3 else if i < 0x1000000 then 4 else 5

def listHeader (payloadLen : Nat) : Bytes := makeHeader 0xc0 0xf7 payloadLen

inductive Kind where
  | Integer
  | Code

structure Sizes where
  sc : Nat
  sr : Nat
  bal : Nat
  nonce : Nat
  code : Nat
  payload : Nat

section

variable (contracts : Contracts)

def codeOf (hash : Bytes32) : Except String Bytes :=
  if hash = kEmptyCodeHash then .ok []
  else
    match contracts.byHash hash with
    | some c => .ok c.code
    | none => .error "Contracts::index_of: code hash not present in the table"

def valueSize : Kind → Bytes32 → Except String Nat
  | .Integer, value => .ok (intSize value)
  | .Code, value => do strSize (← codeOf contracts value)

def writeValue : Kind → Bytes32 → Except String Bytes
  | .Integer, value => writeInt value
  | .Code, value => do writeString (← codeOf contracts value)

def changeSize (kind : Kind) (c : Change) : Except String Nat := do
  itemSize (sizeT (indexSize c.index + (← valueSize contracts kind c.value)))

def listPayload (kind : Kind) (l : List Change) : Except String Nat := sumSizes (changeSize contracts kind) l 0

def changedSize (slot : Slot) : Except String Nat := do
  itemSize (sizeT (intSize slot.key + (← itemSize (← listPayload contracts .Integer slot.changes))))

def slotSize (s : Nat × Nat) (slot : Slot) : Except String (Nat × Nat) :=
  if slot.changes.isEmpty then .ok (s.1, sizeT (s.2 + intSize slot.key))
  else do return (sizeT (s.1 + (← changedSize contracts slot)), s.2)

-- The payloads of the changed slots and of the unchanged ones.
def slotSizes (slots : List Slot) (s : Nat × Nat) : Except String (Nat × Nat) :=
  slots.foldlM (slotSize contracts) s

def entrySizes (e : Entry) : Except String Sizes := do
  let (sc, sr) ← slotSizes contracts e.slots (0, 0)
  let bal ← listPayload contracts .Integer e.account.balance
  let nonce ← listPayload contracts .Integer e.account.nonce
  let code ← listPayload contracts .Code e.account.code
  let payload := 21 + (← itemSize sc) + (← itemSize sr) + (← itemSize bal) + (← itemSize nonce) +
    (← itemSize code)
  return { sc, sr, bal, nonce, code, payload := sizeT payload }

section

variable (room : Nat)

def writeChange (kind : Kind) (out : Bytes) (c : Change) : Except String Bytes := do
  let v ← valueSize contracts kind c.value
  let out ← put room (listHeader (sizeT (indexSize c.index + v))) out
  let out ← put room (← writeU64 c.index.toUInt64) out
  put room (← writeValue contracts kind c.value) out

def writeChanges (l : List Change) (payload : Nat) (kind : Kind) (out : Bytes) : Except String Bytes := do
  l.foldlM (writeChange contracts room kind) (← put room (listHeader payload) out)

def writeChanged (out : Bytes) (slot : Slot) : Except String Bytes := do
  if slot.changes.isEmpty then return out
  else
    let cl ← listPayload contracts .Integer slot.changes
    let out ← put room (listHeader (sizeT (intSize slot.key + (← itemSize cl)))) out
    let out ← put room (← writeInt slot.key) out
    writeChanges contracts room slot.changes cl .Integer out

def writeRead (out : Bytes) (slot : Slot) : Except String Bytes := do
  if slot.changes.isEmpty then put room (← writeInt slot.key) out else return out

def writeEntry (out : Bytes) (entry : Entry × Sizes) : Except String Bytes := do
  let (e, s) := entry
  let out ← put room (listHeader s.payload) out
  let out ← put room (← writeString e.address.toList) out
  let out ← put room (listHeader s.sc) out
  let out ← e.slots.foldlM (writeChanged contracts room) out
  let out ← put room (listHeader s.sr) out
  let out ← e.slots.foldlM (writeRead room) out
  let out ← writeChanges contracts room e.account.balance s.bal .Integer out
  let out ← writeChanges contracts room e.account.nonce s.nonce .Integer out
  writeChanges contracts room e.account.code s.code .Code out

end

def encode (entries : List Entry) : Except String Bytes := do
  let sizes ← entries.mapM (entrySizes contracts)
  let total ← sumSizes (fun s : Sizes => itemSize s.payload) sizes 0
  let room ← itemSize total
  let out ← put room (listHeader total) []
  let out ← (entries.zip sizes).foldlM (writeEntry contracts room) out
  if out.length ≠ room then .error "BAL: encoder size mismatch" else return out

end

end Zeg.AccessList.Encoder
