import Zeg.Gas.Transaction
import Zeg.RlpCodec
import Zeg.Stream

-- The transactions section: envelopes read field by field, their signing preimages and senders.
namespace Zeg.Transactions

open Base RlpCodec Zeg.Stream
open Gas (TxType)

structure View where
  type : TxType
  chainId : UInt64
  nonce : UInt64
  gasPrice : Word
  maxPriorityFeePerGas : Word
  maxFeePerGas : Word
  gasLimit : UInt64
  to? : Option Address
  value : Word
  data : Bytes
  accessListRlp : Bytes
  maxFeePerBlobGas : Word
  blobVersionedHashesRlp : Bytes
  authorizationListRlp : Bytes
  numAuthorizations : Nat
  initcodesRlp : Bytes
  vOrYParity : UInt64
  r : Word
  s : Word
  envelope : Bytes
  transactionHash : Bytes32
  sender : Address
deriving DecidableEq

def View.init (type : TxType) : View :=
  ⟨type, 0, 0, 0, 0, 0, 0, none, 0, [], [], 0, [], [], 0, [], 0, 0, 0, [], digestOf 0, addressOf 0⟩

def asBytes (item : Item) : Except String Bytes :=
  if item.kind ≠ .String then .error "Transactions: expected RLP string for bytes field" else .ok item.payload

def asListRaw (item : Item) : Except String Bytes :=
  if item.kind ≠ .List then .error "Transactions: expected RLP list" else .ok item.raw

def nextRequired (remaining : Bytes) : Except String (Item × Bytes) :=
  if remaining = [] then .error "Transactions: tx RLP list shorter than required" else next remaining

def requireEnd (remaining : Bytes) : Except String Unit :=
  if remaining ≠ [] then .error "Transactions: tx RLP list has trailing fields" else .ok ()

def parseTo (item : Item) : Except String (Option Address) :=
  if item.kind ≠ .String then .error "Transactions: `to` is not a string"
  else if item.payload = [] then .ok none
  else if h : item.payload.length = 20 then .ok (some ⟨item.payload, h⟩)
  else .error "Transactions: `to` length must be 0 or 20"

-- The fields of an envelope, in the order of the per-type parsers.
inductive Field where
  | ChainId
  | Nonce
  | GasPrice
  | MaxPriorityFeePerGas
  | MaxFeePerGas
  | GasLimit
  | To
  | Value
  | Data
  | AccessListRlp
  | MaxFeePerBlobGas
  | BlobVersionedHashesRlp
  | AuthorizationListRlp
  | InitcodesRlp
  | VOrYParity
  | R
  | S
deriving DecidableEq

def Field.read (v : View) (item : Item) : Field → Except String View
  | .ChainId => (asU64 item).map fun x => { v with chainId := x }
  | .Nonce => (asU64 item).map fun x => { v with nonce := x }
  | .GasPrice => (asU256 item).map fun x => { v with gasPrice := x }
  | .MaxPriorityFeePerGas => (asU256 item).map fun x => { v with maxPriorityFeePerGas := x }
  | .MaxFeePerGas => (asU256 item).map fun x => { v with maxFeePerGas := x }
  | .GasLimit => (asU64 item).map fun x => { v with gasLimit := x }
  | .To => (parseTo item).map fun x => { v with to? := x }
  | .Value => (asU256 item).map fun x => { v with value := x }
  | .Data => (asBytes item).map fun x => { v with data := x }
  | .AccessListRlp => (asListRaw item).map fun x => { v with accessListRlp := x }
  | .MaxFeePerBlobGas => (asU256 item).map fun x => { v with maxFeePerBlobGas := x }
  | .BlobVersionedHashesRlp => (asListRaw item).map fun x => { v with blobVersionedHashesRlp := x }
  | .AuthorizationListRlp => (asListRaw item).map fun x => { v with authorizationListRlp := x }
  | .InitcodesRlp => (asListRaw item).map fun x => { v with initcodesRlp := x }
  | .VOrYParity => (asU64 item).map fun x => { v with vOrYParity := x }
  | .R => (asU256 item).map fun x => { v with r := x }
  | .S => (asU256 item).map fun x => { v with s := x }

def parse : List Field → View → Bytes → Except String View
  | [], v, remaining => do
    requireEnd remaining
    return v
  | field :: fields, v, remaining => do
    let (item, remaining) ← nextRequired remaining
    parse fields (← field.read v item) remaining

def parseLegacy (v : View) (payload : Bytes) : Except String View :=
  (parse [.Nonce, .GasPrice, .GasLimit, .To, .Value, .Data, .VOrYParity, .R, .S] v payload).map fun v =>
    { v with chainId := if 35 ≤ v.vOrYParity then (v.vOrYParity - 35) / 2 else 0 }

def parseAccessList : View → Bytes → Except String View :=
  parse [.ChainId, .Nonce, .GasPrice, .GasLimit, .To, .Value, .Data, .AccessListRlp, .VOrYParity, .R, .S]

def parseDynamicFee : View → Bytes → Except String View :=
  parse [.ChainId, .Nonce, .MaxPriorityFeePerGas, .MaxFeePerGas, .GasLimit, .To, .Value, .Data, .AccessListRlp,
    .VOrYParity, .R, .S]

def parseBlob : View → Bytes → Except String View :=
  parse [.ChainId, .Nonce, .MaxPriorityFeePerGas, .MaxFeePerGas, .GasLimit, .To, .Value, .Data, .AccessListRlp,
    .MaxFeePerBlobGas, .BlobVersionedHashesRlp, .VOrYParity, .R, .S]

def parseSetCode : View → Bytes → Except String View :=
  parse [.ChainId, .Nonce, .MaxPriorityFeePerGas, .MaxFeePerGas, .GasLimit, .To, .Value, .Data, .AccessListRlp,
    .AuthorizationListRlp, .VOrYParity, .R, .S]

def parseOsaka : View → Bytes → Except String View :=
  parse [.ChainId, .Nonce, .MaxPriorityFeePerGas, .MaxFeePerGas, .GasLimit, .To, .Value, .Data, .AccessListRlp,
    .InitcodesRlp, .VOrYParity, .R, .S]

-- The encodings that compute_signing_hash puts together; nested lists are spliced in as they came.
def Field.encoding (v : View) : Field → Bytes
  | .ChainId => encodeU64 v.chainId
  | .Nonce => encodeU64 v.nonce
  | .GasPrice => encodeU256 v.gasPrice
  | .MaxPriorityFeePerGas => encodeU256 v.maxPriorityFeePerGas
  | .MaxFeePerGas => encodeU256 v.maxFeePerGas
  | .GasLimit => encodeU64 v.gasLimit
  | .To => encode ((v.to?.map List.Vector.toList).getD [])
  | .Value => encodeU256 v.value
  | .Data => encode v.data
  | .AccessListRlp => v.accessListRlp
  | .MaxFeePerBlobGas => encodeU256 v.maxFeePerBlobGas
  | .BlobVersionedHashesRlp => v.blobVersionedHashesRlp
  | .AuthorizationListRlp => v.authorizationListRlp
  | .InitcodesRlp => v.initcodesRlp
  | .VOrYParity => encodeU64 v.vOrYParity
  | .R => encodeU256 v.r
  | .S => encodeU256 v.s

def signingPreimage (v : View) : Bytes :=
  let list (fields : List Field) (more : List Bytes) := encodeList (fields.map (Field.encoding v) ++ more)
  match v.type with
  | .Legacy =>
    list [.Nonce, .GasPrice, .GasLimit, .To, .Value, .Data]
      (if 35 ≤ v.vOrYParity then [encodeU64 v.chainId, encodeU64 0, encodeU64 0] else [])
  | .AccessList =>
    0x01 :: list [.ChainId, .Nonce, .GasPrice, .GasLimit, .To, .Value, .Data, .AccessListRlp] []
  | .DynamicFee =>
    0x02 :: list [.ChainId, .Nonce, .MaxPriorityFeePerGas, .MaxFeePerGas, .GasLimit, .To, .Value, .Data,
      .AccessListRlp] []
  | .Blob =>
    0x03 :: list [.ChainId, .Nonce, .MaxPriorityFeePerGas, .MaxFeePerGas, .GasLimit, .To, .Value, .Data,
      .AccessListRlp, .MaxFeePerBlobGas, .BlobVersionedHashesRlp] []
  | .SetCode =>
    0x04 :: list [.ChainId, .Nonce, .MaxPriorityFeePerGas, .MaxFeePerGas, .GasLimit, .To, .Value, .Data,
      .AccessListRlp, .AuthorizationListRlp] []
  | .Osaka =>
    0x05 :: list [.ChainId, .Nonce, .MaxPriorityFeePerGas, .MaxFeePerGas, .GasLimit, .To, .Value, .Data,
      .AccessListRlp, .InitcodesRlp] []

def kSecp256k1NHalf : Nat := 0x7FFFFFFFFFFFFFFFFFFFFFFFFFFFFFFF5D576E7357A4501DDFE92F46681B20A0

def isCanonicalLowS (s : Word) : Bool := s.toNat ≤ kSecp256k1NHalf && s != 0

section

-- The hash, and public-key recovery: digest, r, s and recovery id.
variable (keccak : Bytes → Bytes32) (ecrecover : Bytes32 → Word → Word → Nat → Option Address)

def recoveryId (v : View) : Except String Nat :=
  if v.type = .Legacy then
    if v.vOrYParity = 27 ∨ v.vOrYParity = 28 then .ok (v.vOrYParity - 27).toNat
    else if 35 ≤ v.vOrYParity then .ok ((v.vOrYParity - 35).toNat % 2)
    else .error "Transactions: invalid legacy signature v"
  else if 1 < v.vOrYParity then .error "Transactions: invalid y_parity"
  else .ok v.vOrYParity.toNat

def recoverSender (v : View) : Except String Address := do
  let recid ← recoveryId v
  if !isCanonicalLowS v.s then .error "Transactions: signature s is not low-s (EIP-2)"
  else
    match ecrecover (keccak (signingPreimage v)) v.r v.s recid with
    | none => .error "Transactions: sender recovery failed"
    | some sender => .ok sender

def validateKey (_ : Unit) (key : Item) : Except String Unit :=
  if key.kind ≠ .String ∨ key.payload.length ≠ 32 then
    .error "Transactions: access_list storage key must be 32 bytes"
  else .ok ()

def validateEntry (_ : Unit) (entry : Item) : Except String Unit :=
  if entry.kind ≠ .List then .error "Transactions: access_list entry is not a list"
  else do
    let (addr, remaining) ← nextRequired entry.payload
    if addr.kind ≠ .String ∨ addr.payload.length ≠ 20 then
      .error "Transactions: access_list address must be 20 bytes"
    else
      let (keys, remaining) ← nextRequired remaining
      if keys.kind ≠ .List then .error "Transactions: access_list keys field is not a list"
      else
        forPayload validateKey () keys.payload
        if remaining ≠ [] then .error "Transactions: access_list entry has trailing fields" else .ok ()

def validateAccessList (accessListRlp : Bytes) : Except String Unit := do
  let outer ← decodeItem accessListRlp
  if outer.kind ≠ .List then .error "Transactions: access_list is not an RLP list"
  else forPayload validateEntry () outer.payload

def validateAuthorization (n : Nat) (tuple : Item) : Except String Nat :=
  if tuple.kind ≠ .List then .error "Transactions: authorization tuple is not a list"
  else do
    let (chainId, remaining) ← nextRequired tuple.payload
    let _ ← asU256 chainId
    let (addr, remaining) ← nextRequired remaining
    if addr.kind ≠ .String ∨ addr.payload.length ≠ 20 then
      .error "Transactions: authorization address must be 20 bytes"
    else
      let (nonce, remaining) ← nextRequired remaining
      let _ ← asU64 nonce
      let (parity, remaining) ← nextRequired remaining
      if parity.kind ≠ .String ∨ 1 < parity.payload.length then
        .error "Transactions: authorization y_parity must be <=1 byte"
      else
        let _ ← asU64 parity
        let (r, remaining) ← nextRequired remaining
        let _ ← asU256 r
        let (s, remaining) ← nextRequired remaining
        let _ ← asU256 s
        if remaining ≠ [] then .error "Transactions: authorization tuple has trailing fields" else .ok (n + 1)

def validateAuthorizationList (authListRlp : Bytes) : Except String Nat := do
  let outer ← decodeItem authListRlp
  if outer.kind ≠ .List then .error "Transactions: authorization_list not an RLP list"
  else forPayload validateAuthorization 0 outer.payload

def typeOf (lead : UInt8) : Except String TxType :=
  if 0xc0 ≤ lead then .ok .Legacy
  else if lead = 0x01 then .ok .AccessList
  else if lead = 0x02 then .ok .DynamicFee
  else if lead = 0x03 then .ok .Blob
  else if lead = 0x04 then .ok .SetCode
  else if lead = 0x05 then .ok .Osaka
  else .error "Transactions: unknown envelope first byte"

def parserOf : TxType → View → Bytes → Except String View
  | .Legacy => parseLegacy
  | .AccessList => parseAccessList
  | .DynamicFee => parseDynamicFee
  | .Blob => parseBlob
  | .SetCode => parseSetCode
  | .Osaka => parseOsaka

def readOuter (whole : Bytes) : Except String Bytes := do
  let outer ← decodeItem whole
  if outer.kind ≠ .List then .error "Transactions: outer envelope item is not a list"
  else if outer.raw.length ≠ whole.length then .error "Transactions: trailing bytes after tx envelope"
  else .ok outer.payload

def checkAccessList (v : View) : Except String Unit :=
  if v.type = .Legacy then .ok () else validateAccessList v.accessListRlp

def countAuthorizations (v : View) : Except String Nat :=
  if v.type = .SetCode then validateAuthorizationList v.authorizationListRlp else .ok 0

-- One turn of the constructor's loop, from the envelope's bytes on.
def readEnvelope (env : Bytes) : Except String View :=
  match env with
  | [] => .error "Transactions: empty tx envelope"
  | lead :: tail => do
    let type ← typeOf lead
    let payload ← readOuter (if type = .Legacy then lead :: tail else tail)
    let v ← parserOf type (View.init type) payload
    checkAccessList v
    let n ← countAuthorizations v
    let v := { v with numAuthorizations := n, envelope := env, transactionHash := keccak env }
    let sender ← recoverSender keccak ecrecover v
    return { v with sender := sender }

def readEnvelopes : Nat → Bytes → Except String (List View × Bytes)
  | 0, cursor => .ok ([], cursor)
  | count + 1, cursor => do
    let (size, cursor) ← readU64 cursor
    let rest ← advanceChecked size cursor
    let rest ← advanceChecked (padding size) rest
    let v ← readEnvelope keccak ecrecover (cursor.take size)
    let (views, rest) ← readEnvelopes count rest
    return (v :: views, rest)

-- The section, without its trie.
def readSection (cursor : Bytes) : Except String (List View × Bytes) := do
  let (count, cursor) ← readU64 cursor
  if cursor.length / 8 < count then .error "Transactions: count exceeds input size"
  else readEnvelopes keccak ecrecover count cursor

end

-- The list walk of compute_intrinsic_gas: addresses and keys.
def countKey (counts : Nat × Nat) (_ : Item) : Except String (Nat × Nat) := .ok (counts.1, counts.2 + 1)

def countEntry (counts : Nat × Nat) (entry : Item) : Except String (Nat × Nat) :=
  if entry.kind ≠ .List then .error "access_list entry is not an RLP list"
  else if entry.payload = [] then .error "access_list entry missing address"
  else do
    let (_, remaining) ← next entry.payload
    if remaining = [] then .error "access_list entry missing keys"
    else
      let (keys, _) ← next remaining
      if keys.kind ≠ .List then .error "access_list storage-keys field is not an RLP list"
      else forPayload countKey (counts.1 + 1, counts.2) keys.payload

def countAccessList (v : View) : Except String (Nat × Nat) :=
  if v.type = .Legacy then .ok (0, 0)
  else do
    let outer ← decodeItem v.accessListRlp
    if outer.kind ≠ .List then .error "access_list is not an RLP list"
    else forPayload countEntry (0, 0) outer.payload

-- The list walk of pre_warm_for_tx: what it warms, in order.
def warmKey (a : Address) (keys : List (Address × Option Bytes32)) (key : Item) :
    Except String (List (Address × Option Bytes32)) :=
  if h : key.kind = .String ∧ key.payload.length = 32 then .ok (keys ++ [(a, some ⟨key.payload, h.2⟩)])
  else .error "access_list slot key not 32-byte string"

def warmEntry (keys : List (Address × Option Bytes32)) (entry : Item) :
    Except String (List (Address × Option Bytes32)) :=
  if entry.kind ≠ .List then .error "access_list entry not a list"
  else if entry.payload = [] then .error "access_list entry missing addr"
  else do
    let (addr, remaining) ← next entry.payload
    if h : addr.kind = .String ∧ addr.payload.length = 20 then
      let a : Address := ⟨addr.payload, h.2⟩
      if remaining = [] then .error "access_list entry missing keys"
      else
        let (keysItem, _) ← next remaining
        if keysItem.kind ≠ .List then .error "access_list keys not a list"
        else forPayload (warmKey a) (keys ++ [(a, none)]) keysItem.payload
    else .error "access_list addr not 20-byte string"

def warmAccessList (v : View) : Except String (List (Address × Option Bytes32)) :=
  if v.accessListRlp = [] then .ok []
  else do
    let outer ← decodeItem v.accessListRlp
    if outer.kind ≠ .List then .error "access_list_rlp: not a list"
    else forPayload warmEntry [] outer.payload

structure Authorization where
  chainId : UInt64
  delegate : Address
  nonce : UInt64
  parity : UInt64
  r : Word
  s : Word

def authNext (missing : String) (remaining : Bytes) : Except String (Item × Bytes) :=
  if remaining = [] then .error ("EIP-7702: auth missing " ++ missing) else next remaining

-- A chain id wider than eight bytes stands for a mismatch.
def authChainId (item : Item) : Except String UInt64 :=
  if item.kind = .String ∧ 8 < item.payload.length then .ok (UInt64.ofNat (2 ^ 64 - 1)) else asU64 item

-- The fields process_single_authorization reads.
def readAuthorization (tuple : Item) : Except String Authorization := do
  let (chainIdItem, remaining) ← authNext "chain_id" tuple.payload
  let chainId ← authChainId chainIdItem
  let (addr, remaining) ← authNext "address" remaining
  if h : addr.kind = .String ∧ addr.payload.length = 20 then
    let (nonceItem, remaining) ← authNext "nonce" remaining
    let nonce ← asU64 nonceItem
    let (parityItem, remaining) ← authNext "y_parity" remaining
    let parity ← asU64 parityItem
    let (rItem, remaining) ← authNext "r" remaining
    let r ← asU256 rItem
    let (sItem, _) ← authNext "s" remaining
    let s ← asU256 sItem
    return ⟨chainId, ⟨addr.payload, h.2⟩, nonce, parity, r, s⟩
  else .error "EIP-7702: auth address not a 20-byte string"

-- The walk of apply_authorization_list.
def authorizationEntry (auths : List Authorization) (tuple : Item) : Except String (List Authorization) :=
  if tuple.kind ≠ .List then .error "EIP-7702: authorization entry not an RLP list"
  else (readAuthorization tuple).map fun a => auths ++ [a]

def authorizationList (v : View) : Except String (List Authorization) :=
  if v.type ≠ .SetCode then .ok []
  else do
    let outer ← decodeItem v.authorizationListRlp
    if outer.kind ≠ .List then .error "EIP-7702: authorization_list is not an RLP list"
    else forPayload authorizationEntry [] outer.payload

end Zeg.Transactions
