import Zeg.Execution.TopLevel
import Zeg.StateDB.Block
import Zeg.Transactions

-- One iteration of process_transactions, on the tables and on the gas.
namespace Zeg.Execution

open Base StateDB Memory Zevm Transactions
open CodeTable (Contracts)
open Gas (Purse BlockGas Checked Settlement)

structure BlockInfo where
  consensus : Gas.Consensus
  beneficiary : Address

-- Children start one below the first frame.
def calls (S : Setting) : Caller := call S kMaxCallDepth

-- The transaction's context.

def BlockInfo.baseFee (b : BlockInfo) : Word := BitVec.ofNat 256 b.consensus.baseFeePerGas

def effectiveGasPrice (baseFee : Word) (tx : View) : Word :=
  if tx.type = .Legacy ∨ tx.type = .AccessList then tx.gasPrice
  else if (baseFee + tx.maxPriorityFeePerGas).ult tx.maxFeePerGas then baseFee + tx.maxPriorityFeePerGas
  else tx.maxFeePerGas

def blobHash (hashes : List Bytes32) (item : RlpCodec.Item) : Except String (List Bytes32) :=
  if h : item.kind = .String ∧ item.payload.length = 32 then .ok (hashes ++ [⟨item.payload, item.length_digest h⟩])
  else .error "blob_versioned_hashes: expected 32-byte string"

def blobHashes (tx : View) : Except String (List Bytes32) :=
  if tx.type = .Blob then do
    let outer ← RlpCodec.decodeItem tx.blobVersionedHashesRlp
    if outer.kind ≠ .List then .error "blob_versioned_hashes is not an RLP list"
    else RlpCodec.forPayload blobHash [] outer.payload
  else .ok []

def buildPerTxContext (B : BlockInfo) (tx : View) (hashes : List Bytes32) (ctx : TxContext) : TxContext :=
  { ctx with origin := tx.sender, gasPrice := effectiveGasPrice B.baseFee tx, blobHashes := hashes }

-- pre_warm_for_tx

def warmListed (w : Witness) (h : Host) : Address × Option Bytes32 → Host
  | (a, none) => h.warmAddr w a
  | (a, some key) => h.warmSlot w (a, Word.ofBytes key.toList)

def preWarmForTx (w : Witness) (B : BlockInfo) (tx : View) (h : Host) : Except String Host := do
  let h := h.warmAddr w tx.sender
  let h := if w.isShanghaiOrLater then h.warmAddr w B.beneficiary else h
  let h := tx.to?.elim h (h.warmAddr w)
  let keys ← warmAccessList tx
  return keys.foldl (warmListed w) h

-- check_transaction reads the transaction in unbounded integers.

def accessListItem (tx : View) : Except String Rlp.Item :=
  if tx.accessListRlp = [] then .ok (.Lst []) else (Rlp.decodeAll tx.accessListRlp).map Prod.fst

def gasTx (tx : View) (accessList : Rlp.Item) (hashes : List Bytes32) : Gas.Tx :=
  { type := tx.type
    chainId := tx.chainId.toNat
    vOrYParity := tx.vOrYParity.toNat
    gasLimit := tx.gasLimit.toNat
    nonce := tx.nonce.toNat
    sender := tx.sender
    toAddr := tx.to?
    value := tx.value.toNat
    data := tx.data
    accessList := accessList
    numAuthorizations := tx.numAuthorizations
    gasPrice := tx.gasPrice.toNat
    maxFeePerGas := tx.maxFeePerGas.toNat
    maxPriorityFeePerGas := tx.maxPriorityFeePerGas.toNat
    maxFeePerBlobGas := tx.maxFeePerBlobGas.toNat
    blobHashes := hashes }

def World.codeOfRow (m : World) (idx : Nat) : Except String (Option Bytes) :=
  let hash := (m.db.accounts idx).codeHash
  if hash = kEmptyCodeHash then .ok none else (m.codeOf hash).map some

def senderOf (m : World) (idx : Nat) : Except String Gas.Sender := do
  let code ← m.codeOfRow idx
  return ⟨(m.db.accounts idx).nonce.toNat, (m.db.accounts idx).balance.toNat, code⟩

-- The upfront debit: the gas limit at the effective price, and the blobs at theirs.
def upfrontFee (B : BlockInfo) (ctx : TxContext) (tx : View) : Word :=
  BitVec.ofNat 256 tx.gasLimit.toNat * ctx.gasPrice +
    if tx.type = .Blob then
      BitVec.ofNat 256 (ctx.blobHashes.length * Gas.kGasPerBlob) * BitVec.ofNat 256 B.consensus.blobBaseFee
    else 0

-- apply_pre_evm_accounting past the check. Nothing of it is logged.
def debitSender (fee : Word) (idx : Nat) (h : Host) : Host :=
  let bumped := h.setNonceAt idx ((h.accounts idx).nonce + 1) h.txCounter
  bumped.setBalanceAt idx ((bumped.accounts idx).balance - fee) h.txCounter

-- TxGas: what is left after the intrinsic gas, and runtime_oog.
structure TxGas where
  purse : Purse
  runtimeOog : Bool

-- What the authorizations are charged for.
inductive Charge where
  | NewAccount
  | AccountWrite
  | DelegationBytes
deriving DecidableEq

-- AuthCharges, without the reference to the gas. `paid` is a history variable: the charges made so
-- far, with the rows they were made for. Nothing reads it.
structure AuthCharges where
  written : List Nat
  startDelegated : List (Nat × Bool)
  bytesCharged : List Nat
  paid : List (Nat × Charge)

def AuthCharges.init (tx : View) (senderIdx : Nat) (w : Witness) : Except String AuthCharges :=
  match tx.to? with
  | some a =>
    if tx.value ≠ 0 then (w.accountRow a).map fun idx => ⟨[senderIdx, idx], [], [], []⟩
    else .ok ⟨[senderIdx], [], [], []⟩
  | none => .ok ⟨[senderIdx], [], [], []⟩

-- The first entry for a signer is the one that stays.
def AuthCharges.noteStart (c : AuthCharges) (idx : Nat) (delegated : Bool) : AuthCharges :=
  if c.startDelegated.any (·.1 = idx) then c
  else { c with startDelegated := c.startDelegated ++ [(idx, delegated)] }

structure Authority where
  idx : Nat
  alive : Bool
  delegated : Bool
  clearing : Bool

def AuthCharges.dues (c : AuthCharges) (a : Authority) : List Charge :=
  (if a.alive then [] else [.NewAccount]) ++
    (if a.idx ∈ c.written then [] else [.AccountWrite]) ++
    (if !a.clearing ∧ !a.delegated ∧ (a.idx, true) ∉ c.startDelegated ∧ a.idx ∉ c.bytesCharged then
      [.DelegationBytes] else [])

-- A charge on the gas: the regular gas is written at once, the state gas with the last charge.
def Charge.take (p : Purse) : Charge → Option Purse
  | .NewAccount => p.charge Gas.NEW_ACCOUNT_STATE_GAS
  | .AccountWrite => p.spend Gas.ACCOUNT_WRITE
  | .DelegationBytes => p.charge Gas.DELEGATION_BYTES_STATE_GAS

-- The charges in turn. The first that cannot be paid leaves the regular gas as it stands.
def takeAll (p : Purse) : List Charge → Except Int Purse
  | [] => .ok p
  | c :: cs =>
    match c.take p with
    | none => .error p.gas
    | some p => takeAll p cs

def AuthCharges.record (c : AuthCharges) (idx : Nat) (made : List Charge) : AuthCharges :=
  { c with
    written := if .AccountWrite ∈ made then c.written ++ [idx] else c.written
    bytesCharged := if .DelegationBytes ∈ made then c.bytesCharged ++ [idx] else c.bytesCharged
    paid := c.paid ++ made.map (idx, ·) }

def TxGas.stop (g : TxGas) (gas : Int) : TxGas := ⟨{ g.purse with gas := gas }, true⟩

-- The signer that an authorization gives; `none` is one that is skipped before its authority is
-- looked up.
def authSigner (S : Setting) (chainId : Nat) (a : Authorization) : Option Address :=
  if a.chainId ≠ 0 ∧ a.chainId.toNat ≠ chainId then none
  else if a.nonce = 0xffffffffffffffff then none
  else if !isCanonicalLowS a.s then none
  else if 1 < a.parity then none
  else
    let fields := [RlpCodec.encodeU64 a.chainId, RlpCodec.encode a.delegate.toList, RlpCodec.encodeU64 a.nonce]
    S.ecrecover (S.keccak (0x05 :: RlpCodec.encodeList fields)) a.r a.s a.parity.toNat

def delegation (delegate : Address) : Bytes := [0xef, 0x01, 0x00] ++ delegate.toList

-- The code hash that an authorization installs; the zero address clears.
def delegationHash (S : Setting) (delegate : Address) : Bytes32 :=
  if delegate = addressOf 0 then kEmptyCodeHash else S.keccak (delegation delegate)

-- EIP-7928: a code change carries its code.
def insertDelegation (S : Setting) (delegate : Address) (idx : Nat) (m : World) : Contracts :=
  if delegate ≠ addressOf 0 ∧ m.db.bal.isSome = true then
    m.codes.insert (S.keccak (delegation delegate)) (delegation delegate) idx
  else m.codes

structure Authorizing where
  gas : TxGas
  charges : Option AuthCharges
  refund : Int

-- The charges of a valid authorization, and whether it is applied. Before Amsterdam it is refunded
-- for a signer that exists instead.
def Authorizing.pay (x : Authorizing) (a : Authority) : Authorizing × Bool :=
  match x.charges with
  | none => ({ x with refund := x.refund + if a.alive then 12500 else 0 }, true)
  | some c =>
    match takeAll x.gas.purse (c.dues a) with
    | .error gas => ({ x with gas := x.gas.stop gas }, false)
    | .ok p => ({ x with gas := ⟨p, false⟩, charges := some (c.record a.idx (c.dues a)) }, true)

-- The signer is noted whether or not the authorization is valid.
def Authorizing.settle (x : Authorizing) (a : Authority) (valid : Bool) : Authorizing × Bool :=
  let noted := { x with charges := x.charges.map (·.noteStart a.idx a.delegated) }
  if valid then noted.pay a else (noted, false)

def applyAuthorization (S : Setting) (a : Authorization) (signer : Address) (idx : Nat) (isDelegation applied : Bool)
    (m : World) : Except String World := do
  let db ← m.db.authorize S.witness signer a.nonce (delegationHash S a.delegate) isDelegation applied
  return { m with db := db, codes := if applied then insertDelegation S a.delegate idx m else m.codes }

def authorizeRow (S : Setting) (a : Authorization) (signer : Address) (idx : Nat) (x : Authorizing) (m : World) :
    Except String (Authorizing × World) := do
  let code ← m.codeOfRow idx
  let isDelegation := code.elim false Gas.isDelegation
  let valid := (code.isNone || isDelegation) && (m.db.accounts idx).nonce = a.nonce
  let (x, applied) := x.settle ⟨idx, m.db.nonEmpty idx, code.isSome, a.delegate = addressOf 0⟩ valid
  let m ← applyAuthorization S a signer idx isDelegation applied m
  return (x, m)

def processSingleAuthorization (S : Setting) (chainId : Nat) (a : Authorization) (x : Authorizing) (m : World) :
    Except String (Authorizing × World) :=
  match authSigner S chainId a with
  | none => .ok (x, m)
  | some signer => do
    let idx ← S.witness.accountRow signer
    authorizeRow S a signer idx x m

-- Later authorities are not touched once the gas has run out.
def authorizationLoop (S : Setting) (chainId : Nat) :
    List Authorization → Authorizing → World → Except String (Authorizing × World)
  | [], x, m => .ok (x, m)
  | a :: as, x, m => do
    let (x, m) ← processSingleAuthorization S chainId a x m
    if x.gas.runtimeOog then return (x, m) else authorizationLoop S chainId as x m

-- The constructor of the transactions has checked the whole list, so it is read before the loop.
def applyAuthorizationList (S : Setting) (B : BlockInfo) (tx : View) (senderIdx : Nat) (g : TxGas) (m : World) :
    Except String (Authorizing × World) :=
  if tx.type ≠ .SetCode then .ok (⟨g, none, 0⟩, m)
  else do
    let charges ← if S.witness.isAmsterdamOrLater then (AuthCharges.init tx senderIdx S.witness).map some else .ok none
    let auths ← authorizationList tx
    authorizationLoop S B.consensus.chainId auths ⟨g, charges, 0⟩ m

-- The account that the first frame's new-account charge is for.
def chargedRecipient (S : Setting) (tx : View) (senderIdx : Nat) (h : Host) : Option Address :=
  match tx.to? with
  | some a => if tx.value ≠ 0 then some a else none
  | none => some (computeCreateAddress S.keccak tx.sender ((h.accounts senderIdx).nonce - 1))

-- The new-account charge; `none` is an out-of-gas.
def chargeRecipient (S : Setting) (tx : View) (senderIdx : Nat) (p : Purse) (h : Host) :
    Except String (Option (Purse × Bool) × Host) :=
  match chargedRecipient S tx senderIdx h with
  | none => .ok (some (p, false), h)
  | some a => do
    let (h, found) ← h.accountExists S.witness a
    return ((p.chargeIf (!found) Gas.NEW_ACCOUNT_STATE_GAS).map (·, !found), h)

-- The charge for a delegated recipient's delegate. An access that cannot be paid is not loaded.
def chargeDelegate (S : Setting) (delegate : Address) (p : Purse) (h : Host) : Except String (Option Purse × Host) :=
  match p.spend Gas.WARM_ACCESS with
  | none => .ok (none, h)
  | some p => do
    let (h, access) ← h.accessAccount S.witness delegate
    match p.spendIf (access = .Cold) (3000 - Gas.WARM_ACCESS) with
    | none => return (none, { h with balPending := .None })
    | some p => do
      let h ← h.balCommitPending
      return (some p, h)

def chargeTarget (S : Setting) (dst : Address) (p : Purse) (m : World) : Except String (Option Purse × World) := do
  let (h, hash) ← m.db.codeAndEntry S.witness dst
  let code ← m.codeOf hash
  match delegateOf code with
  | none => return (some p, { m with db := h })
  | some delegate => do
    let (p, h) ← chargeDelegate S delegate p h
    return (p, { m with db := h })

-- The first frame's charges; the flag is new_account_charged.
def topLevelCharges (S : Setting) (tx : View) (senderIdx : Nat) (p : Purse) (m : World) :
    Except String (Option (Purse × Bool) × World) :=
  if S.witness.isAmsterdamOrLater then do
    let (charged, h) ← chargeRecipient S tx senderIdx p m.db
    match charged, tx.to? with
    | none, _ => return (none, { m with db := h })
    | some x, none => return (some x, { m with db := h })
    | some (p, fresh), some dst => do
      let (p, m) ← chargeTarget S dst p { m with db := h }
      return (p.map (·, fresh), m)
  else .ok (some (p, false), m)

def messageOf (tx : View) : TxMessage := ⟨tx.sender, tx.to?, tx.value, tx.data⟩

-- A failed frame gives the new-account charge back; a revert keeps what returns to regular gas.
def topLevelResult (p : Purse) (charged : Bool) (r : Result) : Result :=
  if r.status = .Success then { r with spilled := r.spilled + p.spilled }
  else
    let q := if charged then ({ p with gas := 0 } : Purse).refill Gas.NEW_ACCOUNT_STATE_GAS else { p with gas := 0 }
    { r with
      gasLeft := if r.status = .Revert then r.gasLeft + q.gas else r.gasLeft
      left := q.left
      spilled := q.spilled }

-- All regular gas consumed, the reservoir returned untouched.
def runtimeOogResult (stateGasLimit : Int) : Result := ⟨.OutOfGas, 0, 0, stateGasLimit, 0, [], 0⟩

-- execute_top_level_frame; the flag is runtime_oog as it leaves it.
def executeTopLevelFrame (S : Setting) (tx : View) (senderIdx : Nat) (limit : Int) (g : TxGas) (e : Env World) :
    Except String ((Result × Bool) × Env World) :=
  if g.runtimeOog then .ok ((runtimeOogResult limit, true), e)
  else do
    let (charged, m) ← topLevelCharges S tx senderIdx g.purse e.host
    match charged with
    | none => return ((runtimeOogResult limit, true), { e with host := m })
    | some (p, fresh) => do
      let (r, e) ← executeTopLevelMessage S (calls S) (messageOf tx) p.gas p.left { e with host := m }
      return ((topLevelResult p fresh r, false), e)

structure Phase where
  result : Result
  gas : TxGas
  authRefund : Int
  charges : Option AuthCharges

def closePhase (runtime frame : Checkpoint) (x : Result × Bool) (h : Host) : Except String Host :=
  if x.2 then h.rollback runtime else closeFrame frame x.1.status h

def runtimePhase (S : Setting) (B : BlockInfo) (tx : View) (senderIdx : Nat) (limit : Int) (p : Purse) (e : Env World) :
    Except String (Phase × Env World) := do
  let (db, runtime) := e.host.db.checkpoint
  let (x, m) ← applyAuthorizationList S B tx senderIdx ⟨p, false⟩ { e.host with db := db }
  let (db, frame) := m.db.checkpoint
  let (r, e) ← executeTopLevelFrame S tx senderIdx limit x.gas { e with host := { m with db := db } }
  let db ← closePhase runtime frame r e.host.db
  return (⟨r.1, ⟨x.gas.purse, r.2⟩, x.refund, x.charges⟩, setDb e db)

def priorityFee (B : BlockInfo) (price : Word) : Word := if B.baseFee.ult price then price - B.baseFee else 0

-- The sender's refund and the coinbase's fee, neither logged.
def creditGas (B : BlockInfo) (price : Word) (gasLimit : Nat) (s : Settlement) (senderIdx coinbaseIdx : Nat) (h : Host) :
    Host :=
  let remaining := BitVec.ofNat 256 (Gas.toU64 (gasLimit - s.gasUsed))
  let refunded := h.setBalanceAt senderIdx ((h.accounts senderIdx).balance + remaining * price) h.txCounter
  let fee := BitVec.ofNat 256 (Gas.toU64 s.gasUsed) * priorityFee B price
  refunded.setBalanceAt coinbaseIdx ((refunded.accounts coinbaseIdx).balance + fee) h.txCounter

def beginTx (index : Nat) (e : Env World) : Env World :=
  { e with
    host := { e.host with
      db := e.host.db.beginTransaction index
      codes := e.host.codes.settleStaged fun row => (e.host.db.accounts row).codeHash } }

structure Admitted where
  tx : Gas.Tx
  senderIdx : Nat
  checked : Checked
  blockGas : BlockGas

-- Up to apply_pre_evm_accounting.
def admitTx (S : Setting) (B : BlockInfo) (index : Nat) (tx : View) (b : BlockGas) (e : Env World) :
    Except String (Admitted × Env World) := do
  let e := beginTx index e
  let db ← preWarmForTx S.witness B tx e.host.db
  let hashes ← blobHashes tx
  let ctx := buildPerTxContext B tx hashes e.host.tx
  let m : World := { e.host with db := db, tx := ctx }
  let senderIdx ← S.witness.accountRow tx.sender
  let sender ← senderOf m senderIdx
  let accessList ← accessListItem tx
  let gtx := gasTx tx accessList hashes
  let b := Gas.countBlobs b gtx
  let checked ← Gas.checkTransaction S.witness.revision B.consensus b sender gtx
  return (⟨gtx, senderIdx, checked, b⟩, { e with host := { m with db := debitSender (upfrontFee B ctx tx) senderIdx db } })

-- settle_tx_gas, finalize_receipt and apply_pending_destructs.
def settleTx (S : Setting) (B : BlockInfo) (a : Admitted) (x : Phase) (e : Env World) :
    Except String (BlockGas × Env World) := do
  let s := Gas.settleTxGas S.witness.revision a.tx a.checked x.result.gas x.authRefund
  let coinbaseIdx ← S.witness.accountRow B.beneficiary
  let db := creditGas B e.host.tx.gasPrice a.tx.gasLimit s a.senderIdx coinbaseIdx e.host.db
  return (Gas.finalizeReceipt a.blockGas s, setDb e (db.applyPendingDestructs S.witness))

def Admitted.purse (a : Admitted) : Purse :=
  ⟨a.tx.gasLimit - a.checked.intrinsicGas - a.checked.stateGasLimit, a.checked.stateGasLimit, 0⟩

def processTransaction (S : Setting) (B : BlockInfo) (index : Nat) (tx : View) (b : BlockGas) (e : Env World) :
    Except String (BlockGas × Env World) := do
  let (a, e) ← admitTx S B index tx b e
  let (x, e) ← runtimePhase S B tx a.senderIdx a.checked.stateGasLimit a.purse e
  settleTx S B a x e

end Zeg.Execution
