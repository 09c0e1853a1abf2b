import Zeg.Base.Rlp
import Zeg.Gas

-- A transaction's gas: what check_transaction admits, what the runtime phase and the first frame
-- draw, and how it is settled against the block.
namespace Zeg.Gas

open Base Base.Rlp StateDB

def kMaxTxGasLimit : Nat := 2 ^ 24
def kMaxTxTotalGasLimit : Nat := 0xffffffff
def kGasPerBlob : Nat := 131072
def kMaxBlobsPerTx : Nat := 6
def kVersionedHashVersionKzg : UInt8 := 0x01

def add64 (a b : Nat) : Nat := (a + b) % 2 ^ 64
def sub64 (a b : Nat) : Nat := (a + 2 ^ 64 - b) % 2 ^ 64
def toU64 (i : Int) : Nat := (i % 2 ^ 64).toNat

inductive TxType where
  | Legacy
  | AccessList
  | DynamicFee
  | Blob
  | SetCode
  | Osaka
deriving DecidableEq

structure Tx where
  type : TxType
  chainId : Nat
  vOrYParity : Nat
  gasLimit : Nat
  nonce : Nat
  sender : Address
  toAddr : Option Address
  value : Nat
  data : Bytes
  accessList : Item
  numAuthorizations : Nat
  gasPrice : Nat
  maxFeePerGas : Nat
  maxPriorityFeePerGas : Nat
  maxFeePerBlobGas : Nat
  blobHashes : List Bytes32

-- The block's header fields. run() has checked the gas limit against INT64_MAX.
structure Consensus where
  chainId : Nat
  gasLimit : Nat
  baseFeePerGas : Nat
  blobBaseFee : Nat
  maxBlobGasPerBlock : Nat
  gasLimit_le : gasLimit ≤ 2 ^ 63 - 1

structure Sender where
  nonce : Nat
  balance : Nat
  code : Option Bytes

-- The block counters, all uint64_t.
structure BlockGas where
  cumulativeGasUsed : Nat
  regularGasUsed : Nat
  stateGasUsed : Nat
  blobGasUsed : Nat

def accessListEntry (counts : Nat × Nat) : Item → Except String (Nat × Nat)
  | .Str _ => .error "access_list entry is not an RLP list"
  | .Lst [] => .error "access_list entry missing address"
  | .Lst [_] => .error "access_list entry missing keys"
  | .Lst (_ :: .Str _ :: _) => .error "access_list storage-keys field is not an RLP list"
  | .Lst (_ :: .Lst keys :: _) => .ok (counts.1 + 1, counts.2 + keys.length)

def accessListCounts (tx : Tx) : Except String (Nat × Nat) :=
  if tx.type = .Legacy then .ok (0, 0)
  else match tx.accessList with
    | .Str _ => .error "access_list is not an RLP list"
    | .Lst entries => entries.foldlM accessListEntry (0, 0)

def eip2780Base (tx : Tx) : Nat :=
  match tx.toAddr with
  | none => 12000 + 12000
  | some a => if a = tx.sender then 12000 else 12000 + 3000 + if tx.value ≠ 0 then 6000 else 0

-- compute_intrinsic_gas: the intrinsic gas and the calldata floor.
def computeIntrinsicGas (tx : Tx) (rev : Revision) : Except String (Nat × Nat) := do
  let amsterdam := rev.atLeast .Amsterdam
  let base := if amsterdam then eip2780Base tx else 21000
  let size := tx.data.length
  let nonzero := tx.data.countP (· ≠ 0)
  let (addresses, keys) ← accessListCounts tx
  let create := if tx.toAddr.isNone && !amsterdam then 32000 else 0
  let words := if tx.toAddr.isNone && rev.atLeast .Shanghai then (size + 31) / 32 * 2 else 0
  let list := addresses * (if amsterdam then 2900 + 20 * 64 else 2400) +
    keys * (if amsterdam then 2000 + 32 * 64 else 1900)
  let auths := if tx.type = .SetCode then
    (if amsterdam then 101 * 16 + 3000 + 3000 + 2 * 100 else 25000) * tx.numAuthorizations else 0
  let floor := if amsterdam then base + 64 * (size + 20 * addresses + 32 * keys)
    else base + (size + nonzero * 3) * 10
  return (base + create + (size * 4 + nonzero * 12) + words + list + auths, floor)

def maxInitcodeSize (rev : Revision) : Nat := if rev.atLeast .Amsterdam then 2 * 0x10000 else 2 * 0x6000

-- EIP-7702: 0xef0100 and an address.
def isDelegation (code : Bytes) : Bool := code.length = 23 && [0xef, 0x01, 0x00].isPrefixOf code

def fatalIf (b : Bool) (message : String) : Except String Unit := if b then .error message else .ok ()

def txStateGasLimit (rev : Revision) (gasLimit : Nat) : Nat :=
  if rev.atLeast .Amsterdam && gasLimit > kMaxTxGasLimit then gasLimit - kMaxTxGasLimit else 0

-- What check_transaction leaves for the rest of the transaction: its result, tx_floor_gas_ and
-- tx_state_gas_limit_.
structure Checked where
  intrinsicGas : Nat
  floorGas : Nat
  stateGasLimit : Nat

-- The part of check_transaction that concerns the gas limit.
def checkGasLimit (rev : Revision) (c : Consensus) (b : BlockGas) (tx : Tx) : Except String Checked := do
  let (intrinsicGas, floorGas) ← computeIntrinsicGas tx rev
  let minGas := if rev.atLeast .Prague then max intrinsicGas floorGas else intrinsicGas
  let stateLimit := txStateGasLimit rev tx.gasLimit
  fatalIf (tx.gasLimit - stateLimit < minGas) "tx gas_limit below intrinsic gas"
  fatalIf (if rev.atLeast .Amsterdam then tx.gasLimit > kMaxTxTotalGasLimit
    else rev.atLeast .Osaka && tx.gasLimit > kMaxTxGasLimit) "tx gas_limit exceeds cap"
  fatalIf (tx.nonce = 2 ^ 64 - 1) "tx nonce at maximum"
  fatalIf (tx.toAddr.isNone && rev.atLeast .Shanghai && tx.data.length > maxInitcodeSize rev)
    "tx init code exceeds size limit"
  fatalIf (if rev.atLeast .Amsterdam then
      min tx.gasLimit kMaxTxGasLimit > sub64 c.gasLimit b.regularGasUsed ||
        tx.gasLimit > sub64 c.gasLimit b.stateGasUsed
    else tx.gasLimit > sub64 c.gasLimit b.cumulativeGasUsed)
    "tx gas_limit exceeds block gas available"
  return ⟨intrinsicGas, floorGas, stateLimit⟩

-- The fees, in the sums that intx keeps in 512 bits.
def checkFees (rev : Revision) (c : Consensus) (b : BlockGas) (tx : Tx) : Except String Nat := do
  let legacyFee := tx.type = .Legacy || tx.type = .AccessList
  let feeCap := if legacyFee then tx.gasPrice else tx.maxFeePerGas
  fatalIf (!legacyFee && feeCap < tx.maxPriorityFeePerGas)
    "tx max_priority_fee_per_gas above max_fee_per_gas"
  fatalIf (feeCap < c.baseFeePerGas) "tx fee cap below base fee"
  let blobs := tx.blobHashes.length
  if tx.type = .Blob then
    fatalIf (blobs = 0) "blob tx without blobs"
    fatalIf (rev.atLeast .Osaka && blobs > kMaxBlobsPerTx) "blob tx exceeds blob count limit"
    fatalIf (tx.blobHashes.any (·.head ≠ kVersionedHashVersionKzg)) "blob versioned hash has wrong version"
    fatalIf (b.blobGasUsed > c.maxBlobGasPerBlock) "block blob gas exceeds max"
    fatalIf (tx.maxFeePerBlobGas < c.blobBaseFee) "tx max_fee_per_blob_gas below blob base fee"
    return tx.gasLimit * feeCap + blobs * kGasPerBlob * tx.maxFeePerBlobGas
  else return tx.gasLimit * feeCap

def checkTransaction (rev : Revision) (c : Consensus) (b : BlockGas) (sender : Sender) (tx : Tx) :
    Except String Checked := do
  fatalIf (tx.type = .DynamicFee && !rev.atLeast .London || tx.type = .Blob && !rev.atLeast .Cancun ||
    tx.type = .SetCode && !rev.atLeast .Prague || tx.type = .Osaka) "tx type not active at this fork"
  fatalIf (tx.chainId ≠ c.chainId && !(tx.type = .Legacy && tx.vOrYParity < 35)) "tx chain_id mismatch"
  let checked ← checkGasLimit rev c b tx
  let maxCost ← checkFees rev c b tx
  fatalIf ((tx.type = .Blob || tx.type = .SetCode) && tx.toAddr.isNone)
    "blob / set-code tx cannot create a contract"
  fatalIf (tx.type = .SetCode && tx.numAuthorizations = 0) "set-code tx with empty authorization list"
  fatalIf (tx.nonce ≠ sender.nonce) "tx nonce mismatch"
  fatalIf (sender.balance < maxCost + tx.value) "tx sender balance below upfront cost"
  fatalIf (sender.code.any fun code => !(rev.atLeast .Prague && isDelegation code)) "tx sender has code"
  return checked

-- The runtime phase.

-- An authorization as the guest finds it when it gets to it: `recovered` is that its chain id,
-- nonce and signature give the row `signer`, `delegated` that the signer has code, `alive` that it
-- exists, `valid` that the code is a delegation and the nonce matches.
structure Auth where
  recovered : Bool
  signer : Nat
  delegated : Bool
  alive : Bool
  valid : Bool
  clearing : Bool

structure AuthCharges where
  purse : Purse
  written : List Nat
  startDelegated : List (Nat × Bool)
  bytesCharged : List Nat

def DELEGATION_BYTES_STATE_GAS : Int := 23 * COST_PER_STATE_BYTE

-- The first entry for a signer is the one that stays.
def AuthCharges.noteStart (c : AuthCharges) (a : Auth) : AuthCharges :=
  if c.startDelegated.any (·.1 = a.signer) then c
  else { c with startDelegated := c.startDelegated ++ [(a.signer, a.delegated)] }

-- process_single_authorization with charges (Amsterdam); none is runtime_oog.
def AuthCharges.process (c : AuthCharges) (a : Auth) : Option AuthCharges :=
  if !a.recovered then some c
  else
    let c := c.noteStart a
    if !a.valid then some c
    else do
      let p ← c.purse.chargeIf (!a.alive) NEW_ACCOUNT_STATE_GAS
      let fresh := !c.written.contains a.signer
      let p ← p.spendIf fresh ACCOUNT_WRITE
      let written := if fresh then c.written ++ [a.signer] else c.written
      let bytes := !a.clearing && !a.delegated && !c.startDelegated.contains (a.signer, true) &&
        !c.bytesCharged.contains a.signer
      let p ← p.chargeIf bytes DELEGATION_BYTES_STATE_GAS
      return { c with
        purse := p
        written := written
        bytesCharged := if bytes then c.bytesCharged ++ [a.signer] else c.bytesCharged }

-- Before Amsterdam an authorization of a signer that exists is refunded.
def Auth.refund (a : Auth) : Int := if a.recovered && a.valid && a.alive then 12500 else 0

-- A transaction's run: what the guest finds in the state on the way, and the events of its frame.
-- `storage` is the storage when the transaction starts.
structure Run (K : Type) where
  senderRow : Nat
  recipientRow : Nat
  auths : List Auth
  recipientAlive : Bool
  delegate : Option Bool
  deploy : Deploy
  storage : K → Word
  code : Code K

variable {K : Type}

-- apply_authorization_list: the gas left and the refund.
def applyAuthorizationList (rev : Revision) (tx : Tx) (run : Run K) (g : Purse) : Option (Purse × Int) :=
  if tx.type ≠ .SetCode then some (g, 0)
  else if rev.atLeast .Amsterdam then
    let written := run.senderRow :: if tx.toAddr.isSome && tx.value ≠ 0 then [run.recipientRow] else []
    (run.auths.foldlM AuthCharges.process ⟨g, written, [], []⟩).map fun c => (c.purse, 0)
  else some (g, (run.auths.map Auth.refund).sum)

-- The charges of execute_top_level_frame; the flag is new_account_charged.
def topLevelCharges (rev : Revision) (tx : Tx) (run : Run K) (g : Purse) : Option (Purse × Bool) :=
  if rev.atLeast .Amsterdam then do
    let fresh := (tx.toAddr.isNone || tx.value ≠ 0) && !run.recipientAlive
    let p ← g.chargeIf fresh NEW_ACCOUNT_STATE_GAS
    let delegated := tx.toAddr.isSome && run.delegate.isSome
    let p ← p.spendIf delegated WARM_ACCESS
    let p ← p.spendIf (delegated && run.delegate = some true) (3000 - WARM_ACCESS)
    return (p, fresh)
  else some (g, false)

variable [DecidableEq K]

def executeTopLevelMessage (rev : Revision) (tx : Tx) (run : Run K) (gas stateGas : Int) : Result :=
  let (m, status) := exec rev run.storage run.code 0 ⟨⟨gas, stateGas, 0⟩, 0, run.storage⟩
  if tx.toAddr.isNone then (hostCreate rev stateGas run.deploy run.storage m status).1
  else (hostCall rev stateGas run.storage m status).1

-- What execute_top_level_frame makes of the message's result: a failed one gives the new-account
-- charge back, and a revert keeps the part of it that returns to regular gas.
def topLevelResult (p : Purse) (charged : Bool) (r : Result) : Result :=
  if r.status = .Success then { r with spilled := r.spilled + p.spilled }
  else
    let q := ({ p with gas := 0 } : Purse).refillIf charged
    { r with
      gasLeft := if r.status = .Revert then r.gasLeft + q.gas else r.gasLeft
      left := q.left
      spilled := q.spilled }

-- execute_top_level_frame; `g` is none when the authorizations ran out of gas.
def executeTopLevelFrame (rev : Revision) (tx : Tx) (run : Run K) (limit : Int) (g : Option Purse) :
    Result :=
  match g.bind (topLevelCharges rev tx run) with
  | none => burned limit
  | some (p, charged) => topLevelResult p charged (executeTopLevelMessage rev tx run p.gas p.left)

structure Settlement where
  gasLeft : Int
  gasUsedPre : Int
  gasUsed : Int
  stateUsed : Int
  blockRegular : Int
  blockState : Int

-- EIP-3529 cut the refund's cap from a half to a fifth of the gas used.
def cappedRefund (rev : Revision) (gasUsedPre refund : Int) : Int :=
  min refund (gasUsedPre.tdiv (if rev.atLeast .London then 5 else 2))

def settleTxGas (rev : Revision) (tx : Tx) (checked : Checked) (r : Result) (authRefund : Int) :
    Settlement :=
  let gasLeft := r.gasLeft + r.left
  let gasUsedPre := tx.gasLimit - gasLeft
  let gasUsed := tx.gasLimit - (gasLeft + cappedRefund rev gasUsedPre (r.refund + authRefund))
  let gasUsed := if rev.atLeast .Prague then max gasUsed checked.floorGas else gasUsed
  let stateUsed := checked.stateGasLimit - r.left + r.spilled
  if rev.atLeast .Amsterdam then
    { gasLeft, gasUsedPre, gasUsed, stateUsed
      blockRegular := max (gasUsedPre - max 0 stateUsed) checked.floorGas
      blockState := max 0 stateUsed }
  else { gasLeft, gasUsedPre, gasUsed, stateUsed, blockRegular := gasUsed, blockState := 0 }

def finalizeReceipt (b : BlockGas) (s : Settlement) : BlockGas :=
  { b with
    cumulativeGasUsed := add64 b.cumulativeGasUsed (toU64 s.gasUsed)
    regularGasUsed := add64 b.regularGasUsed (toU64 s.blockRegular)
    stateGasUsed := add64 b.stateGasUsed (toU64 s.blockState) }

-- build_per_tx_context counts the blobs before the transaction is checked.
def countBlobs (b : BlockGas) (tx : Tx) : BlockGas :=
  if tx.type = .Blob then { b with blobGasUsed := add64 b.blobGasUsed (tx.blobHashes.length * kGasPerBlob) }
  else b

structure Entry (K : Type) where
  tx : Tx
  sender : Sender
  run : Run K

def settleEntry (rev : Revision) (e : Entry K) (checked : Checked) : Settlement :=
  let limit : Int := checked.stateGasLimit
  let g : Purse := ⟨e.tx.gasLimit - checked.intrinsicGas - limit, limit, 0⟩
  let auths := applyAuthorizationList rev e.tx e.run g
  let r := executeTopLevelFrame rev e.tx e.run limit (auths.map Prod.fst)
  settleTxGas rev e.tx checked r ((auths.map Prod.snd).getD 0)

-- One iteration of process_transactions, with the transaction's own accounting.
def processTransaction (rev : Revision) (c : Consensus) (b : BlockGas) (e : Entry K) :
    Except String (BlockGas × Checked) := do
  let b := countBlobs b e.tx
  let checked ← checkTransaction rev c b e.sender e.tx
  return (finalizeReceipt b (settleEntry rev e checked), checked)

def processTransactions (rev : Revision) (c : Consensus) (entries : List (Entry K)) :
    Except String BlockGas :=
  entries.foldlM (fun b e => (processTransaction rev c b e).map Prod.fst) ⟨0, 0, 0, 0⟩

end Zeg.Gas
