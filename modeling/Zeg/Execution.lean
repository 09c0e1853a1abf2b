import Zeg.Ancestors.BlockHash
import Zeg.CodeTable
import Zeg.Zevm.Dispatch

-- ZiskStateDB with zevm as its VM: the host answers a frame's requests from its tables, and its
-- call() runs the frames of the children.
namespace Zeg.Execution

open Base StateDB Memory Zevm Ancestors
open CodeTable (Contracts)
open Zeg.Stream (bytesAt)
open Gas (chargeCodeDeposit COST_PER_STATE_BYTE)

def kMaxCodeSize : Nat := 0x6000
def kMaxCodeSizeAmsterdam : Nat := 0x10000
def kEcrecoverGas : Int := 3000

-- What a block fixes. The last three are code from outside: keccak256, the recovery of a key, and
-- evmone's precompiles at the block's revision.
structure Setting where
  witness : Witness
  ancestors : PreviousBlocks
  number : UInt64
  keccak : Bytes → Bytes32
  ecrecover : Bytes32 → Word → Word → Nat → Option Address
  evmonePrecompile : Message → Result

-- The host's state: its tables, the run-time code table and the transaction's context.
structure World where
  db : Host
  codes : Contracts
  tx : TxContext

-- The code of a hash, as code_and_entry and copy_code look it up.
def World.codeOf (m : World) (hash : Bytes32) : Except String Bytes :=
  if hash = kEmptyCodeHash then .ok []
  else
    match m.codes.byHash hash with
    | some c => .ok c.code
    | none => .error "Contracts::index_of: code hash not present in the table"

def onTables {α : Type} (m : World) (r : Except String (Host × α)) : Except String (α × World) :=
  r.map fun x => (x.2, { m with db := x.1 })

def answer (S : Setting) : (q : Query) → World → Except String (q.Answer × World)
  | .AccountExists a, m => onTables m (m.db.accountExists S.witness a)
  | .GetStorage key, m => onTables m (m.db.getStorage S.witness key)
  | .SetStorage key v, m => onTables m (m.db.setStorage S.witness key v)
  | .GetBalance a, m => onTables m (m.db.getBalance S.witness a)
  | .GetNonce a, m => onTables m (m.db.getNonce S.witness a)
  | .GetCodeSize a, m => do
    let (db, hash) ← m.db.copyCode S.witness a
    let code ← m.codeOf hash
    return (UInt64.ofNat code.length, { m with db := db })
  | .GetCodeHash a, m => onTables m (m.db.getCodeHash S.witness a)
  | .CopyCode a offset size, m => do
    let (db, hash) ← m.db.copyCode S.witness a
    let code ← m.codeOf hash
    return ((code.drop offset).take size, { m with db := db })
  | .Selfdestruct a beneficiary, m => onTables m (m.db.selfdestruct S.witness a beneficiary)
  | .GetTxContext, m => onTables m (m.db.balCommitPending.map (·, m.tx))
  | .GetBlockHash n, m => do
    let db ← m.db.balCommitPending
    let hash ← getBlockHash S.ancestors S.number n
    return (hash, { m with db := db })
  | .EmitLog entry, m => onTables m ((m.db.emitLog entry).map (·, ()))
  | .AccessAccount a, m => onTables m (m.db.accessAccount S.witness a)
  | .AccessStorage key, m => onTables m (m.db.accessStorage S.witness key)
  | .GetTransientStorage key, m => onTables m (m.db.getTransientStorage key)
  | .SetTransientStorage key v, m => onTables m ((m.db.setTransientStorage key v).map (·, ()))

abbrev Caller := Message → Env World → Except String (Result × Env World)

def host (S : Setting) (call : Caller) : HostInterface World := ⟨answer S, call⟩

def setDb (e : Env World) (db : Host) : Env World := { e with host := { e.host with db := db } }

-- run_frame. No frame takes more steps than it has gas.
def runFrame (S : Setting) (call : Caller) (msg : Message) (code : Bytes) (e : Env World) :
    Except String (Result × Env World) := do
  let (done, e) ← (run S.keccak ⟨S.witness.revision, msg, code⟩ (msg.gas.toNat + 1)).run (host S call).serve e
  match done with
  | none => .error "zevm: out of steps"
  | some r => do
    let db ← e.host.db.endFrame (r.status ≠ .Success && r.status ≠ .Revert)
    return (r, setDb e db)

-- A failure of the host around a frame: all gas is burned, the reservoir returned.
def failed (status : StatusCode) (msg : Message) : Result := ⟨status, 0, 0, msg.stateGas, 0, [], 0⟩

def ecrecoverSigner (S : Setting) (input : Bytes) : Option Address :=
  let data := paddedSlice input 0 128
  let v := Word.ofBytes ((data.drop 32).take 32)
  if v = 27 ∨ v = 28 then
    S.ecrecover (bytesAt 32 data 0) (Word.ofBytes ((data.drop 64).take 32)) (Word.ofBytes ((data.drop 96).take 32))
      (v.toNat - 27)
  else none

def ecrecoverPrecompile (S : Setting) (msg : Message) : Result :=
  if msg.gas < kEcrecoverGas then failed .OutOfGas msg
  else
    { failed .Success msg with
      gasLeft := msg.gas - kEcrecoverGas
      output := match ecrecoverSigner S msg.inputData with
        | some signer => List.replicate 12 0 ++ signer.toList
        | none => [] }

def callPrecompileDispatch (S : Setting) (msg : Message) : Result :=
  if msg.codeAddress = addressOf 1 then ecrecoverPrecompile S msg else S.evmonePrecompile msg

-- EIP-7928: the call loads the precompile.
def loadCalled (S : Setting) (a : Address) (db : Host) : Except String Host :=
  if db.bal.isSome then db.balLoad S.witness a else .ok db

-- Only a plain call moves its value.
def sendValue (S : Setting) (msg : Message) (db : Host) : Except String Host :=
  if msg.kind = .Call ∧ msg.value ≠ 0 then db.transferValue S.witness msg.sender msg.recipient msg.value else .ok db

def closeFrame (cp : Checkpoint) (status : StatusCode) (db : Host) : Except String Host :=
  if status ≠ .Success then db.rollback cp else .ok db

-- call() on a precompile. Without a value there is nothing to take back.
def callPrecompile (S : Setting) (msg : Message) (e : Env World) : Except String (Result × Env World) := do
  let db ← loadCalled S msg.codeAddress e.host.db
  let r := callPrecompileDispatch S msg
  if msg.kind = .Call ∧ msg.value ≠ 0 then do
    let (db, cp) := db.checkpoint
    let db ← sendValue S msg db
    let db ← closeFrame cp r.status db
    return (r, setDb e db)
  else return (r, setDb e db)

-- call() on an account's code.
def callCode (S : Setting) (call : Caller) (msg : Message) (e : Env World) : Except String (Result × Env World) := do
  let (db, cp) := e.host.db.checkpoint
  let db ← sendValue S msg db
  let (db, hash) ← db.codeAndEntry S.witness msg.codeAddress
  let code ← e.host.codeOf hash
  let (r, e) ← runFrame S call msg code (setDb e db)
  let db ← closeFrame cp r.status e.host.db
  return (r, setDb e db)

def maxCodeSize (rev : Revision) : Nat := if rev.atLeast .Amsterdam then kMaxCodeSizeAmsterdam else kMaxCodeSize

-- charge_code_deposit on a frame's result, whose output is the code.
def chargeDeposit (rev : Revision) (r : Result) : Option Result :=
  (chargeCodeDeposit rev r.output.length r.gas).map fun paid =>
    { r with
      gasLeft := paid.gasLeft
      left := paid.left
      spilled := paid.spilled
      charged := r.charged + if rev.atLeast .Amsterdam then r.output.length * COST_PER_STATE_BYTE else 0 }

-- call_create once the init code has run: `error` is the result of a create that failed.
def afterInit (rev : Revision) (msg : Message) (r : Result) : Except Result Result :=
  if r.status ≠ .Success then .error r
  else if maxCodeSize rev < r.output.length then .error (failed .OutOfGas msg)
  else if rev.atLeast .London ∧ r.output.head? = some 0xef then .error (failed .ContractValidationFailure msg)
  else
    match chargeDeposit rev r with
    | none => .error (failed .OutOfGas msg)
    | some r => .ok { r with output := [] }

def registerDeployedCode (S : Setting) (a : Address) (code : Bytes) (m : World) : Except String World := do
  let idx ← S.witness.accountRow a
  let db ← m.db.registerDeployedCode S.witness a (S.keccak code)
  return { m with db := db, codes := if code = [] then m.codes else m.codes.insert (S.keccak code) code idx }

-- The init code of a create, from its local checkpoint on.
def runInit (S : Setting) (call : Caller) (msg : Message) (cp : Checkpoint) (e : Env World) :
    Except String (Result × Env World) := do
  let (r, e) ← runFrame S call { msg with inputData := [] } msg.inputData e
  match afterInit S.witness.revision msg r with
  | .error r => do
    let db ← e.host.db.rollback cp
    return (r, setDb e db)
  | .ok done => do
    let m ← registerDeployedCode S msg.recipient r.output e.host
    return (done, { e with host := m })

-- Local failures go back to a checkpoint after the nonce's bump.
def callCreate (S : Setting) (call : Caller) (msg : Message) (e : Env World) :
    Except String (Result × Env World) := do
  let (db, bumped) ← e.host.db.bumpNonce S.witness msg.sender
  if bumped then do
    let db ← db.warmNew S.witness msg.recipient
    let (db, cp) := db.checkpoint
    let (db, fresh) ← db.initCreateAccount S.witness msg.sender msg.recipient msg.value
    if fresh then runInit S call msg cp (setDb e db)
    else do
      let db ← db.rollback cp
      return (failed .Failure msg, setDb e db)
  else return ({ failed .Success msg with gasLeft := msg.gas }, e)

-- ZiskStateDB::call, with the frames left up to the depth limit as fuel.
def call (S : Setting) : Nat → Caller
  | 0, _, _ => .error "call: depth > 1024"
  | fuel + 1, msg, e =>
    if kMaxCallDepth < msg.depth then .error "call: depth > 1024"
    else do
      let db ← e.host.db.balCommitPending
      if !msg.isDelegated && S.witness.isPrecompile msg.codeAddress then callPrecompile S msg (setDb e db)
      else
        match msg.kind with
        | .Create | .Create2 => callCreate S (call S fuel) msg (setDb e db.checkpoint.1)
        | .Call | .Callcode | .Delegatecall => callCode S (call S fuel) msg (setDb e db)

end Zeg.Execution
