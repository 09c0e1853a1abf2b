import Zeg.Execution

-- The first frame of a transaction, which does not go through call().
namespace Zeg.Execution

open Base StateDB Zevm List

structure TxMessage where
  sender : Address
  toAddr : Option Address
  value : Word
  data : Bytes

-- The test for a delegation in the code that a transaction calls. It has no upper bound on the
-- size, and does not ask for the revision.
def topDelegate (code : Bytes) : Option Address :=
  if h : 23 ≤ code.length ∧ code.take 3 = [0xef, 0x01, 0x00] then
    some ⟨(code.drop 3).take 20, by rw [List.length_take, List.length_drop]; omega⟩
  else none

-- code_and_entry
def codeOfAccount (S : Setting) (a : Address) (e : Env World) : Except String (Bytes × Env World) := do
  let (db, hash) ← e.host.db.codeAndEntry S.witness a
  let code ← e.host.codeOf hash
  return (code, setDb e db)

def entryCode (S : Setting) (dst : Address) (e : Env World) : Except String ((Address × Bytes) × Env World) := do
  let (code, e) ← codeOfAccount S dst e
  match topDelegate code with
  | none => return ((dst, code), e)
  | some delegate => do
    let (code, e) ← codeOfAccount S delegate e
    return ((delegate, code), e)

def topCallMessage (tx : TxMessage) (dst codeAddr : Address) (gas stateGas : Int) : Message :=
  { kind := .Call, isStatic := false, isDelegated := false, depth := 0, gas := gas, stateGas := stateGas
    recipient := dst, sender := tx.sender, inputData := tx.data, value := tx.value, codeAddress := codeAddr }

-- A precompile is looked for before the delegation.
def topLevelCall (S : Setting) (call : Caller) (tx : TxMessage) (dst : Address) (gas stateGas : Int) (e : Env World) :
    Except String (Result × Env World) :=
  let msg := topCallMessage tx dst dst gas stateGas
  if S.witness.isPrecompile dst then do
    let db ← loadCalled S dst e.host.db
    let db ← sendValue S msg db
    return (callPrecompileDispatch S msg, setDb e db)
  else do
    let ((codeAddr, code), e) ← entryCode S dst e
    let db ← sendValue S msg e.host.db
    runFrame S call { msg with codeAddress := codeAddr } code (setDb e db)

def topCreateMessage (tx : TxMessage) (a : Address) (gas stateGas : Int) : Message :=
  { kind := .Create, isStatic := false, isDelegated := false, depth := 0, gas := gas, stateGas := stateGas
    recipient := a, sender := tx.sender, inputData := [], value := tx.value, codeAddress := addressOf 0 }

-- The rest of a creation once the init code has run; what failed is taken back by the caller.
def finishTopCreate (S : Setting) (msg : Message) (r : Result) (e : Env World) :
    Except String (Result × Env World) :=
  match afterInit S.witness.revision msg r with
  | .error r => return (r, e)
  | .ok done => do
    let m ← registerDeployedCode S msg.recipient r.output e.host
    return (done, { e with host := m })

def startTop (S : Setting) (call : Caller) (msg : Message) (init : Bytes) (e : Env World) (db : Host) :
    Except String (Result × Env World) := do
  let (db, fresh) ← db.initCreateAccount S.witness msg.sender msg.recipient msg.value
  if fresh then do
    let (r, e) ← runFrame S call msg init (setDb e db)
    finishTopCreate S msg r e
  else return (failed .Failure msg, setDb e db)

-- The sender's nonce is bumped already.
def topLevelCreate (S : Setting) (call : Caller) (tx : TxMessage) (gas stateGas : Int) (e : Env World) :
    Except String (Result × Env World) := do
  let idx ← S.witness.accountRow tx.sender
  let nonce := (e.host.db.accounts idx).nonce - 1
  let msg := topCreateMessage tx (computeCreateAddress S.keccak tx.sender nonce) gas stateGas
  let db ← e.host.db.warmNew S.witness msg.recipient
  startTop S call msg tx.data e db

def executeTopLevelMessage (S : Setting) (call : Caller) (tx : TxMessage) (gas stateGas : Int) (e : Env World) :
    Except String (Result × Env World) :=
  match tx.toAddr with
  | none => topLevelCreate S call tx gas stateGas e
  | some dst => topLevelCall S call tx dst gas stateGas e

def closeResult (cp : Checkpoint) (x : Result × Env World) : Except String (Result × Env World) := do
  let db ← closeFrame cp x.1.status x.2.host.db
  return (x.1, setDb x.2 db)

-- The message between process_transactions' checkpoint and its rollback.
def topLevelFrame (S : Setting) (call : Caller) (tx : TxMessage) (gas stateGas : Int) (e : Env World) :
    Except String (Result × Env World) := do
  let (db, cp) := e.host.db.checkpoint
  let x ← executeTopLevelMessage S call tx gas stateGas (setDb e db)
  closeResult cp x

theorem topDelegate_eq (code : Bytes) : topDelegate code = delegateOf (code.take 23) := by
  unfold topDelegate delegateOf
  have htake : (code.take 23).take 3 = code.take 3 := by rw [take_take]; rfl
  have hdrop : (code.take 23).drop 3 = (code.drop 3).take 20 := by rw [drop_take]
  by_cases hlen : 23 ≤ code.length
  · have hfull : (code.take 23).length = 23 := by rw [length_take]; omega
    simp only [hlen, hfull, htake, hdrop, true_and]
  · have hshort : (code.take 23).length ≠ 23 := by rw [length_take]; omega
    simp only [hlen, hshort, false_and, dif_neg, not_false_eq_true]

end Zeg.Execution
