import Zeg.StateDB.Calls

-- The gas of zevm's frames: regular gas, the state-gas reservoir with what spilled out of it into
-- regular gas, and the refund counter.
namespace Zeg.Gas

open Base StateDB

def WARM_ACCESS : Int := 100
def COLD_SLOAD_COST : Int := 2100
def ACCOUNT_WRITE : Int := 9000
def STORAGE_WRITE : Int := 10000
def CREATE_ACCESS : Int := ACCOUNT_WRITE + 3000
def COST_PER_STATE_BYTE : Int := 1530
def NEW_ACCOUNT_STATE_GAS : Int := 120 * COST_PER_STATE_BYTE
def STORAGE_SET_STATE_GAS : Int := 64 * COST_PER_STATE_BYTE
def CALL_STIPEND : Int := 2300
def ACCOUNT_CREATION : Int := 25000
def SELFDESTRUCT_GAS : Int := 5000
def SELFDESTRUCT_REFUND : Int := 24000
def SSTORE_SENTRY_GAS : Int := 2300

def coldAccountAccess (rev : Revision) : Int := if rev.atLeast .Amsterdam then 3000 else 2600

def callValueCost (rev : Revision) : Int :=
  if rev.atLeast .Amsterdam then ACCOUNT_WRITE + CALL_STIPEND else 9000

-- EvmState's gas, state_gas_left and state_gas_spilled.
structure Purse where
  gas : Int
  left : Int
  spilled : Int
deriving DecidableEq

namespace Purse

variable (p : Purse)

def spend (cost : Int) : Option Purse :=
  if p.gas < cost then none else some { p with gas := p.gas - cost }

def spendIf (b : Bool) (cost : Int) : Option Purse := if b then p.spend cost else some p

-- state_gas_charge: the reservoir first, the rest from the regular gas.
def charge (cost : Int) : Option Purse :=
  if cost ≤ p.left then some { p with left := p.left - cost }
  else if p.gas < cost - p.left then none
  else some ⟨p.gas - (cost - p.left), 0, p.spilled + (cost - p.left)⟩

def chargeIf (b : Bool) (cost : Int) : Option Purse := if b then p.charge cost else some p

-- state_gas_refill: to the regular gas up to what was spilled, the rest to the reservoir.
def refill (cost : Int) : Purse :=
  ⟨p.gas + min cost p.spilled, p.left + (cost - min cost p.spilled), p.spilled - min cost p.spilled⟩

-- The cap of EIP-150 on the gas a child gets.
def allButOne64th : Int := p.gas - p.gas / 64

end Purse

-- The statuses that the gas depends on; `Failure` stands for every exceptional halt.
inductive Status where
  | Success
  | Revert
  | Failure
deriving DecidableEq

structure Result where
  status : Status
  gasLeft : Int
  refund : Int
  left : Int
  spilled : Int
deriving DecidableEq

-- absorb_child_state_gas: the child got the whole reservoir.
def Purse.absorb (p : Purse) (r : Result) : Purse :=
  ({ p with left := 0, spilled := p.spilled + r.spilled } : Purse).refill r.left

structure StorageCostSpec where
  warm : Int
  set : Int
  reset : Int
  clear : Int
  cold : Int

def storageSpec (rev : Revision) : StorageCostSpec :=
  if rev.atLeast .Amsterdam then
    { warm := WARM_ACCESS, set := WARM_ACCESS + STORAGE_WRITE, reset := WARM_ACCESS + STORAGE_WRITE
      clear := (STORAGE_WRITE + COLD_SLOAD_COST) * 4800 / 5000, cold := COLD_SLOAD_COST - WARM_ACCESS }
  else
    { warm := WARM_ACCESS, set := 20000, reset := 5000 - COLD_SLOAD_COST
      clear := if rev.atLeast .London then 4800 else 15000, cold := COLD_SLOAD_COST }

-- {cost, refund} of a write; every revision from Berlin on meters net.
def sstoreCost (rev : Revision) (status : StorageStatus) : Int × Int :=
  let c := storageSpec rev
  match status with
  | .Assigned => (c.warm, 0)
  | .Added => (c.set, 0)
  | .Deleted => (c.reset, c.clear)
  | .Modified => (c.reset, 0)
  | .DeletedAdded => (c.warm, -c.clear)
  | .ModifiedDeleted => (c.warm, c.clear)
  | .DeletedRestored => (c.warm, c.reset - c.warm - c.clear)
  | .AddedDeleted => (c.warm, c.set - c.warm)
  | .ModifiedRestored => (c.warm, c.reset - c.warm)

-- What a call opcode finds: `delegate` is whether the delegate of a delegated target is cold,
-- `newAccount` that value goes to a missing account, `poor` that the balance is below the value.
structure Call where
  reqGas : Nat
  memoryCost : Nat
  value : Bool
  cold : Bool
  delegate : Option Bool
  newAccount : Bool
  poor : Bool

def Call.stipend (c : Call) : Int := if c.value then CALL_STIPEND else 0

-- What becomes of init code that has run: `rejected` is that the returned code is too long or, from
-- London on, starts with 0xef.
structure Deploy where
  collision : Bool
  rejected : Bool
  codeSize : Nat

-- `light` is a failure that pushes 0 (balance, nonce).
structure Create extends Deploy where
  memoryCost : Nat
  initCost : Nat
  light : Bool
  newAccount : Bool

-- A run of one frame, as the sequence of its gas events. `Spend` is any opcode with a fixed cost
-- or a memory cost; stack and static-mode errors are halts. `K` are the storage rows.
inductive Code (K : Type) where
  | Halt (status : Status)
  | Spend (cost : Nat) (next : Code K)
  | SStore (key : K) (value : Word) (cold : Bool) (next : Code K)
  | Call (args : Call) (child next : Code K)
  | Create (args : Create) (init next : Code K)
  | Selfdestruct (cold newAccount first : Bool)

structure Machine (K : Type) where
  purse : Purse
  refund : Int
  storage : K → Word

-- call_impl up to the new-account charge; the flag is new_account_charged.
def callCharges (rev : Revision) (c : Call) (p : Purse) : Option (Purse × Bool) := do
  let p ← p.spend WARM_ACCESS
  let p ← p.spend c.memoryCost
  let p ← p.spendIf c.value (callValueCost rev)
  let p ← p.spendIf c.cold (coldAccountAccess rev - WARM_ACCESS)
  let p ← p.spendIf (rev.atLeast .Prague && c.delegate.isSome)
    (if c.delegate = some true then coldAccountAccess rev else WARM_ACCESS)
  if c.value && c.newAccount then
    if rev.atLeast .Amsterdam then (p.charge NEW_ACCOUNT_STATE_GAS).map (·, true)
    else (p.spend ACCOUNT_CREATION).map (·, false)
  else some (p, false)

-- create_impl up to the light failures.
def createCharges (rev : Revision) (c : Create) (p : Purse) : Option Purse := do
  let p ← p.spend (if rev.atLeast .Amsterdam then CREATE_ACCESS else 32000)
  let p ← p.spend c.memoryCost
  p.spend c.initCost

-- The result a frame that was given `stateGas` reports: a failed one rolls its state gas back.
def frameResult (rev : Revision) (stateGas : Int) (p : Purse) (refund : Int) (status : Status) : Result :=
  let p := if rev.atLeast .Amsterdam && status ≠ .Success then ⟨p.gas + p.spilled, stateGas, 0⟩ else p
  { status := status
    gasLeft := if status = .Failure then 0 else p.gas
    refund := if status = .Success then refund else 0
    left := p.left
    spilled := p.spilled }

-- A failure of the host around a frame: all gas is burned, the reservoir returned.
def burned (stateGas : Int) : Result := ⟨.Failure, 0, 0, stateGas, 0⟩

-- charge_code_deposit
def chargeCodeDeposit (rev : Revision) (size : Nat) (r : Result) : Option Result :=
  if rev.atLeast .Amsterdam then do
    let p ← (⟨r.gasLeft, r.left, r.spilled⟩ : Purse).spend (6 * ((size + 31) / 32 : Nat))
    let p ← p.charge (size * COST_PER_STATE_BYTE)
    return { r with gasLeft := p.gas, left := p.left, spilled := p.spilled }
  else if r.gasLeft < size * 200 then none
  else some { r with gasLeft := r.gasLeft - size * 200 }

-- call_create after the init code has run.
def deployed (rev : Revision) (stateGas : Int) (c : Deploy) (r : Result) : Result :=
  if r.status ≠ .Success then r
  else if c.rejected then burned stateGas
  else (chargeCodeDeposit rev c.codeSize r).getD (burned stateGas)

-- What a caller takes back from a child that was given `msgGas` out of the purse.
def Purse.afterCall (rev : Revision) (p : Purse) (msgGas : Int) (r : Result) (charged : Bool) : Purse :=
  let p := { p with gas := p.gas - (msgGas - r.gasLeft) }
  if rev.atLeast .Amsterdam then
    let p := p.absorb r
    if charged && r.status ≠ .Success then p.refill NEW_ACCOUNT_STATE_GAS else p
  else p

def Purse.refillIf (p : Purse) (charged : Bool) : Purse :=
  if charged then p.refill NEW_ACCOUNT_STATE_GAS else p

-- op_sstore after the sentry: the write has a cost, and from Amsterdam on a slot costs state gas.
def sstoreCharge (rev : Revision) (status : StorageStatus) (cold : Bool) (p : Purse) : Option Purse := do
  let p ← p.spend ((sstoreCost rev status).1 + if cold then (storageSpec rev).cold else 0)
  if rev.atLeast .Amsterdam then
    match status with
    | .Added => p.charge STORAGE_SET_STATE_GAS
    | .AddedDeleted => some (p.refill STORAGE_SET_STATE_GAS)
    | _ => some p
  else some p

def selfdestructCharges (rev : Revision) (cold newAccount : Bool) (p : Purse) : Option Purse := do
  let p ← p.spend SELFDESTRUCT_GAS
  let p ← p.spendIf cold (coldAccountAccess rev)
  if newAccount then
    if rev.atLeast .Amsterdam then
      let p ← p.spend ACCOUNT_WRITE
      p.charge NEW_ACCOUNT_STATE_GAS
    else p.spend ACCOUNT_CREATION
  else some p

section Exec

variable {K : Type} [DecidableEq K]

-- ZiskStateDB::call around a frame that ended in `m`: a frame that did not succeed is rolled back.
def hostCall (rev : Revision) (stateGas : Int) (before : K → Word) (m : Machine K) (status : Status) :
    Result × (K → Word) :=
  (frameResult rev stateGas m.purse m.refund status, if status = .Success then m.storage else before)

def hostCreate (rev : Revision) (stateGas : Int) (c : Deploy) (before : K → Word) (m : Machine K)
    (status : Status) : Result × (K → Word) :=
  if c.collision then (burned stateGas, before)
  else
    let r := deployed rev stateGas c (frameResult rev stateGas m.purse m.refund status)
    (r, if r.status = .Success then m.storage else before)

-- One frame. `orig` are the values of the rows when the transaction started, which the host
-- classifies writes by. A precompile is a child that spends its cost and halts.
def exec (rev : Revision) (orig : K → Word) : Code K → Nat → Machine K → Machine K × Status
  | .Halt status, _, m => (m, status)
  | .Spend cost next, depth, m =>
    match m.purse.spend cost with
    | none => (m, .Failure)
    | some p => exec rev orig next depth { m with purse := p }
  | .SStore key v cold next, depth, m =>
    if m.purse.gas ≤ SSTORE_SENTRY_GAS then (m, .Failure)
    else
      let status := computeStorageStatus (orig key) (m.storage key) v
      -- The host has the write before the gas is checked.
      let storage := Function.update m.storage key v
      match sstoreCharge rev status cold m.purse with
      | none => ({ m with storage := storage }, .Failure)
      | some p => exec rev orig next depth ⟨p, m.refund + (sstoreCost rev status).2, storage⟩
  | .Call c child next, depth, m =>
    match callCharges rev c m.purse with
    | none => (m, .Failure)
    | some (p, charged) =>
      let msgGas := min (c.reqGas : Int) p.allButOne64th + c.stipend
      let p := { p with gas := p.gas + c.stipend }
      if c.value && c.poor || 1024 ≤ depth then
        exec rev orig next depth { m with purse := p.refillIf charged }
      else
        let (m', status) := exec rev orig child (depth + 1) ⟨⟨msgGas, p.left, 0⟩, 0, m.storage⟩
        let (r, storage) := hostCall rev p.left m.storage m' status
        exec rev orig next depth ⟨p.afterCall rev msgGas r charged, m.refund + r.refund, storage⟩
  | .Create c init next, depth, m =>
    match createCharges rev c m.purse with
    | none => (m, .Failure)
    | some p =>
      if 1024 ≤ depth || c.light then exec rev orig next depth { m with purse := p }
      else
        let charged := rev.atLeast .Amsterdam && c.newAccount
        match p.chargeIf charged NEW_ACCOUNT_STATE_GAS with
        | none => (m, .Failure)
        | some p =>
          let msgGas := p.allButOne64th
          let (m', status) := exec rev orig init (depth + 1) ⟨⟨msgGas, p.left, 0⟩, 0, m.storage⟩
          let (r, storage) := hostCreate rev p.left c.toDeploy m.storage m' status
          exec rev orig next depth ⟨p.afterCall rev msgGas r charged, m.refund + r.refund, storage⟩
  | .Selfdestruct cold newAccount first, _, m =>
    match selfdestructCharges rev cold newAccount m.purse with
    | none => (m, .Failure)
    | some p =>
      let refund := if first && !rev.atLeast .London then SELFDESTRUCT_REFUND else 0
      ({ m with purse := p, refund := m.refund + refund }, .Success)

end Exec

end Zeg.Gas
