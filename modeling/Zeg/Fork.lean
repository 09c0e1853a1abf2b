import Zeg.StateDB

-- Forks: the header fields each encodes, its EVM revision, and the schedule a build reads it from.
namespace Zeg.Fork

open StateDB (Revision)

inductive ForkId where
  | Unknown
  | Berlin
  | London
  | Paris
  | Shanghai
  | Cancun
  | Prague
  | Osaka
  | Amsterdam
deriving DecidableEq, Repr

def ForkId.atLeast (f g : ForkId) : Bool := g.ctorIdx ≤ f.ctorIdx

def ForkId.ofCode : Nat → ForkId
  | 1 => .Berlin
  | 2 => .London
  | 3 => .Paris
  | 4 => .Shanghai
  | 5 => .Cancun
  | 6 => .Prague
  | 7 => .Osaka
  | 8 => .Amsterdam
  | _ => .Unknown

def forkFieldCount : ForkId → Nat
  | .Berlin => 15
  | .London => 16
  | .Paris => 16
  | .Shanghai => 17
  | .Cancun => 20
  | .Prague => 21
  | .Osaka => 21
  | .Amsterdam => 23
  | .Unknown => 21

def forkToRevision : ForkId → Revision
  | .Berlin => .Berlin
  | .London => .London
  | .Paris => .Paris
  | .Shanghai => .Shanghai
  | .Cancun => .Cancun
  | .Prague => .Prague
  | .Osaka => .Osaka
  | .Amsterdam => .Amsterdam
  | .Unknown => .Prague

def forkFromFieldCount : Nat → ForkId
  | 15 => .Berlin
  | 16 => .London
  | 17 => .Shanghai
  | 20 => .Cancun
  | 21 => .Prague
  | 23 => .Amsterdam
  | _ => .Prague

structure ForkParams where
  fork : ForkId
  targetBlobGas : UInt64
  maxBlobGas : UInt64
  blobBaseFeeUpdateFraction : UInt64

structure ScheduleRow where
  activation : UInt64
  params : ForkParams

def kGasPerBlob : UInt64 := 131072

inductive Chain where
  | Mainnet
  | Sepolia
deriving DecidableEq

def kForkSchedule : Chain → List ScheduleRow
  | .Sepolia =>
    [⟨1791294816, .Amsterdam, 14 * kGasPerBlob, 21 * kGasPerBlob, 11684671⟩,
     ⟨1761607008, .Osaka, 14 * kGasPerBlob, 21 * kGasPerBlob, 11684671⟩,
     ⟨1761017184, .Osaka, 10 * kGasPerBlob, 15 * kGasPerBlob, 8346193⟩,
     ⟨1760427360, .Osaka, 6 * kGasPerBlob, 9 * kGasPerBlob, 5007716⟩,
     ⟨1741159776, .Prague, 6 * kGasPerBlob, 9 * kGasPerBlob, 5007716⟩,
     ⟨1706655072, .Cancun, 3 * kGasPerBlob, 6 * kGasPerBlob, 3338477⟩]
  | .Mainnet =>
    [⟨1767747671, .Osaka, 14 * kGasPerBlob, 21 * kGasPerBlob, 11684671⟩,
     ⟨1765290071, .Osaka, 10 * kGasPerBlob, 15 * kGasPerBlob, 8346193⟩,
     ⟨1764798551, .Osaka, 6 * kGasPerBlob, 9 * kGasPerBlob, 5007716⟩,
     ⟨1746612311, .Prague, 6 * kGasPerBlob, 9 * kGasPerBlob, 5007716⟩,
     ⟨1710338135, .Cancun, 3 * kGasPerBlob, 6 * kGasPerBlob, 3338477⟩]

def forkParamsAt (chain : Chain) (timestamp : UInt64) : ForkParams :=
  (((kForkSchedule chain).find? fun row => row.activation ≤ timestamp).map ScheduleRow.params).getD
    ⟨.Unknown, 0, 0, 0⟩

-- How the guest is compiled: for which chain, and whether ZEG_FORK_FROM_INPUT is defined.
structure Build where
  chain : Chain
  forkFromInput : Bool

end Zeg.Fork
