import Mathlib.Logic.Relation
import Zeg.Base.Bytes

-- The prover pipeline of the ExEx: one proof in flight. Payloads start jobs, engine events stop them,
-- and the jobs run beside.
namespace Zeg.ExEx

open Base

structure Block where
  number : Nat
  hash : Bytes32
  parentHash : Bytes32
  timestamp : Nat
deriving DecidableEq

-- A payload seen by one of the job sources; whether it came with its access list.
structure Incoming where
  block : Block
  bal : Bool
deriving DecidableEq

structure Config where
  afterExecution : Bool
  prover : Bool
  submitter : Bool
  submit : Bool

inductive Ending where
  | Cancelled
  | Discarded
  | Built
  | Emulated
  | Signed
  | Submitted
  | Failed (message : String)
deriving DecidableEq

-- Where a job is: the waits of its first step, the input, the proof, and what follows the proof.
inductive Stage where
  | WaitParent
  | WaitExecuted
  | Build
  | Prove
  | Sign
  | Ended (ending : Ending)
deriving DecidableEq

-- A job's two tokens stand beside it.
structure Job where
  payload : Incoming
  cancel : Bool
  discard : Bool
  stage : Stage
deriving DecidableEq

structure InFlight where
  number : Nat
  hash : Bytes32
  job : Nat
deriving DecidableEq

structure Pipeline where
  current : Option InFlight
  started : List Bytes32
  jobs : List Job
deriving DecidableEq

def Pipeline.new : Pipeline := ⟨none, [], []⟩

def kStartedMax : Nat := 64

def fallbackMaxAgeSecs : Nat := 24

def Pipeline.setJob (s : Pipeline) (i : Nat) (f : Job → Job) : Pipeline := { s with jobs := s.jobs.modify i f }

def Job.cancelled (job : Job) : Job := { job with cancel := true }

def Job.dropped (job : Job) : Job := { job with cancel := true, discard := true }

def Pipeline.start (s : Pipeline) (p : Incoming) : Pipeline :=
  let started := s.started ++ [p.block.hash]
  { current := some ⟨p.block.number, p.block.hash, s.jobs.length⟩
    started := if kStartedMax < started.length then started.tail else started
    jobs := s.jobs ++ [⟨p, false, false, .WaitParent⟩] }

def Pipeline.onPayload (s : Pipeline) (p : Incoming) : Pipeline :=
  if s.started.contains p.block.hash then s
  else match s.current with
    | none => s.start p
    | some cur => if p.block.number < cur.number then s else (s.setJob cur.job Job.cancelled).start p

-- What a turn of a job finds: whether the parent's state and header are served, whether the block was
-- executed, whether a wait is over its time, and how the calls it makes end.
inductive ProverAnswer where
  | Pending
  | Cancelled
  | Proved
  | Failed (message : String)
deriving DecidableEq

structure Turn where
  parentServed : Bool
  executed : Bool
  late : Bool
  input : Except String Unit
  prover : ProverAnswer
  signing : Except String Unit

def Job.step (cfg : Config) (job : Job) (t : Turn) : Stage :=
  match job.stage with
  | .WaitParent =>
    if t.parentServed then (if cfg.afterExecution && job.payload.bal then .WaitExecuted else .Build)
    else if job.cancel then .Ended .Cancelled
    else if t.late then .Ended (.Failed "parent state/header never became available")
    else .WaitParent
  | .WaitExecuted =>
    if t.executed then .Build
    else if job.cancel then .Ended .Cancelled
    else if t.late then .Ended (.Failed "reth did not execute the block within 12 s")
    else .WaitExecuted
  | .Build =>
    match t.input with
    | .error message => .Ended (.Failed message)
    | .ok () =>
      if !cfg.prover then .Ended .Built
      else if job.cancel then .Ended .Cancelled
      else .Prove
  | .Prove =>
    match t.prover with
    | .Pending => .Prove
    -- The prover gives up on the token alone.
    | .Cancelled => if job.cancel then .Ended .Cancelled else .Prove
    | .Failed message => .Ended (.Failed message)
    | .Proved =>
      if job.discard then .Ended .Discarded
      else if !cfg.submitter then .Ended .Emulated
      else .Sign
  | .Sign =>
    match t.signing with
    | .error message => .Ended (.Failed message)
    | .ok () => if cfg.submit then .Ended .Submitted else .Ended .Signed
  | .Ended ending => .Ended ending

-- The engine's events, the payloads, and the turns of the jobs. The marks on the timelines are left out.
inductive Event where
  | Payload (p : Incoming)
  | BlockReceived (hash : Bytes32)
  | CanonicalBlockAdded (block : Block) (now : Nat)
  | ForkBlockAdded (block : Block)
  | InvalidBlock (block : Block)
  | CanonicalChainCommitted (head : Block)
  | Polled (job : Nat) (turn : Turn)

def Pipeline.onEvent (cfg : Config) (s : Pipeline) : Event → Pipeline
  | .Payload p => s.onPayload p
  | .BlockReceived _ => s
  | .CanonicalBlockAdded block now =>
    -- The fallback source.
    if !s.started.contains block.hash && now - block.timestamp ≤ fallbackMaxAgeSecs then s.onPayload ⟨block, false⟩
    else s
  | .ForkBlockAdded _ => s
  | .InvalidBlock block =>
    match s.current with
    | none => s
    | some cur => if cur.hash = block.hash then s.setJob cur.job Job.dropped else s
  | .CanonicalChainCommitted head =>
    match s.current with
    | none => s
    | some cur =>
      if head.number ≤ cur.number ∧ head.hash ≠ cur.hash then s.setJob cur.job Job.dropped else s
  | .Polled i turn => s.setJob i fun job => { job with stage := job.step cfg turn }

def run (cfg : Config) (events : List Event) : Pipeline := events.foldl (Pipeline.onEvent cfg) .new

-- The blocks' tree.

def Parent (a b : Block) : Prop := b.parentHash = a.hash ∧ b.number = a.number + 1

def Ancestor (a b : Block) : Prop := Relation.TransGen Parent a b

def WasCanonical (events : List Event) (b : Block) : Prop :=
  ∃ head, .CanonicalChainCommitted head ∈ events ∧ (head = b ∨ Ancestor b head)

def Conflicts (events : List Event) (head b : Block) : Prop := ¬Ancestor head b ∨ WasCanonical events b

def Event.block : Event → Option Block
  | .Payload p => some p.block
  | .BlockReceived _ => none
  | .CanonicalBlockAdded block _ => some block
  | .ForkBlockAdded block => some block
  | .InvalidBlock block => some block
  | .CanonicalChainCommitted head => some head
  | .Polled _ _ => none

-- A hash names one block among those of the run.
def Sealed (events : List Event) : Prop :=
  ∀ e ∈ events, ∀ e' ∈ events, ∀ b ∈ e.block, ∀ b' ∈ e'.block, b.hash = b'.hash → b = b'

-- The job had a token free that it has no more.
def Stops (job job' : Job) : Prop := job.cancel = false ∧ job'.cancel = true ∨ job.discard = false ∧ job'.discard = true

-- Commits stop jobs of conflicting blocks only. A block whose parent is committed keeps its job.
structure NoSpuriousCancellation (cfg : Config) (events : List Event) : Prop where
  conflict : ∀ before head after, events = before ++ .CanonicalChainCommitted head :: after →
    ∀ (i : Nat) job job', (run cfg before).jobs[i]? = some job →
      (run cfg (before ++ [.CanonicalChainCommitted head])).jobs[i]? = some job' → Stops job job' →
      Conflicts before head job.payload.block
  parent : ∀ before head after, events = before ++ .CanonicalChainCommitted head :: after →
    ∀ (i : Nat) job, (run cfg before).jobs[i]? = some job → Parent head job.payload.block →
      ¬WasCanonical before job.payload.block →
      (run cfg (before ++ [.CanonicalChainCommitted head])).jobs[i]? = some job

end Zeg.ExEx
