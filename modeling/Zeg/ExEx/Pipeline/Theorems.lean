import Mathlib.Data.List.Induction
import Zeg.Digest
import Zeg.ExEx.Pipeline

-- When a committed head stops the job in flight, and what becomes of that job.
namespace Zeg.ExEx

open Base List

section

variable {cfg : Config} {s : Pipeline} {events : List Event}

theorem run_append (cfg : Config) (events : List Event) (e : Event) :
    run cfg (events ++ [e]) = (run cfg events).onEvent cfg e := by
  rw [run, foldl_append]
  rfl

theorem Ancestor.number_lt {a b : Block} (h : Ancestor a b) : a.number < b.number := by
  induction h with
  | single h => rw [h.2]; exact Nat.lt_succ_self _
  | tail _ h ih => rw [h.2]; exact Nat.lt_succ_of_lt ih

theorem jobs_setJob (i : Nat) (f : Job → Job) (k : Nat) :
    (s.setJob i f).jobs[k]? = (s.jobs[k]?).map fun job => if i = k then f job else job := by
  rw [Pipeline.setJob, List.getElem?_modify]
  cases s.jobs[k]? with
  | none => rfl
  | some job => rfl

theorem setJob_found {i : Nat} {f : Job → Job} {k : Nat} {job : Job} (h : s.jobs[k]? = some job) :
    (s.setJob i f).jobs[k]? = some (if i = k then f job else job) := by
  rw [jobs_setJob, h]
  rfl

theorem start_found {p : Incoming} {k : Nat} {job : Job} (h : s.jobs[k]? = some job) :
    (s.start p).jobs[k]? = some job := by
  obtain ⟨hlt, -⟩ := List.getElem?_eq_some_iff.1 h
  rw [Pipeline.start, List.getElem?_append_left hlt, h]

theorem start_last (s : Pipeline) (p : Incoming) :
    (s.start p).jobs[s.jobs.length]? = some ⟨p, false, false, .WaitParent⟩ := by
  rw [Pipeline.start, List.getElem?_append_right (Nat.le_refl _), Nat.sub_self]
  rfl

-- A payload starts a job or does nothing; a job it starts cancels the one in flight.
theorem onPayload_cases (s : Pipeline) (p : Incoming) :
    s.onPayload p = s ∨ s.current = none ∧ s.onPayload p = s.start p ∨
      ∃ cur, s.current = some cur ∧ s.onPayload p = (s.setJob cur.job Job.cancelled).start p := by
  rw [Pipeline.onPayload]
  split
  · exact .inl rfl
  · cases hcur : s.current with
    | none => exact .inr (.inl ⟨rfl, rfl⟩)
    | some cur =>
      dsimp only
      split
      · exact .inl rfl
      · exact .inr (.inr ⟨cur, rfl, rfl⟩)

-- What an event can do: nothing, start a job, or change the job in flight or the one that runs.
theorem onEvent_cases (cfg : Config) (s : Pipeline) (e : Event) :
    s.onEvent cfg e = s ∨
    (∃ p, e.block = some p.block ∧ s.onEvent cfg e = s.onPayload p) ∨
    (∃ cur, s.current = some cur ∧ s.onEvent cfg e = s.setJob cur.job Job.dropped) ∨
    ∃ i turn, s.onEvent cfg e = s.setJob i fun job => { job with stage := job.step cfg turn } := by
  cases e with
  | Payload p => exact .inr (.inl ⟨p, rfl, rfl⟩)
  | BlockReceived hash => exact .inl rfl
  | CanonicalBlockAdded block now =>
    rw [Pipeline.onEvent]
    split
    · exact .inr (.inl ⟨⟨block, false⟩, rfl, rfl⟩)
    · exact .inl rfl
  | ForkBlockAdded block => exact .inl rfl
  | InvalidBlock block =>
    cases hcur : s.current with
    | none => rw [Pipeline.onEvent, hcur]; exact .inl rfl
    | some cur =>
      rw [Pipeline.onEvent, hcur]
      dsimp only
      split
      · exact .inr (.inr (.inl ⟨cur, rfl, rfl⟩))
      · exact .inl rfl
  | CanonicalChainCommitted head =>
    cases hcur : s.current with
    | none => rw [Pipeline.onEvent, hcur]; exact .inl rfl
    | some cur =>
      rw [Pipeline.onEvent, hcur]
      dsimp only
      split
      · exact .inr (.inr (.inl ⟨cur, rfl, rfl⟩))
      · exact .inl rfl
  | Polled i turn => exact .inr (.inr (.inr ⟨i, turn, rfl⟩))

-- The job in flight is the one of the block in flight, and its tokens go together.
def Pipeline.Sound (s : Pipeline) (seen : Block → Prop) : Prop :=
  ∀ cur, s.current = some cur → ∃ job, s.jobs[cur.job]? = some job ∧ job.payload.block.number = cur.number ∧
    job.payload.block.hash = cur.hash ∧ seen job.payload.block ∧ job.cancel = job.discard

variable {seen seen' : Block → Prop}

theorem Pipeline.Sound.mono (h : s.Sound seen) (hseen : ∀ b, seen b → seen' b) : s.Sound seen' := by
  intro cur hcur
  obtain ⟨job, hjob, hnumber, hhash, hb, htokens⟩ := h cur hcur
  exact ⟨job, hjob, hnumber, hhash, hseen _ hb, htokens⟩

theorem sound_setJob (h : s.Sound seen) (i : Nat) {f : Job → Job}
    (hf : ∀ job, (f job).payload = job.payload ∧ (job.cancel = job.discard → (f job).cancel = (f job).discard)) :
    (s.setJob i f).Sound seen := by
  intro cur hcur
  obtain ⟨job, hjob, hnumber, hhash, hb, htokens⟩ := h cur hcur
  refine ⟨_, setJob_found hjob, ?_⟩
  by_cases hi : i = cur.job
  · rw [if_pos hi, (hf job).1]
    exact ⟨hnumber, hhash, hb, (hf job).2 htokens⟩
  · rw [if_neg hi]
    exact ⟨hnumber, hhash, hb, htokens⟩

theorem sound_start (s : Pipeline) {p : Incoming} (hp : seen p.block) : (s.start p).Sound seen := by
  intro cur hcur
  obtain rfl := Option.some.inj hcur
  exact ⟨_, start_last s p, rfl, rfl, hp, rfl⟩

theorem sound_onEvent (h : s.Sound seen) {e : Event} (he : ∀ b ∈ e.block, seen b) : (s.onEvent cfg e).Sound seen := by
  obtain hsame | ⟨p, hp, hpayload⟩ | ⟨cur, -, hdrop⟩ | ⟨i, turn, hturn⟩ := onEvent_cases cfg s e
  · rwa [hsame]
  · rw [hpayload]
    obtain hsame | ⟨-, hstart⟩ | ⟨cur, -, hstart⟩ := onPayload_cases s p
    · rwa [hsame]
    · rw [hstart]
      exact sound_start s (he _ hp)
    · rw [hstart]
      exact sound_start _ (he _ hp)
  · rw [hdrop]
    exact sound_setJob h _ fun job => ⟨rfl, fun _ => rfl⟩
  · rw [hturn]
    exact sound_setJob h _ fun job => ⟨rfl, id⟩

theorem sound_run (cfg : Config) (events : List Event) : (run cfg events).Sound fun b => ∃ e ∈ events, b ∈ e.block := by
  induction events using List.reverseRecOn with
  | nil => exact fun cur hcur => nomatch hcur
  | append_singleton events e ih =>
    rw [run_append]
    apply sound_onEvent
    · exact ih.mono fun b ⟨e', he', hb⟩ => ⟨e', mem_append_left _ he', hb⟩
    · exact fun b hb => ⟨e, mem_append_right _ (mem_singleton.2 rfl), hb⟩

theorem commit_job {head : Block} {i : Nat} {job : Job} (h : s.jobs[i]? = some job) :
    (s.onEvent cfg (.CanonicalChainCommitted head)).jobs[i]? = some job ∨
      ∃ cur, s.current = some cur ∧ cur.job = i ∧ head.number ≤ cur.number ∧ head.hash ≠ cur.hash ∧
        (s.onEvent cfg (.CanonicalChainCommitted head)).jobs[i]? = some job.dropped := by
  cases hcur : s.current with
  | none =>
    rw [Pipeline.onEvent, hcur]
    exact .inl h
  | some cur =>
    rw [Pipeline.onEvent, hcur]
    dsimp only
    split
    · next hle =>
      rw [setJob_found h]
      by_cases hi : cur.job = i
      · exact .inr ⟨cur, rfl, hi, hle.1, hle.2, by rw [if_pos hi]⟩
      · exact .inl (by rw [if_neg hi])
    · exact .inl h

theorem commit_drops {head : Block} {cur : InFlight} {job : Job} (hcur : s.current = some cur)
    (hjob : s.jobs[cur.job]? = some job) (hnumber : head.number ≤ cur.number) (hhash : head.hash ≠ cur.hash) :
    (s.onEvent cfg (.CanonicalChainCommitted head)).jobs[cur.job]? = some job.dropped := by
  rw [Pipeline.onEvent, hcur]
  dsimp only
  rw [if_pos ⟨hnumber, hhash⟩, setJob_found hjob, if_pos rfl]

theorem dropped_of_stopped {job : Job} (hcancel : job.cancel = true) (hdiscard : job.discard = true) :
    job.dropped = job := by
  obtain ⟨payload, cancel, discard, stage⟩ := job
  subst hcancel hdiscard
  rfl

theorem not_stops_self (job : Job) : ¬Stops job job := by
  rintro (⟨hfree, hset⟩ | ⟨hfree, hset⟩)
  · rw [hfree] at hset
    cases hset
  · rw [hfree] at hset
    cases hset

-- No ancestor of a block that was never canonical is committed while the block's job is in flight and
-- not yet stopped.
def AncestorsFirst (cfg : Config) (events : List Event) : Prop :=
  ∀ before head after, events = before ++ .CanonicalChainCommitted head :: after →
    ∀ cur job, (run cfg before).current = some cur → (run cfg before).jobs[cur.job]? = some job → job.cancel = false →
      Ancestor head job.payload.block → WasCanonical before job.payload.block

-- A discarded job that has no proof yet.
def Job.Lost (job : Job) : Prop :=
  job.discard = true ∧ job.stage ∉ [.Sign, .Ended .Emulated, .Ended .Signed, .Ended .Submitted]

theorem step_lost {job : Job} (h : job.Lost) (turn : Turn) : { job with stage := job.step cfg turn }.Lost := by
  obtain ⟨payload, cancel, discard, stage⟩ := job
  obtain ⟨hdiscard, hstage⟩ := h
  refine ⟨hdiscard, ?_⟩
  subst hdiscard
  cases stage with
  | WaitParent => simp only [Job.step]; split_ifs <;> simp
  | WaitExecuted => simp only [Job.step]; split_ifs <;> simp
  | Build =>
    simp only [Job.step]
    split
    · simp
    · split_ifs <;> simp
  | Prove =>
    simp only [Job.step]
    split
    · simp
    · split_ifs <;> simp
    · simp
    · simp
  | Sign => simp at hstage
  | Ended ending => exact hstage

theorem lost_onEvent {i : Nat} {job : Job} (h : s.jobs[i]? = some job) (hlost : job.Lost) (e : Event) :
    ∃ job', (s.onEvent cfg e).jobs[i]? = some job' ∧ job'.payload = job.payload ∧ job'.Lost := by
  have hset (k : Nat) (f : Job → Job) (hf : (f job).payload = job.payload ∧ (f job).Lost) :
      ∃ job', (s.setJob k f).jobs[i]? = some job' ∧ job'.payload = job.payload ∧ job'.Lost := by
    refine ⟨_, setJob_found h, ?_⟩
    split
    · exact hf
    · exact ⟨rfl, hlost⟩
  obtain hsame | ⟨p, -, hpayload⟩ | ⟨cur, -, hdrop⟩ | ⟨k, turn, hturn⟩ := onEvent_cases cfg s e
  · rw [hsame]
    exact ⟨job, h, rfl, hlost⟩
  · rw [hpayload]
    obtain hsame | ⟨-, hstart⟩ | ⟨cur, -, hstart⟩ := onPayload_cases s p
    · rw [hsame]
      exact ⟨job, h, rfl, hlost⟩
    · exact ⟨job, hstart ▸ start_found h, rfl, hlost⟩
    · obtain ⟨job', hjob', hrest⟩ := hset cur.job Job.cancelled ⟨rfl, hlost⟩
      exact ⟨job', hstart ▸ start_found hjob', hrest⟩
  · exact hdrop ▸ hset cur.job Job.dropped ⟨rfl, rfl, hlost.2⟩
  · exact hturn ▸ hset k _ ⟨rfl, step_lost hlost turn⟩

theorem lost_run {before : List Event} {i : Nat} {job : Job}
    (h : (run cfg before).jobs[i]? = some job) (hlost : job.Lost) (after : List Event) :
    ∃ job', (run cfg (before ++ after)).jobs[i]? = some job' ∧ job'.payload = job.payload ∧ job'.Lost := by
  induction after using List.reverseRecOn with
  | nil => exact ⟨job, by rwa [append_nil], rfl, hlost⟩
  | append_singleton after e ih =>
    obtain ⟨job', hjob', hpayload, hlost'⟩ := ih
    rw [← append_assoc, run_append]
    obtain ⟨job'', hjob'', hpayload', hlost''⟩ := @lost_onEvent cfg _ _ _ hjob' hlost' e
    exact ⟨job'', hjob'', hpayload'.trans hpayload, hlost''⟩

-- The block in flight is invalid, or a commit leaves it out.
def Event.discards (cur : InFlight) : Event → Prop
  | .InvalidBlock block => cur.hash = block.hash
  | .CanonicalChainCommitted head => head.number ≤ cur.number ∧ head.hash ≠ cur.hash
  | _ => False

theorem onEvent_discards {cur : InFlight} {e : Event} (hcur : s.current = some cur) (he : e.discards cur) :
    s.onEvent cfg e = s.setJob cur.job Job.dropped := by
  cases e with
  | InvalidBlock | CanonicalChainCommitted =>
    rw [Pipeline.onEvent, hcur]
    exact if_pos he
  | _ => exact he.elim

-- What is discarded before its proof is there is never submitted, whatever comes after.
theorem discarded_never_submitted (cfg : Config) (before after : List Event) (e : Event) (cur : InFlight) (job : Job)
    (hcur : (run cfg before).current = some cur) (hjob : (run cfg before).jobs[cur.job]? = some job)
    (he : e.discards cur) (hstage : job.stage ∉ [.Sign, .Ended .Emulated, .Ended .Signed, .Ended .Submitted]) :
    ∃ job', (run cfg (before ++ e :: after)).jobs[cur.job]? = some job' ∧ job'.payload = job.payload ∧ job'.Lost := by
  have hdropped : (run cfg (before ++ [e])).jobs[cur.job]? = some job.dropped := by
    rw [run_append, onEvent_discards hcur he, setJob_found hjob, if_pos rfl]
  rw [append_cons]
  exact lost_run hdropped ⟨rfl, hstage⟩ after

-- The token that is free is the one of the job in flight, whose number no earlier job exceeds.
def Pipeline.Single (s : Pipeline) : Prop :=
  ∀ (i : Nat) job, s.jobs[i]? = some job → ∃ cur, s.current = some cur ∧ job.payload.block.number ≤ cur.number ∧
    (job.cancel = false → cur.job = i ∧ job.payload.block.hash = cur.hash)

theorem single_setJob (h : s.Single) (k : Nat) {f : Job → Job}
    (hf : ∀ job, (f job).payload = job.payload ∧ ((f job).cancel = false → job.cancel = false)) :
    (s.setJob k f).Single := by
  intro i job hjob
  rw [jobs_setJob] at hjob
  obtain ⟨old, hold, rfl⟩ := Option.map_eq_some_iff.1 hjob
  obtain ⟨cur, hcur, hnumber, hfree⟩ := h i old hold
  refine ⟨cur, hcur, ?_⟩
  split
  · rw [(hf old).1]
    exact ⟨hnumber, fun hnew => hfree ((hf old).2 hnew)⟩
  · exact ⟨hnumber, hfree⟩

theorem single_start {p : Incoming} (h : ∀ (i : Nat) job, s.jobs[i]? = some job →
    job.payload.block.number ≤ p.block.number ∧ job.cancel = true) : (s.start p).Single := by
  intro i job hjob
  refine ⟨_, rfl, ?_⟩
  rw [Pipeline.start] at hjob
  obtain hlt | hge := Nat.lt_or_ge i s.jobs.length
  · rw [List.getElem?_append_left hlt] at hjob
    obtain ⟨hnumber, hcancel⟩ := h i job hjob
    exact ⟨hnumber, fun hfree => absurd (hcancel.symm.trans hfree) nofun⟩
  · rw [List.getElem?_append_right hge] at hjob
    obtain ⟨hlt, rfl⟩ := List.getElem?_eq_some_iff.1 hjob
    have hlast : i = s.jobs.length := Nat.le_antisymm (Nat.sub_eq_zero_iff_le.1 (Nat.lt_one_iff.1 hlt)) hge
    rw [getElem_singleton]
    exact ⟨Nat.le_refl _, fun _ => ⟨hlast.symm, rfl⟩⟩

theorem single_onPayload (h : s.Single) (p : Incoming) : (s.onPayload p).Single := by
  rw [Pipeline.onPayload]
  split
  · exact h
  cases hcur : s.current with
  | none =>
    refine single_start fun i job hjob => ?_
    obtain ⟨cur, hsome, -⟩ := h i job hjob
    cases hcur.symm.trans hsome
  | some cur =>
    dsimp only
    split
    · exact h
    · next hle =>
      refine single_start fun i job hjob => ?_
      rw [jobs_setJob] at hjob
      obtain ⟨old, hold, rfl⟩ := Option.map_eq_some_iff.1 hjob
      obtain ⟨cur', hcur', hnumber, hfree⟩ := h i old hold
      obtain rfl := Option.some.inj (hcur.symm.trans hcur')
      split
      · exact ⟨by simp only [Job.cancelled]; omega, rfl⟩
      · next hother =>
        refine ⟨by omega, ?_⟩
        by_contra hnot
        exact hother (hfree (Bool.eq_false_iff.mpr hnot)).1

theorem single_run (cfg : Config) (events : List Event) : (run cfg events).Single := by
  induction events using List.reverseRecOn with
  | nil => exact fun i job hjob => nomatch hjob
  | append_singleton events e ih =>
    rw [run_append]
    obtain hsame | ⟨p, -, hpayload⟩ | ⟨cur, -, hdrop⟩ | ⟨k, turn, hturn⟩ := onEvent_cases cfg (run cfg events) e
    · rwa [hsame]
    · rw [hpayload]
      exact single_onPayload ih p
    · rw [hdrop]
      exact single_setJob ih _ fun job => ⟨rfl, nofun⟩
    · rw [hturn]
      exact single_setJob ih _ fun job => ⟨rfl, id⟩

-- One proof in flight: whatever came before, no two jobs have a free token.
theorem one_proof_in_flight (cfg : Config) (events : List Event) (i k : Nat) (job other : Job)
    (hi : (run cfg events).jobs[i]? = some job) (hk : (run cfg events).jobs[k]? = some other)
    (hfree : job.cancel = false) :
    other.payload.block.number ≤ job.payload.block.number ∧ (other.cancel = false → k = i) := by
  obtain ⟨cur, hcur, -, hcurrent⟩ := single_run cfg events i job hi
  obtain ⟨cur', hcur', hnumber, hother⟩ := single_run cfg events k other hk
  obtain rfl := Option.some.inj (hcur.symm.trans hcur')
  obtain ⟨rfl, -⟩ := hcurrent hfree
  obtain ⟨job', hjob', hsame, -⟩ := sound_run cfg events cur hcur
  obtain rfl := Option.some.inj (hi.symm.trans hjob')
  exact ⟨hsame.symm ▸ hnumber, fun hfree' => (hother hfree').1.symm⟩

end

-- A block whose payload comes before the commit of its parent.

def proving : Config := ⟨false, true, true, true⟩

def parentBlock : Block := ⟨7, digestOf 7, digestOf 6, 84⟩

def childBlock : Block := ⟨8, digestOf 8, digestOf 7, 96⟩

def waiting : Turn := ⟨false, false, false, .ok (), .Pending, .ok ()⟩

def overtaken : List Event :=
  [.Payload ⟨childBlock, true⟩, .CanonicalChainCommitted parentBlock, .Payload ⟨childBlock, true⟩,
    .CanonicalBlockAdded childBlock 97, .CanonicalChainCommitted childBlock, .Polled 0 waiting]

-- The child's payload supersedes the parent's.
theorem one_proof_in_flight_superseded :
    (run proving [.Payload ⟨parentBlock, true⟩, .Payload ⟨childBlock, true⟩]).jobs =
      [⟨⟨parentBlock, true⟩, true, false, .WaitParent⟩, ⟨⟨childBlock, true⟩, false, false, .WaitParent⟩] ∧
    parentBlock.number ≤ childBlock.number := by
  have hjobs : (run proving [.Payload ⟨parentBlock, true⟩, .Payload ⟨childBlock, true⟩]).jobs =
      [⟨⟨parentBlock, true⟩, true, false, .WaitParent⟩, ⟨⟨childBlock, true⟩, false, false, .WaitParent⟩] := by
    decide +kernel
  exact ⟨hjobs, (one_proof_in_flight _ _ 1 0 _ _ (by rw [hjobs]; rfl) (by rw [hjobs]; rfl) rfl).1⟩

-- The commit comes while the proof is computed.
def served : Turn := ⟨true, true, false, .ok (), .Proved, .ok ()⟩

def toProver : List Event := [.Payload ⟨childBlock, true⟩, .Polled 0 served, .Polled 0 served]

theorem discarded_never_submitted_late :
    (run proving toProver).jobs[0]? = some ⟨⟨childBlock, true⟩, false, false, .Prove⟩ ∧
    ∃ job, (run proving (toProver ++ .CanonicalChainCommitted parentBlock :: [.Polled 0 served])).jobs[0]? = some job ∧
      job.payload = ⟨childBlock, true⟩ ∧ job.Lost := by
  have hjob : (run proving toProver).jobs[0]? = some ⟨⟨childBlock, true⟩, false, false, .Prove⟩ := by decide +kernel
  have hcur : (run proving toProver).current = some ⟨8, digestOf 8, 0⟩ := by decide +kernel
  exact ⟨hjob, discarded_never_submitted _ _ _ _ _ _ hcur hjob ⟨by decide, by decide +kernel⟩ (by decide)⟩

theorem not_wasCanonical_payload (p : Incoming) (b : Block) : ¬WasCanonical [.Payload p] b := by
  rintro ⟨head, hmem, -⟩
  cases mem_singleton.1 hmem

-- The same commit before the payload.
def inOrder : List Event :=
  [.CanonicalChainCommitted parentBlock, .Payload ⟨childBlock, true⟩, .CanonicalChainCommitted childBlock]

end Zeg.ExEx
