import Zeg.StateDB.Undo

-- Open checkpoints along a run.
namespace Zeg.StateDB

open Base AccessList List

def Marked (j : List Entry) (cp : Nat) : Prop := j.reverse[cp]? = some .CheckpointMarker

variable {j : List Entry} {m k n : Nat} {cps : List Checkpoint}

theorem Marked.lt {cp : Nat} (hm : Marked j cp) : cp < j.length := by
  have := (List.getElem?_eq_some_iff.mp hm).1
  simpa using this

theorem Marked.append {cp : Nat} (es : List Entry) (hm : Marked j cp) : Marked (es ++ j) cp := by
  unfold Marked
  rw [reverse_append, List.getElem?_append_left (by simpa using hm.lt)]
  exact hm

theorem Marked.drop {cp k : Nat} (hm : Marked j cp) (hk : cp < k) (hkl : k ≤ j.length) :
    Marked (j.drop (j.length - k)) cp := by
  have hsplit : j = j.take (j.length - k) ++ j.drop (j.length - k) := (take_append_drop _ j).symm
  unfold Marked at hm
  rw [hsplit, reverse_append, List.getElem?_append_left (by simp; omega)] at hm
  exact hm

theorem marked_top (j : List Entry) : Marked (.CheckpointMarker :: j) j.length := by
  unfold Marked
  rw [reverse_cons, List.getElem?_append_right (by simp)]
  simp

-- `cps` are open checkpoints of a journal `j` with `m` logs, all taken after it had `k`
-- entries and `n` logs.
structure Frames (j : List Entry) (m k n : Nat) (cps : List Checkpoint) : Prop where
  marked : ∀ cp ∈ cps, Marked j cp.journalCp
  above : ∀ cp ∈ cps, k ≤ cp.journalCp ∧ n ≤ cp.logCount ∧ cp.logCount ≤ m
  nested : cps.Pairwise fun a b => b.journalCp < a.journalCp ∧ b.logCount ≤ a.logCount

theorem Frames.extend (es : List Entry) {m' : Nat} (hf : Frames j m k n cps) (hm : m ≤ m') :
    Frames (es ++ j) m' k n cps where
  marked cp hcp := (hf.marked cp hcp).append es
  above cp hcp := by
    have := hf.above cp hcp
    omega
  nested := hf.nested

theorem Frames.push (hf : Frames j m k n cps) (hk : k ≤ j.length) (hn : n ≤ m) :
    Frames (.CheckpointMarker :: j) m k n (⟨j.length, m⟩ :: cps) where
  marked := by
    rw [forall_mem_cons]
    exact ⟨marked_top j, fun cp hcp => (hf.marked cp hcp).append [_]⟩
  above := by
    rw [forall_mem_cons]
    exact ⟨⟨hk, hn, Nat.le_refl m⟩, hf.above⟩
  nested := by
    rw [pairwise_cons]
    exact ⟨fun cp hcp => ⟨(hf.marked cp hcp).lt, (hf.above cp hcp).2.2⟩, hf.nested⟩

theorem Frames.tail (hf : Frames j m k n cps) : Frames j m k n cps.tail where
  marked cp hcp := hf.marked cp (mem_of_mem_tail hcp)
  above cp hcp := hf.above cp (mem_of_mem_tail hcp)
  nested := hf.nested.tail

theorem Frames.rollback {i : Nat} {cp : Checkpoint} (hf : Frames j m k n cps)
    (hi : cps[i]? = some cp) :
    Frames (j.drop (j.length - cp.journalCp)) (min cp.logCount m) k n (cps.drop (i + 1)) := by
  have hmem : cp ∈ cps := mem_of_getElem? hi
  have hlt := (hf.marked cp hmem).lt
  have houter : ∀ b ∈ cps.drop (i + 1), b.journalCp < cp.journalCp ∧ b.logCount ≤ cp.logCount := by
    obtain ⟨hil, rfl⟩ := List.getElem?_eq_some_iff.mp hi
    have hp : (cps.drop i).Pairwise _ := hf.nested.drop
    rw [drop_eq_getElem_cons hil, pairwise_cons] at hp
    exact hp.1
  refine ⟨fun b hb => ?_, fun b hb => ?_, hf.nested.drop⟩
  · exact (hf.marked b (mem_of_mem_drop hb)).drop (houter b hb).1 (by omega)
  · have h₁ := hf.above b (mem_of_mem_drop hb)
    have h₂ := houter b hb
    omega

theorem rollback_of_marked {h : Host} {cp : Checkpoint} (hm : Marked h.journal cp.journalCp) :
    h.rollback cp = .ok (h.rolledBack cp) := by
  rw [Host.rollback_eq]
  exact if_pos hm

theorem step_rollback {w : Witness} {r r' : Run} {i : Nat} {answer : Answer}
    (hc : r.step w (.Rollback i) = .ok (r', answer)) :
    ∃ cp, r.frames[i]? = some cp ∧ Marked r.host.journal cp.journalCp ∧
      r' = ⟨r.host.rolledBack cp, r.frames.drop (i + 1)⟩ := by
  simp only [Run.step] at hc
  split at hc
  · cases hc
  · rename_i cp hi
    rw [Host.rollback_eq] at hc
    split at hc
    · rename_i hm
      cases hc
      exact ⟨cp, hi, hm, rfl⟩
    · cases hc

def Op.framing : Op → Bool
  | .Checkpoint | .Commit | .Rollback _ => true
  | _ => false

theorem step_cases {w : Witness} {r r' : Run} {op : Op} {answer : Answer}
    (hc : r.step w op = .ok (r', answer)) :
    (op = .Checkpoint ∧ r' = ⟨r.host.checkpoint.1, r.host.checkpoint.2 :: r.frames⟩) ∨
    (op = .Commit ∧ r' = ⟨r.host, r.frames.tail⟩) ∨
    (∃ i cp, op = .Rollback i ∧ r.frames[i]? = some cp ∧ Marked r.host.journal cp.journalCp ∧
      r' = ⟨r.host.rolledBack cp, r.frames.drop (i + 1)⟩) ∨
    (∃ h, op.framing = false ∧ r.host.call w op = .ok (h, answer) ∧ r' = ⟨h, r.frames⟩) := by
  cases op with
  | Checkpoint =>
    cases hc
    exact .inl ⟨rfl, rfl⟩
  | Commit =>
    cases hc
    exact .inr (.inl ⟨rfl, rfl⟩)
  | Rollback i =>
    obtain ⟨cp, hi, hm, hr⟩ := step_rollback hc
    exact .inr (.inr (.inl ⟨i, cp, rfl, hi, hm, hr⟩))
  | _ =>
    refine .inr (.inr (.inr ?_))
    simp only [Run.step] at hc
    obtain ⟨x, hx, hret⟩ := map_eq_ok.mp hc
    cases hret
    exact ⟨x.1, rfl, hx, rfl⟩

theorem steps_induction {I : Run → Prop} {w : Witness} {r r' : Run} {ops : List Op}
    {answers : List Answer}
    (hstep : ∀ {r r' op answer}, Run.step w r op = .ok (r', answer) → I r → I r') (hi : I r)
    (hc : r.steps w ops = .ok (r', answers)) : I r' := by
  induction ops generalizing r answers with
  | nil =>
    cases hc
    exact hi
  | cons op ops ih =>
    simp only [Run.steps, bind_eq_ok] at hc
    obtain ⟨⟨r₁, a⟩, hone, ⟨r₂, as⟩, hrest, hret⟩ := hc
    cases hret
    exact ih (hstep hone hi) hrest

section acts

variable {h : Host}

theorem setFields_frame (sets : List (Nat × Field)) :
    (h.setFields sets).txCounter = h.txCounter ∧ (h.setFields sets).receipts = h.receipts := by
  induction sets generalizing h with
  | nil => exact ⟨rfl, rfl⟩
  | cons s sets ih => exact ih

theorem touch_frame (l : Last) :
    (h.touch l).txCounter = h.txCounter ∧ (h.touch l).receipts = h.receipts := by
  cases l <;> simp only [Host.touch, Host.markTouchedAt, Host.markSlotTouchedAt] <;>
    first | exact ⟨rfl, rfl⟩ | (split <;> exact ⟨rfl, rfl⟩)

theorem act_txCounter (a : Act) : (h.act a).txCounter = h.txCounter := by
  cases a with
  | Write logs sets _ => exact (setFields_frame sets).1
  | Warm l =>
    change (h.warm l).txCounter = _
    unfold Host.warm
    split
    · rfl
    · exact (touch_frame l).1
  | AppendLog entry => exact h.setLogs_txCounter _
  | Touch l => exact (touch_frame l).1
  | _ => rfl

theorem act_logs (a : Act) : ∃ more, (h.act a).currentLogs = h.currentLogs ++ more := by
  have hsame : ∀ {g : Host}, g.receipts = h.receipts →
      ∃ more, g.currentLogs = h.currentLogs ++ more := fun hg => ⟨[], by simp [Host.currentLogs, hg]⟩
  cases a with
  | Write logs sets _ => exact hsame (setFields_frame sets).2
  | Warm l =>
    change ∃ more, (h.warm l).currentLogs = _
    unfold Host.warm
    split
    · exact hsame rfl
    · exact hsame (touch_frame l).2
  | AppendLog entry =>
    cases hr : h.receipts with
    | nil => exact ⟨[], by simp [Host.act, Host.setLogs, Host.currentLogs, hr]⟩
    | cons logs older => exact ⟨[entry], by simp [Host.act, Host.setLogs, Host.currentLogs, hr]⟩
  | Touch l => exact hsame (touch_frame l).2
  | _ => exact hsame rfl

end acts

-- `Q` holds now, and held at every open checkpoint; `g` and `saved` say what for.
section tracked

variable {γ : Type} {w : Witness} {r : Run} {g : γ} {saved : List γ}

structure Tracked (Q : List (List ((c : Cell) × c.Val)) → Store → γ → Prop) (r : Run) (g : γ)
    (saved : List γ) : Prop where
  current : Q r.host.undoLog r.host.cell g
  marks : ∃ marks : List (Nat × γ), marks.map Prod.fst = r.frames.map Checkpoint.journalCp ∧
    marks.map Prod.snd = saved ∧ Snapshots Q r.host.undoLog r.host.cell marks
  frames : Frames r.host.journal r.host.currentLogs.length 0 0 r.frames

variable {Q : List (List ((c : Cell) × c.Val)) → Store → γ → Prop}

theorem tracked_start {h : Host} (hq : Q h.undoLog h.cell g) : Tracked Q ⟨h, []⟩ g [] where
  current := hq
  marks := ⟨[], rfl, rfl, by simp [Snapshots]⟩
  frames := ⟨by simp, by simp, .nil⟩

theorem Tracked.mono {Q' : List (List ((c : Cell) × c.Val)) → Store → γ → Prop}
    (ht : Tracked Q r g saved) (hq : ∀ {log o g}, Q log o g → Q' log o g) : Tracked Q' r g saved := by
  obtain ⟨marks, hfst, hsnd, hsnap⟩ := ht.marks
  exact ⟨hq ht.current, ⟨marks, hfst, hsnd, fun p hp => ⟨(hsnap p hp).1, hq (hsnap p hp).2⟩⟩, ht.frames⟩

theorem tracked_checkpoint (ht : Tracked Q r g saved)
    (hmark : ∀ {log o g}, Q log o g → Q ([] :: log) o g) :
    Tracked Q ⟨r.host.checkpoint.1, r.host.checkpoint.2 :: r.frames⟩ g (g :: saved) := by
  obtain ⟨marks, hfst, hsnd, hsnap⟩ := ht.marks
  refine ⟨hmark ht.current, ⟨(r.host.undoLog.length, g) :: marks, ?_, ?_, ?_⟩, ?_⟩
  · rw [map_cons, map_cons, hfst]
    congr 1
    exact length_map _
  · rw [map_cons, hsnd]
  · exact hsnap.push ht.current rfl
  · exact ht.frames.push (Nat.zero_le _) (Nat.zero_le _)

theorem tracked_commit (ht : Tracked Q r g saved) :
    Tracked Q ⟨r.host, r.frames.tail⟩ g saved.tail := by
  obtain ⟨marks, hfst, hsnd, hsnap⟩ := ht.marks
  refine ⟨ht.current, ⟨marks.tail, ?_, ?_, ?_⟩, ht.frames.tail⟩
  · rw [map_tail, hfst, map_tail]
  · rw [map_tail, hsnd]
  · exact fun p hp => hsnap p (mem_of_mem_tail hp)

theorem tracked_rollback {i : Nat} {cp : Checkpoint} (ht : Tracked Q r g saved)
    (hi : r.frames[i]? = some cp) : ∃ g', saved[i]? = some g' ∧
      Tracked Q ⟨r.host.rolledBack cp, r.frames.drop (i + 1)⟩ g' (saved.drop (i + 1)) := by
  obtain ⟨marks, hfst, hsnd, hsnap⟩ := ht.marks
  have hmark : (marks.map Prod.fst)[i]? = some cp.journalCp := by rw [hfst, List.getElem?_map, hi]; rfl
  rw [List.getElem?_map, Option.map_eq_some_iff] at hmark
  obtain ⟨⟨k, g'⟩, hmi, rfl : k = _⟩ := hmark
  have hbelow : ∀ p ∈ marks.drop (i + 1), p.1 ≤ cp.journalCp := by
    intro p hp
    have hpf : p.1 ∈ (r.frames.drop (i + 1)).map Checkpoint.journalCp := by
      rw [map_drop, ← hfst, ← map_drop]
      exact mem_map_of_mem hp
    obtain ⟨b, hb, hbp⟩ := mem_map.mp hpf
    rw [← hbp]
    have hmarked := ((ht.frames.rollback hi).marked b hb).lt
    rw [length_drop] at hmarked
    omega
  obtain ⟨hcur, hrest⟩ := hsnap.rollback hmi hbelow
  have hlog : (r.host.rolledBack cp).undoLog =
      r.host.undoLog.drop (r.host.undoLog.length - cp.journalCp) := by
    rw [Host.undoLog, Host.rolledBack_journal, map_drop, Host.undoLog, length_map]
  refine ⟨g', by rw [← hsnd, List.getElem?_map, hmi]; rfl, ?_, ⟨marks.drop (i + 1), ?_, ?_, ?_⟩, ?_⟩
  · rw [hlog, Host.rolledBack_cell]
    exact hcur
  · rw [map_drop, hfst, map_drop]
  · rw [map_drop, hsnd]
  · rw [hlog, Host.rolledBack_cell]
    exact hrest
  · rw [Host.rolledBack_journal, Host.rolledBack_currentLogs, length_take]
    exact ht.frames.rollback hi

theorem tracked_logged {a : Act} {g' : γ} (ht : Tracked Q r g saved) (ha : a.Logged)
    (hq : Q (r.host.act a).undoLog (r.host.act a).cell g') :
    Tracked Q ⟨r.host.act a, r.frames⟩ g' saved := by
  obtain ⟨marks, hfst, hsnd, hsnap⟩ := ht.marks
  obtain ⟨more, hmore⟩ := act_logs (h := r.host) a
  refine ⟨hq, ⟨marks, hfst, hsnd, ?_⟩, ?_⟩
  · rw [Host.undoLog, act_journal, map_append]
    exact hsnap.append (unwind_act ha)
  · rw [act_journal]
    exact ht.frames.extend _ (by rw [hmore, length_append]; omega)

theorem tracked_raw {a : Act} {g' : γ} {f : γ → γ} (ht : Tracked Q r g saved) (ha : ¬ a.Logged)
    (hq : Q (r.host.act a).undoLog (r.host.act a).cell g')
    (hsaved : ∀ (k : Nat) (s : γ),
      Q (r.host.undoLog.drop (r.host.undoLog.length - k)) (unwind (since r.host.undoLog k) r.host.cell) s →
      Q (r.host.undoLog.drop (r.host.undoLog.length - k))
        (unwind (since r.host.undoLog k) (r.host.act a).cell) (f s)) :
    Tracked Q ⟨r.host.act a, r.frames⟩ g' (saved.map f) := by
  obtain ⟨marks, hfst, hsnd, hsnap⟩ := ht.marks
  obtain ⟨more, hmore⟩ := act_logs (h := r.host) a
  have hj : (r.host.act a).journal = r.host.journal := by
    rw [act_journal]
    cases a <;> first | rfl | exact absurd trivial ha
  have hlog : (r.host.act a).undoLog = r.host.undoLog := by rw [Host.undoLog, hj, Host.undoLog]
  refine ⟨hq, ⟨marks.map fun p => (p.1, f p.2), ?_, ?_, ?_⟩, ?_⟩
  · rw [← hfst, map_map]
    rfl
  · rw [← hsnd, map_map, map_map]
    rfl
  · intro p hp
    obtain ⟨q, hq', rfl⟩ := mem_map.mp hp
    obtain ⟨hk, hqq⟩ := hsnap q hq'
    rw [hlog]
    exact ⟨hk, hsaved q.1 q.2 hqq⟩
  · rw [hj]
    exact ht.frames.extend [] (by rw [hmore, length_append]; omega)

end tracked

end Zeg.StateDB
