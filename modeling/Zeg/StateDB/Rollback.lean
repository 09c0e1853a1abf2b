import Zeg.StateDB.Block
import Zeg.StateDB.Frames

-- A rollback puts back what the VM and the block can see.
namespace Zeg.StateDB

open Base AccessList List

variable {w : Witness} {h h' : Host}

-- A cell whose contents an unlogged touch left behind.
def Lost (touched : Last → Prop) (t : Nat) : (c : Cell) → c.Val → Prop
  | .Last l, v => touched l ∧ v = t
  | _, _ => False

-- The run `r` since `base`.
structure Since (touched : Last → Prop) (base : Host) (r : Run) : Prop where
  taken : ∃ es, r.host.journal = es ++ base.journal ∧
    TakesBack (Lost touched base.txCounter) (es.map Entry.saved) r.host.cell base.cell
  logs : ∃ more, r.host.currentLogs = base.currentLogs ++ more
  frames : Frames r.host.journal r.host.currentLogs.length base.journal.length
    base.currentLogs.length r.frames
  counter : r.host.txCounter = base.txCounter

variable {touched : Last → Prop} {base : Host} {r : Run}

theorem since_start (h : Host) : Since touched h ⟨h, []⟩ where
  taken := ⟨[], rfl, .of_eq rfl⟩
  logs := ⟨[], by simp⟩
  frames := ⟨by simp, by simp, .nil⟩
  counter := rfl

-- What every action keeps, given that its entries and its touches account for its effect.
theorem since_extend (es : List Entry) (hs : Since touched base r)
    (hj : h.journal = es ++ r.host.journal)
    (ht : TakesBack (Lost touched base.txCounter) (es.map Entry.saved) h.cell r.host.cell)
    (hl : ∃ more, h.currentLogs = r.host.currentLogs ++ more)
    (hc : h.txCounter = r.host.txCounter) : Since touched base ⟨h, r.frames⟩ := by
  obtain ⟨fs, hfs, htf⟩ := hs.taken
  obtain ⟨old, hold⟩ := hs.logs
  obtain ⟨more, hmore⟩ := hl
  refine ⟨⟨es ++ fs, by rw [hj, hfs, append_assoc], ?_⟩, ⟨old ++ more, ?_⟩, ?_, ?_⟩
  · rw [map_append]
    exact ht.trans htf
  · rw [hmore, hold, append_assoc]
  · rw [hj]
    exact hs.frames.extend es (by rw [hmore, length_append]; omega)
  · exact hc.trans hs.counter

theorem since_act {a : Act} (hs : Since touched base r) (hraw : ∀ idx f, a ≠ .RawWrite idx f)
    (ht : ∀ l, a = .Touch l → touched l) :
    Since touched base ⟨r.host.act a, r.frames⟩ := by
  by_cases ha : a.Logged
  · exact since_extend _ hs (act_journal a) (.of_eq (unwind_act ha)) (act_logs a) (act_txCounter a)
  · cases a with
    | Touch l =>
      refine since_extend [] hs (touch_journal l) ?_ (act_logs _) (act_txCounter _)
      intro c
      change (r.host.touch l).cell c = _ ∨ Lost _ _ c ((r.host.touch l).cell c)
      rcases cell_touch (h := r.host) l with hsame | hset
      · exact .inl (congrFun hsame c)
      · rw [hset]
        by_cases hcl : c = .Last l
        · subst hcl
          refine .inr ⟨ht l rfl, ?_⟩
          rw [← hs.counter]
          exact Function.update_self ..
        · exact .inl (restore_of_not_mem _ (by simpa using Ne.symm hcl))
    | RawWrite idx f => exact absurd rfl (hraw idx f)
    | _ => exact absurd trivial ha

theorem since_call {op : Op} {answer : Answer} (hs : Since touched base r)
    (hraw : ¬ op.WritesRaw w) (ht : ∀ key ∈ op.touched, touched (w.last key))
    (hc : r.host.call w op = .ok (h', answer)) : Since touched base ⟨h', r.frames⟩ := by
  obtain ⟨acts, hruns, hallowed, -⟩ := call_does hc
  clear hc
  obtain ⟨h, cps⟩ := r
  induction acts generalizing h with
  | nil =>
    cases hruns
    exact hs
  | cons a acts ih =>
    rw [forall_mem_cons] at hallowed
    refine ih hallowed.2 (h.act a) (since_act hs ?_ ?_) hruns.2
    · rintro idx f rfl
      exact hraw hallowed.1
    · rintro l rfl
      obtain ⟨key, hkey, rfl⟩ := hallowed.1
      exact ht key hkey

theorem since_checkpoint (hs : Since touched base r) :
    Since touched base ⟨r.host.checkpoint.1, r.host.checkpoint.2 :: r.frames⟩ := by
  obtain ⟨es, hj, ht⟩ := hs.taken
  obtain ⟨more, hmore⟩ := hs.logs
  refine ⟨⟨.CheckpointMarker :: es, congrArg _ hj, ?_⟩, hs.logs, ?_, hs.counter⟩
  · exact ht
  · apply hs.frames.push
    · rw [hj, length_append]
      omega
    · rw [hmore, length_append]
      omega

-- Going back to a checkpoint taken after `base` leaves the entries between the two.
theorem taken_rolledBack {es : List Entry} (cp : Checkpoint)
    {lost : (c : Cell) → c.Val → Prop} (hj : h.journal = es ++ base.journal)
    (ht : TakesBack lost (es.map Entry.saved) h.cell base.cell)
    (hk : base.journal.length ≤ cp.journalCp) (hlen : cp.journalCp ≤ h.journal.length) :
    ∃ fs, (h.rolledBack cp).journal = fs ++ base.journal ∧
      TakesBack lost (fs.map Entry.saved) (h.rolledBack cp).cell base.cell ∧
      fs.length + base.journal.length = cp.journalCp := by
  have hsum : h.journal.length = es.length + base.journal.length := by
    rw [hj, length_append]
  let d := h.journal.length - cp.journalCp
  have hd : d ≤ es.length := by omega
  have hsince : since h.undoLog cp.journalCp = (es.take d).map Entry.saved := by
    rw [Host.undoLog, since_map, since, hj, take_append_of_le_length (by rw [← hj]; exact hd),
      ← hj]
  refine ⟨es.drop d, ?_, ?_, ?_⟩
  · rw [Host.rolledBack_journal, hj, ← hj, hj, drop_append_of_le_length (by rw [← hj]; exact hd),
      ← hj]
  · intro c
    rw [Host.rolledBack_cell, hsince, ← unwind_append, ← map_append, take_append_drop]
    exact ht c
  · rw [length_drop]
    omega

theorem since_rollback {i : Nat} {cp : Checkpoint} (hs : Since touched base r)
    (hi : r.frames[i]? = some cp) :
    Since touched base ⟨r.host.rolledBack cp, r.frames.drop (i + 1)⟩ := by
  obtain ⟨es, hj, ht⟩ := hs.taken
  obtain ⟨more, hmore⟩ := hs.logs
  have hmem : cp ∈ r.frames := mem_of_getElem? hi
  have hlt := (hs.frames.marked cp hmem).lt
  obtain ⟨hk, hn, hm⟩ := hs.frames.above cp hmem
  obtain ⟨fs, hfj, hft, -⟩ := taken_rolledBack cp hj ht hk (by omega)
  refine ⟨⟨fs, hfj, hft⟩, ⟨more.take (cp.logCount - base.currentLogs.length), ?_⟩, ?_, ?_⟩
  · rw [Host.rolledBack_currentLogs, hmore, take_append, take_of_length_le hn]
  · rw [Host.rolledBack_journal, Host.rolledBack_currentLogs, length_take]
    exact hs.frames.rollback hi
  · rw [Host.rolledBack_txCounter]
    exact hs.counter

theorem since_step {op : Op} {answer : Answer} {r' : Run} (hs : Since touched base r)
    (hraw : ¬ op.WritesRaw w) (ht : ∀ key ∈ op.touched, touched (w.last key))
    (hc : r.step w op = .ok (r', answer)) : Since touched base r' := by
  obtain ⟨-, rfl⟩ | ⟨-, rfl⟩ | ⟨i, cp, -, hi, -, rfl⟩ | ⟨h, -, hcall, rfl⟩ := step_cases hc
  · exact since_checkpoint hs
  · exact { hs with frames := hs.frames.tail }
  · exact since_rollback hs hi
  · exact since_call hs hraw ht hcall

theorem since_steps {ops : List Op} {answers : List Answer} {r' : Run} (hs : Since touched base r)
    (hraw : ∀ op ∈ ops, ¬ op.WritesRaw w)
    (ht : ∀ op ∈ ops, ∀ key ∈ op.touched, touched (w.last key))
    (hc : r.steps w ops = .ok (r', answers)) : Since touched base r' := by
  induction ops generalizing r answers with
  | nil =>
    cases hc
    exact hs
  | cons op ops ih =>
    rw [forall_mem_cons] at hraw ht
    simp only [Run.steps, bind_eq_ok] at hc
    obtain ⟨⟨r₁, a⟩, hstep, ⟨r₂, as⟩, hsteps, hret⟩ := hc
    cases hret
    exact ih (since_step hs hraw.1 ht.1 hstep) hraw.2 ht.2 hsteps

def truncate (n : Nat) : List (List LogEntry) → List (List LogEntry)
  | [] => []
  | logs :: older => logs.take n :: older

theorem rolledBack_eq (h : Host) (cp : Checkpoint) :
    h.rolledBack cp =
      { (since h.journal cp.journalCp).foldl Host.undo h with
        journal := h.journal.drop (h.journal.length - cp.journalCp)
        receipts := truncate cp.logCount h.receipts } := by
  unfold Host.rolledBack Host.setLogs Host.currentLogs truncate
  have hr := (h.foldl_undo_frame (since h.journal cp.journalCp)).2.1
  cases hrec : h.receipts with
  | nil =>
    rw [hrec] at hr
    simp [hr]
  | cons logs older =>
    rw [hrec] at hr
    simp [hr]

theorem undo_with (es : List Entry) (j : List Entry) (rs : List (List LogEntry)) :
    es.foldl Host.undo { h with journal := j, receipts := rs } =
      { es.foldl Host.undo h with journal := j, receipts := rs } := by
  induction es generalizing h with
  | nil => rfl
  | cons e es ih =>
    have he : ({ h with journal := j, receipts := rs } : Host).undo e =
        { h.undo e with journal := j, receipts := rs } := by
      cases e with
      | PendingDestruct idx present => cases present <;> rfl
      | _ => rfl
    rw [foldl_cons, he, ih]
    rfl

theorem rolledBack_inner {outer cp : Checkpoint} (hlen : cp.journalCp ≤ h.journal.length)
    (hj : outer.journalCp ≤ cp.journalCp) (hl : outer.logCount ≤ cp.logCount) :
    (h.rolledBack cp).rolledBack outer = h.rolledBack outer := by
  have hdrop : (h.journal.drop (h.journal.length - cp.journalCp)).drop
      ((h.journal.drop (h.journal.length - cp.journalCp)).length - outer.journalCp) =
      h.journal.drop (h.journal.length - outer.journalCp) := by
    rw [length_drop, drop_drop]
    congr 1
    omega
  have htrunc : truncate outer.logCount (truncate cp.logCount h.receipts) =
      truncate outer.logCount h.receipts := by
    cases h.receipts with
    | nil => rfl
    | cons logs older => simp [truncate, take_take, Nat.min_eq_left hl]
  rw [rolledBack_eq (h.rolledBack cp), Host.rolledBack_journal, hdrop, rolledBack_eq h cp,
    undo_with, ← foldl_append, ← since_split h.journal hj hlen, rolledBack_eq h outer, htrunc]

def Host.isWarm (w : Witness) (h : Host) : Key → Bool
  | .Account a => w.isPrecompile a || h.last (w.last (.Account a)) == h.txCounter
  | .Slot key => h.last (w.last (.Slot key)) == h.txCounter

-- `h'` looks like `h`, except that a touched key may look warm.
structure Restored (w : Witness) (touched : Key → Prop) (h h' : Host) : Prop where
  balance : ∀ idx, (h'.accounts idx).balance = (h.accounts idx).balance
  nonce : ∀ idx, (h'.accounts idx).nonce = (h.accounts idx).nonce
  codeHash : ∀ idx, (h'.accounts idx).codeHash = (h.accounts idx).codeHash
  value : ∀ idx, (h'.storages idx).value = (h.storages idx).value
  warm : ∀ key, h'.isWarm w key = h.isWarm w key ∨ touched key ∧ h'.isWarm w key
  transient : h'.transient = h.transient
  pending : ∀ idx, idx ∈ h'.pendingDestruct ↔ idx ∈ h.pendingDestruct
  logs : h'.currentLogs = h.currentLogs
  journal : h'.journal = h.journal

theorem restored_of_cells {touched : Key → Prop} (hc : ∀ c, h'.cell c = h.cell c ∨
      Lost (fun l => ∃ key, touched key ∧ w.last key = l) h.txCounter c (h'.cell c))
    (ht : h'.txCounter = h.txCounter) (hl : h'.currentLogs = h.currentLogs)
    (hj : h'.journal = h.journal) : Restored w touched h h' where
  balance idx := (hc (.Balance idx)).resolve_right id
  nonce idx := (hc (.Nonce idx)).resolve_right id
  codeHash idx := (hc (.CodeHash idx)).resolve_right id
  value idx := (hc (.Value idx)).resolve_right id
  warm key := by
    rcases hc (.Last (w.last key)) with heq | ⟨⟨key', hkey', heq⟩, hval⟩
    · left
      cases key <;> simp only [Host.isWarm, ht] <;> rw [show h'.last _ = h.last _ from heq]
    · right
      rw [last_inj heq] at hkey'
      refine ⟨hkey', ?_⟩
      cases key <;> simp only [Host.isWarm, ht] <;> rw [show h'.last _ = h.txCounter from hval] <;>
        simp
  transient := funext fun key => (hc (.Transient key)).resolve_right id
  pending idx := by
    have := (hc (.Pending idx)).resolve_right id
    simpa [Host.cell] using this
  logs := hl
  journal := hj

theorem since_marked (hs : Since touched h.checkpoint.1 r) :
    Marked r.host.journal h.journal.length := by
  obtain ⟨es, hj, -⟩ := hs.taken
  rw [hj]
  exact (marked_top h.journal).append es

theorem cells_of_since (hs : Since touched h.checkpoint.1 r) :
    (r.host.rolledBack h.checkpoint.2).journal = h.journal ∧
      ∀ c, (r.host.rolledBack h.checkpoint.2).cell c = h.cell c ∨
        Lost touched h.txCounter c ((r.host.rolledBack h.checkpoint.2).cell c) := by
  obtain ⟨es, hj, ht⟩ := hs.taken
  -- seen from before the checkpoint, its marker is one more entry
  have hj' : r.host.journal = (es ++ [Entry.CheckpointMarker]) ++ h.journal := by
    rw [hj, append_assoc]
    rfl
  have ht' : TakesBack (Lost touched h.txCounter)
      ((es ++ [Entry.CheckpointMarker]).map Entry.saved) r.host.cell h.cell := by
    intro c
    rw [map_append, unwind_append]
    exact ht c
  obtain ⟨fs, hfj, hft, hlen⟩ := taken_rolledBack h.checkpoint.2 hj' ht' (Nat.le_refl _)
    (Nat.le_of_lt (since_marked hs).lt)
  have hnil : fs = [] := eq_nil_of_length_eq_zero (Nat.add_eq_right.mp hlen)
  subst hnil
  exact ⟨hfj, hft⟩

theorem restored_of_since {touched : Key → Prop}
    (hs : Since (fun l => ∃ key, touched key ∧ w.last key = l) h.checkpoint.1 r) :
    Restored w touched h (r.host.rolledBack h.checkpoint.2) := by
  obtain ⟨hj, hcells⟩ := cells_of_since hs
  obtain ⟨more, hmore⟩ := hs.logs
  refine restored_of_cells hcells ?_ ?_ hj
  · rw [Host.rolledBack_txCounter]
    exact hs.counter
  · rw [Host.rolledBack_currentLogs, hmore]
    exact take_left

-- Rolling back open inner frames first does not change what the outer rollback gives.
theorem rollbacks_inner {inner : List Nat} {r' : Run} {answers : List Answer}
    (hs : Since touched h.checkpoint.1 r)
    (hc : r.steps w (inner.map .Rollback) = .ok (r', answers)) :
    r'.host.rollback h.checkpoint.2 = r.host.rollback h.checkpoint.2 := by
  induction inner generalizing r answers with
  | nil =>
    cases hc
    rfl
  | cons i inner ih =>
    simp only [map_cons, Run.steps, bind_eq_ok] at hc
    obtain ⟨⟨r₁, a⟩, hstep, ⟨r₂, as⟩, hsteps, hret⟩ := hc
    cases hret
    obtain ⟨cp, hi, hm, rfl⟩ := step_rollback hstep
    have hs₁ := since_rollback hs hi
    obtain ⟨hk, hn, -⟩ := hs.frames.above cp (mem_of_getElem? hi)
    have hbelow : h.checkpoint.2.journalCp ≤ cp.journalCp := Nat.le_of_succ_le hk
    rw [ih hs₁ hsteps, rollback_of_marked (since_marked hs₁), rollback_of_marked (since_marked hs),
      rolledBack_inner (Nat.le_of_lt hm.lt) hbelow hn]

def tinyHost : Host := tinyStart.beginTransaction 1

def nestedFrames : List Op :=
  [.AccessAccount (tinyAddress 0xbb), .TransferValue (tinyAddress 0xaa) (tinyAddress 0xbb) 30,
    .AccessStorage tinySlot, .SetStorage tinySlot 5, .Checkpoint,
    .SetTransientStorage tinySlot 1, .AccessAccount (tinyAddress 0xcc), .SetStorage tinySlot 6,
    .Rollback 0, .Checkpoint, .Selfdestruct (tinyAddress 0xbb) (tinyAddress 0xaa)]

end Zeg.StateDB
