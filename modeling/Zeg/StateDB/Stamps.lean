import Zeg.StateDB.Block
import Zeg.StateDB.Frames

-- The last-transaction stamps, which hold both the warm keys and the touched slots.
namespace Zeg.StateDB

open Base AccessList List

variable {w : Witness} {h h' : Host}

theorem last_setFieldAt (idx : Nat) (f : Field) (t : Nat) (l : Last) :
    (h.setFieldAt idx f t).last l = if l = .Account idx then t else h.last l := by
  have hcell := congrFun (h.cell_setFieldAt idx f t) (.Last l)
  by_cases hl : l = .Account idx
  · subst hl
    simp [Host.last, Host.setFieldAt]
  · rw [if_neg hl]
    refine hcell.trans (restore_of_not_mem _ ?_)
    cases f <;> simp [Field.saved, Ne.symm hl]

theorem last_setFields (sets : List (Nat × Field)) (l : Last) :
    (h.setFields sets).last l =
      if l ∈ sets.map (fun s => Last.Account s.1) then h.txCounter else h.last l := by
  induction sets generalizing h with
  | nil => simp [Host.setFields]
  | cons s sets ih =>
    change (Host.setFields (h.setFieldAt s.1 s.2 h.txCounter) sets).last l = _
    rw [ih, last_setFieldAt, map_cons]
    by_cases hl : l = .Account s.1
    · simp [hl]
    · simp only [mem_cons, hl, false_or, if_false]
      rfl

theorem last_setValueAt (idx : Nat) (v : Word) (t : Nat) (l : Last) :
    (h.setValueAt idx v t).last l = if l = .Slot idx then t else h.last l := by
  have hcell := congrFun (h.cell_setValueAt idx v t) (.Last l)
  by_cases hl : l = .Slot idx
  · subst hl
    simp [Host.last, Host.setValueAt]
  · rw [if_neg hl]
    exact hcell.trans (restore_of_not_mem _ (by simp [Ne.symm hl]))

theorem last_touch {l₀ : Last} (hb : h.last l₀ ≤ h.txCounter) (l : Last) :
    (h.touch l₀).last l = if l = l₀ then h.txCounter else h.last l := by
  have hother : l ≠ l₀ → (h.touch l₀).last l = h.last l := by
    intro hl
    rcases cell_touch (h := h) l₀ with hc | hc
    · exact congrFun hc (.Last l)
    · exact (congrFun hc (.Last l)).trans (restore_of_not_mem _ (by simpa using Ne.symm hl))
  split
  case isFalse hl => exact hother hl
  case isTrue hl =>
    subst hl
    cases l with
    | Account idx =>
      simp only [Host.touch, Host.markTouchedAt, Host.last] at hb ⊢
      split
      · simp [Host.setWarmAt]
      · omega
    | Slot idx =>
      simp only [Host.touch, Host.markSlotTouchedAt, Host.last] at hb ⊢
      split
      · simp
      · omega
    | AccountKey a => simp [Host.touch, Host.setWarmAccount, Host.last]
    | SlotKey key => simp [Host.touch, Host.setWarmSlot, Host.last]

theorem last_act (hb : ∀ l, h.last l ≤ h.txCounter) (a : Act) (l : Last) :
    (h.act a).last l = if l ∈ a.lasts then h.txCounter else h.last l := by
  cases a with
  | Write logs sets hs => exact last_setFields (h := h.logFields logs) sets l
  | Store idx v =>
    simp only [Act.lasts, mem_singleton]
    exact last_setValueAt (h := (h.balOpenSlot idx _).logStorage idx) idx v h.txCounter l
  | Warm l₀ =>
    simp only [Act.lasts, mem_singleton]
    change (h.warm l₀).last l = _
    by_cases hl₀ : h.last l₀ = h.txCounter
    · rw [warm_of_eq hl₀]
      split <;> simp_all
    · rw [warm_of_ne hl₀]
      exact last_touch (h := h.log (l₀.entry (h.last l₀))) (hb l₀) l
  | Touch l₀ =>
    simp only [Act.lasts, mem_singleton]
    exact last_touch (hb l₀) l
  | RawWrite idx f =>
    simp only [Act.lasts, mem_singleton]
    exact last_setFieldAt idx f h.txCounter l
  | AppendLog entry =>
    have hcell := congrFun (h.setLogs_cell (h.currentLogs ++ [entry])) (.Last l)
    exact hcell.trans (by simp [Act.lasts, Host.cell])
  | _ =>
    simp only [Act.lasts, not_mem_nil, if_false]
    rfl

-- No stamp is of a later transaction.
def Bounded (h : Host) : Prop := ∀ l, h.last l ≤ h.txCounter

theorem bounded_act (hb : Bounded h) (a : Act) : Bounded (h.act a) := by
  intro l
  rw [last_act hb, act_txCounter]
  split
  · exact Nat.le_refl _
  · exact hb l

-- A rollback brings back only stamps that were bounded then.
def StampsBy (t : Nat) (_ : List (List ((c : Cell) × c.Val))) (o : Store) (_ : Unit) : Prop :=
  ∀ l, o (.Last l) ≤ t

variable {r r' : Run} {saved : List Unit}

theorem stampsBy_act {a : Act} (ht : Tracked (StampsBy r.host.txCounter) r () saved) :
    ∃ saved', Tracked (StampsBy r.host.txCounter) ⟨r.host.act a, r.frames⟩ () saved' := by
  have hb : Bounded r.host := ht.current
  have hb' := bounded_act hb a
  rw [Bounded, act_txCounter] at hb'
  by_cases ha : a.Logged
  · exact ⟨saved, tracked_logged ht ha hb'⟩
  · refine ⟨saved.map id, tracked_raw ht ha hb' ?_⟩
    intro k _ hk l
    by_cases hc : Covers (since r.host.undoLog k) (.Last l)
    · have hsame : unwind (since r.host.undoLog k) (r.host.act a).cell (.Last l) =
          unwind (since r.host.undoLog k) r.host.cell (.Last l) := unwind_agree fun hn => absurd hc hn
      rw [hsame]
      exact hk l
    · rw [unwind_of_not_covers _ hc]
      exact hb' l

theorem stampsBy_step {op : Op} {answer : Answer}
    (ht : Tracked (StampsBy r.host.txCounter) r () saved) (hc : r.step w op = .ok (r', answer)) :
    ∃ saved', Tracked (StampsBy r'.host.txCounter) r' () saved' := by
  obtain ⟨-, rfl⟩ | ⟨-, rfl⟩ | ⟨i, cp, -, hi, -, rfl⟩ | ⟨h, -, hcall, rfl⟩ := step_cases hc
  · exact ⟨_, tracked_checkpoint ht id⟩
  · exact ⟨_, tracked_commit ht⟩
  · obtain ⟨_, -, hback⟩ := tracked_rollback ht hi
    rw [Host.rolledBack_txCounter]
    exact ⟨_, hback⟩
  · obtain ⟨acts, hruns, -, -⟩ := call_does hcall
    clear hc hcall
    obtain ⟨g, cps⟩ := r
    induction acts generalizing g saved with
    | nil =>
      cases hruns
      exact ⟨saved, ht⟩
    | cons a acts ih =>
      obtain ⟨saved', ht'⟩ := stampsBy_act (a := a) ht
      rw [← act_txCounter (h := g) a] at ht'
      exact ih (g.act a) ht' hruns.2

theorem bounded_steps {ops : List Op} {answers : List Answer}
    (ht : Tracked (StampsBy r.host.txCounter) r () saved)
    (hc : r.steps w ops = .ok (r', answers)) : Bounded r'.host := by
  obtain ⟨saved', ht'⟩ := steps_induction
    (I := fun r => ∃ saved, Tracked (StampsBy r.host.txCounter) r () saved)
    (fun hstep ⟨_, ht⟩ => stampsBy_step ht hstep) ⟨saved, ht⟩ hc
  exact ht'.current

theorem bounded_clearAccount (hb : Bounded h) (idx : Nat) :
    Bounded (h.clearAccountForSelfdestruct w idx) :=
  clearAccount_induction (I := Bounded) (fun _ _ hg => bounded_act hg _)
    (fun _ _ _ _ hg => bounded_act hg _) (fun _ hg => hg) hb

theorem bounded_applyPendingDestructs (hb : Bounded h) : Bounded (h.applyPendingDestructs w) := by
  have hfold : ∀ (rows : List Nat) {g : Host}, Bounded g →
      Bounded (rows.foldl (Host.clearAccountForSelfdestruct w) g) := by
    intro rows
    induction rows with
    | nil => exact id
    | cons i rows ih => exact fun hg => ih (bounded_clearAccount hg i)
  exact hfold h.pendingDestruct hb

theorem bounded_begin (hb : Bounded h) (s : BlockStep) : Bounded (s.begin h) := by
  cases s with
  | Transaction index ops => exact fun l => Nat.le_succ_of_le (hb l)
  | SystemCall ops => exact fun l => Nat.le_succ_of_le (hb l)
  | SetIndex index => exact hb
  | Credit a v => exact hb

theorem bounded_blockStep {s : BlockStep} (hb : Bounded h) (hc : h.blockStep w s = .ok h') :
    Bounded h' := by
  simp only [Host.blockStep, bind_eq_ok] at hc
  obtain ⟨⟨r, answers⟩, hsteps, hfinish⟩ := hc
  have hr : Bounded r.host := bounded_steps (r := ⟨s.begin h, []⟩) (tracked_start (bounded_begin hb s)) hsteps
  cases s with
  | Transaction index ops =>
    cases hfinish
    exact bounded_applyPendingDestructs hr
  | SystemCall ops =>
    cases hfinish
    exact hr
  | SetIndex index =>
    cases hfinish
    exact hr
  | Credit a v =>
    simp only [BlockStep.finish, Host.setField, bind_eq_ok] at hfinish
    obtain ⟨idx, -, hret⟩ := hfinish
    cases hret
    exact bounded_act hr (.RawWrite idx (.Balance v))

theorem bounded_block {steps : List BlockStep} (hb : Bounded h) (hc : h.block w steps = .ok h') :
    Bounded h' := by
  induction steps generalizing h with
  | nil =>
    cases hc
    exact hb
  | cons s steps ih =>
    simp only [Host.block, foldlM_cons, bind_eq_ok] at hc
    obtain ⟨h₁, hstep, hrest⟩ := hc
    exact ih (bounded_blockStep hb hstep) hrest

theorem bounded_start (balance : Nat → Word) (nonce : Nat → UInt64) (codeHash : Nat → Bytes32)
    (value : Nat → Word) : Bounded (Host.start w balance nonce codeHash value) := by
  intro l
  cases l <;> exact Nat.le_refl 0

theorem begin_lt (hb : Bounded h) (s : BlockStep) (hops : s.ops ≠ []) :
    ∀ l, (s.begin h).last l < (s.begin h).txCounter := by
  cases s with
  | Transaction index ops => exact fun l => Nat.lt_succ_of_le (hb l)
  | SystemCall ops => exact fun l => Nat.lt_succ_of_le (hb l)
  | SetIndex _ => exact absurd rfl hops
  | Credit _ _ => exact absurd rfl hops

end Zeg.StateDB
