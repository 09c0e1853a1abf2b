import Zeg.StateDB.Decompose

-- What an action logs takes back what it does.
namespace Zeg.StateDB

open Base AccessList List

def Host.entries (h : Host) : Act → List Entry
  | .Write logs _ _ => (logs.map h.fieldEntry).reverse
  | .Store idx _ => [.Storage idx (h.storages idx).value (h.storages idx).lastTx]
  | .Warm l => if h.last l = h.txCounter then [] else [l.entry (h.last l)]
  | .SetTransient key _ =>
    [.Transient key (h.transient key).isSome ((h.transient key).getD 0)]
  | .InsertPending idx => [.PendingDestruct idx (idx ∈ h.pendingDestruct)]
  | _ => []

def Act.Logged : Act → Prop
  | .Touch _ | .RawWrite _ _ => False
  | _ => True

variable {w : Witness} {h h' : Host}

theorem unwind_entry (e : Entry) (cells : List ((c : Cell) × c.Val))
    (hc : h'.cell = restore cells h.cell) (hcap : ∀ s ∈ e.saved, h.cell s.1 = s.2)
    (hcov : ∀ s ∈ cells, ∃ r ∈ e.saved, r.1 = s.1) : unwind ([e].map Entry.saved) h'.cell = h.cell := by
  apply unwind_written
  · simpa using hcap
  · intro c hnc
    rw [hc]
    apply restore_of_not_mem
    intro s hs hsc
    obtain ⟨r, hr, hrs⟩ := hcov s hs
    exact hnc ⟨e.saved, by simp, r, hr, hrs.trans hsc⟩

theorem cell_fieldEntry (s : Nat × Field) : ∀ r ∈ (h.fieldEntry s).saved, h.cell r.1 = r.2 := by
  obtain ⟨idx, f⟩ := s
  cases f <;> simp [Host.fieldEntry, Entry.saved, Host.cell, Host.last]

theorem covers_fieldEntry (s : Nat × Field) :
    ∀ r ∈ [s.2.saved s.1, ⟨.Last (.Account s.1), h.txCounter⟩],
      ∃ q ∈ (h.fieldEntry s).saved, q.1 = r.1 := by
  obtain ⟨idx, f⟩ := s
  cases f <;> simp [Host.fieldEntry, Entry.saved, Field.saved]

@[simp] theorem setFieldAt_journal (idx : Nat) (f : Field) (t : Nat) :
    (h.setFieldAt idx f t).journal = h.journal := rfl

@[simp] theorem setFieldAt_txCounter (idx : Nat) (f : Field) (t : Nat) :
    (h.setFieldAt idx f t).txCounter = h.txCounter := rfl

theorem setFields_journal (sets : List (Nat × Field)) :
    (h.setFields sets).journal = h.journal := by
  induction sets generalizing h with
  | nil => rfl
  | cons s sets ih => exact ih

theorem setFields_cell (sets : List (Nat × Field)) :
    (h.setFields sets).cell = unwind
      (sets.map fun s => [s.2.saved s.1, ⟨.Last (.Account s.1), h.txCounter⟩]) h.cell := by
  induction sets generalizing h with
  | nil => rfl
  | cons s sets ih =>
    change (Host.setFields (h.setFieldAt s.1 s.2 h.txCounter) sets).cell = _
    rw [ih, Host.cell_setFieldAt]
    rfl

theorem unwind_write {logs sets : List (Nat × Field)} (hs : ∀ s ∈ sets, s ∈ logs) :
    unwind (((logs.map h.fieldEntry).reverse).map Entry.saved)
      ((h.logFields logs).setFields sets).cell = h.cell := by
  apply unwind_written
  · intro e he r hr
    simp only [map_reverse, mem_reverse, map_map, mem_map,
      Function.comp_apply] at he
    obtain ⟨s, -, rfl⟩ := he
    exact cell_fieldEntry s r hr
  · intro c hnc
    rw [setFields_cell]
    apply unwind_of_not_covers
    rintro ⟨e, he, r, hr, rfl⟩
    obtain ⟨s, hmem, rfl⟩ := mem_map.mp he
    obtain ⟨q, hq, hqr⟩ := covers_fieldEntry (h := h) s r hr
    have hentry : h.fieldEntry s ∈ (logs.map h.fieldEntry).reverse :=
      mem_reverse.mpr (mem_map_of_mem (hs s hmem))
    exact hnc ⟨_, mem_map_of_mem hentry, q, hq, hqr⟩

theorem cell_touch (l : Last) : (h.touch l).cell = h.cell ∨
    (h.touch l).cell = restore [⟨.Last l, h.txCounter⟩] h.cell := by
  cases l with
  | Account idx =>
    change (h.markTouchedAt idx _).cell = _ ∨ (h.markTouchedAt idx _).cell = _
    unfold Host.markTouchedAt
    split
    · exact .inr (h.cell_setWarmAt idx h.txCounter)
    · exact .inl rfl
  | Slot idx =>
    change (h.markSlotTouchedAt idx _).cell = _ ∨ (h.markSlotTouchedAt idx _).cell = _
    unfold Host.markSlotTouchedAt
    dsimp only
    split
    · right
      symm
      apply restore_eq
      · simp [Host.cell, Host.last]
      · intro c hc
        rcases c with _ | _ | _ | _ | _ | _ | (_ | _ | _ | _) <;>
          simp_all [Host.cell, Host.last]
        rw [Function.update_apply]
        split <;> simp_all
    · exact .inl rfl
  | AccountKey a => exact .inr (h.cell_setWarmAccount a h.txCounter)
  | SlotKey key => exact .inr (h.cell_setWarmSlot key h.txCounter)

@[simp] theorem touch_journal (l : Last) : (h.touch l).journal = h.journal := by
  cases l <;> simp only [Host.touch, Host.markTouchedAt, Host.markSlotTouchedAt] <;>
    first | rfl | (split <;> rfl)

theorem act_journal (a : Act) : (h.act a).journal = h.entries a ++ h.journal := by
  cases a with
  | Write logs sets _ => exact setFields_journal (h := h.logFields logs) sets
  | Warm l =>
    simp only [Host.act, Host.warm, Host.entries]
    split
    · rfl
    · exact touch_journal (h := h.log (l.entry (h.last l))) l
  | AppendLog entry => exact h.setLogs_journal _
  | Touch l => exact touch_journal l
  | _ => rfl

theorem unwind_warm {l : Last} (hl : h.last l ≠ h.txCounter) :
    unwind ([l.entry (h.last l)].map Entry.saved) (h.warm l).cell = h.cell := by
  have hcap : ∀ s ∈ (l.entry (h.last l)).saved, h.cell s.1 = s.2 := by
    cases l <;> simp [Last.entry, Entry.saved, Host.cell]
  rw [warm_of_ne hl]
  rcases cell_touch (h := h.log (l.entry (h.last l))) l with hc | hc
  · exact unwind_entry _ [] hc hcap (by simp)
  · refine unwind_entry _ _ hc hcap ?_
    cases l <;> simp [Last.entry, Entry.saved]

theorem unwind_insertPending (idx : Nat) :
    unwind ([Entry.PendingDestruct idx (idx ∈ h.pendingDestruct)].map Entry.saved)
      (h.insertPending idx).1.cell = h.cell := by
  by_cases hp : idx ∈ h.pendingDestruct
  · have hins : (h.insertPending idx).1.cell = h.cell := by
      funext c
      cases c <;> simp [Host.insertPending, Host.cell, Host.log, hp, Host.last]
    simp only [hins, hp, decide_true, map_cons, map_nil]
    rfl
  · refine unwind_entry _ _ (h.cell_insertPending idx) ?_ ?_
    · simp [Entry.saved, hp, Host.cell]
    · simp [Entry.saved, hp]

theorem unwind_act {a : Act} (ha : a.Logged) :
    unwind ((h.entries a).map Entry.saved) (h.act a).cell = h.cell := by
  cases a with
  | Write logs sets hs => exact unwind_write fun s hmem => (hs s).mpr hmem
  | Store idx v =>
    refine unwind_entry _ _
      (((h.balOpenSlot idx _).logStorage idx).cell_setValueAt idx v h.txCounter) ?_ ?_
    · simp [Entry.saved, Host.cell, Host.last]
    · simp [Entry.saved]
  | Warm l =>
    simp only [Host.act, Host.entries]
    split
    case isTrue hl =>
      rw [warm_of_eq hl]
      rfl
    case isFalse hl => exact unwind_warm hl
  | SetTransient key v =>
    refine unwind_entry _ _ (h.cell_setTransient key (some v)) ?_ ?_
    · cases hk : h.transient key <;> simp [Entry.saved, Host.cell, hk]
    · simp [Entry.saved]
  | InsertPending idx => exact unwind_insertPending idx
  | AppendLog entry => exact h.setLogs_cell _
  | Create idx | BalAccount idx | BalSlot idx | BalPending p => rfl
  | Touch l | RawWrite idx f => exact ha.elim

theorem lasts_of_covers {a : Act} {l : Last}
    (hl : Covers ((h.entries a).map Entry.saved) (.Last l)) : l ∈ a.lasts := by
  obtain ⟨_, hmem, s, hs, hsl⟩ := hl
  obtain ⟨e, he, rfl⟩ := mem_map.mp hmem
  clear hmem
  cases a with
  | Write logs sets hsame =>
    simp only [Host.entries, mem_reverse, mem_map] at he
    obtain ⟨⟨idx, f⟩, hf, rfl⟩ := he
    refine mem_map.mpr ⟨(idx, f), (hsame _).mp hf, ?_⟩
    cases f <;> simp [Host.fieldEntry, Entry.saved] at hs <;>
      rcases hs with rfl | rfl <;> cases hsl <;> rfl
  | Store idx v =>
    simp only [Host.entries, mem_singleton] at he
    subst he
    simp only [Entry.saved, mem_cons, not_mem_nil, or_false] at hs
    rcases hs with rfl | rfl <;> cases hsl
    exact mem_singleton_self _
  | Warm l₀ =>
    simp only [Host.entries] at he
    split at he
    · simp at he
    · rw [mem_singleton] at he
      subst he
      cases l₀ <;> simp [Last.entry, Entry.saved] at hs <;> subst hs <;> cases hsl <;>
        exact mem_singleton_self _
  | SetTransient key v =>
    simp only [Host.entries, mem_singleton] at he
    subst he
    simp only [Entry.saved, mem_singleton] at hs
    subst hs
    cases hsl
  | InsertPending idx =>
    simp only [Host.entries, mem_singleton] at he
    subst he
    simp only [Entry.saved] at hs
    split at hs
    · simp at hs
    · rw [mem_singleton] at hs
      subst hs
      cases hsl
  | _ => simp [Host.entries] at he

end Zeg.StateDB
