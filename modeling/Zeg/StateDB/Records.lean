import Zeg.AccessList.Nets
import Zeg.StateDB.Block
import Zeg.StateDB.Frames

-- The change records of the block access list along a block.
namespace Zeg.StateDB

open Base AccessList List Function

def Account.columns (a : Account) : Columns := AccessList.columns a.balance a.nonce a.codeHash

-- `past i` is the host at the start of the block access index `i`, for every `i` up to the
-- current index `n`.
structure Recorded (past : Nat → Host) (n : Nat) (h : Host) (b : BlockAccessList) : Prop where
  list : h.bal = some b
  index : b.index = n
  accounts : ∀ row col, ((b.accounts row).track col).Nets
    (fun i => ((past i).accounts row).columns col) n ((h.accounts row).columns col)
  accessed : ∀ row, (b.accounts row).accessed = false → (b.accounts row).period = kNone
  slots : ∀ i s, b.slots i = some s →
    s.accessed ∧ s.track.Nets (fun j => ((past j).storages i).value) n (h.storages i).value
  unloaded : ∀ i, b.slots i = none → ∀ j ≤ n, ((past j).storages i).value = (h.storages i).value

-- A slot that the journal can put back is written in the open period already, and a created
-- account has no storage outside of the records.
structure Undoable (w : Witness) (h : Host) (b : BlockAccessList) : Prop where
  journal : ∀ i v last, .Storage i v last ∈ h.journal →
    ∃ s, b.slots i = some s ∧ s.track.period = b.index
  created : ∀ row ∈ h.createdThisTx, ∀ i ∈ w.slotsOf row, b.slots i = none → (h.storages i).value = 0

variable {w : Witness} {h h' : Host} {past : Nat → Host} {n : Nat} {b : BlockAccessList}

structure Neutral (h h' : Host) : Prop where
  bal : h'.bal = h.bal
  columns : ∀ row, (h'.accounts row).columns = (h.accounts row).columns
  values : ∀ i, (h'.storages i).value = (h.storages i).value

theorem Recorded.neutral (hr : Recorded past n h b) (hn : Neutral h h') : Recorded past n h' b where
  list := hn.bal.trans hr.list
  index := hr.index
  accounts row col := by
    rw [hn.columns row]
    exact hr.accounts row col
  accessed := hr.accessed
  slots i s hs := by
    rw [hn.values i]
    exact hr.slots i s hs
  unloaded i hi := by
    rw [hn.values i]
    exact hr.unloaded i hi

-- Records stay, and keep their open period.
def Grows (b b' : BlockAccessList) : Prop :=
  ∀ i s, b.slots i = some s →
    ∃ s', b'.slots i = some s' ∧ (s.track.period = b.index → s'.track.period = b'.index)

variable {b' : BlockAccessList} {i : Nat}

theorem Grows.none (hg : Grows b b') (hi : b'.slots i = none) :
    b.slots i = none := by
  cases hs : b.slots i with
  | none => rfl
  | some s =>
    obtain ⟨s', hs', -⟩ := hg i s hs
    cases hs'.symm.trans hi

theorem Undoable.grow (hu : Undoable w h b) (hg : Grows b b')
    (hj : ∀ i v last, .Storage i v last ∈ h'.journal → .Storage i v last ∈ h.journal ∨ ∃ s, b'.slots i = some s ∧ s.track.period = b'.index)
    (hc : h'.createdThisTx = h.createdThisTx)
    (hv : ∀ i, b'.slots i = none → (h'.storages i).value = (h.storages i).value) :
    Undoable w h' b' where
  journal i v last hm := by
    rcases hj i v last hm with hm | hnew
    · obtain ⟨s, hs, hp⟩ := hu.journal i v last hm
      obtain ⟨s', hs', hp'⟩ := hg i s hs
      exact ⟨s', hs', hp' hp⟩
    · exact hnew
  created row hrow i hi hs := by
    rw [hv i hs]
    exact hu.created row (hc ▸ hrow) i hi (hg.none hs)

theorem recorded_setFieldAt (hr : Recorded past n h b) (hn : n < kNone) (row : Nat) (f : Field) (t : Nat) :
    Recorded past n (h.setFieldAt row f t) (b.beforeWrite row (h.accounts row).balance
      (h.accounts row).nonce (h.accounts row).codeHash) where
  list := by
    change (h.bal.map _) = _
    rw [hr.list]
    rfl
  index := hr.index
  accounts row' col := by
    by_cases hrow : row' = row
    · subst hrow
      rw [b.track_beforeWrite, hr.index]
      exact (hr.accounts row' col).openAt hn _
    · rw [b.beforeWrite_of_ne _ _ _ _ hrow]
      simp only [Host.setFieldAt, update_of_ne hrow]
      exact hr.accounts row' col
  accessed row' hacc := by
    by_cases hrow : row' = row
    · subst hrow
      rw [b.accessed_beforeWrite] at hacc
      exact Bool.noConfusion hacc
    · rw [b.beforeWrite_of_ne _ _ _ _ hrow] at hacc ⊢
      exact hr.accessed row' hacc
  slots := hr.slots
  unloaded := hr.unloaded

theorem recorded_balAccessAt (hr : Recorded past n h b) (row : Nat) :
    Recorded past n (h.balAccessAt row) (b.accessAccount row) where
  list := by
    change h.bal.map _ = _
    rw [hr.list]
    rfl
  index := hr.index
  accounts row' col := by
    have htrack : (((b.accessAccount row).accounts row').track col) = (b.accounts row').track col := by
      by_cases hrow : row' = row
      · subst hrow
        simp only [BlockAccessList.accessAccount, update_self]
        cases col <;> rfl
      · simp only [BlockAccessList.accessAccount, update_of_ne hrow]
    rw [htrack]
    exact hr.accounts row' col
  accessed row' hacc := by
    by_cases hrow : row' = row
    · subst hrow
      simp [BlockAccessList.accessAccount] at hacc
    · simp only [BlockAccessList.accessAccount, update_of_ne hrow] at hacc ⊢
      exact hr.accessed row' hacc
  slots := hr.slots
  unloaded := hr.unloaded

theorem recorded_balSlot (hr : Recorded past n h b) (idx : Nat) :
    Recorded past n (h.balSlot idx) (b.loadSlot idx) where
  list := by
    change h.bal.map _ = _
    rw [hr.list]
    rfl
  index := hr.index
  accounts := hr.accounts
  accessed := hr.accessed
  slots i s hs := by
    by_cases hi : i = idx
    · subst hi
      simp only [BlockAccessList.loadSlot, update_self, Option.some.injEq] at hs
      subst hs
      refine ⟨rfl, ?_⟩
      cases hb : b.slots i with
      | none => exact Track.nets_init 0 (hr.unloaded i hb)
      | some s => exact (hr.slots i s hb).2
    · simp only [BlockAccessList.loadSlot, update_of_ne hi] at hs
      exact hr.slots i s hs
  unloaded i hs := by
    by_cases hi : i = idx
    · subst hi
      simp [BlockAccessList.loadSlot] at hs
    · simp only [BlockAccessList.loadSlot, update_of_ne hi] at hs
      exact hr.unloaded i hs

variable {idx : Nat}

theorem recorded_setValueAt (hr : Recorded past n h b) (hn : n < kNone) {s : SlotRecord} (hs : b.slots idx = some s)
    (hp : s.track.period = n) (v : Word) (t : Nat) :
    Recorded past n (h.setValueAt idx v t) b where
  list := hr.list
  index := hr.index
  accounts := hr.accounts
  accessed := hr.accessed
  slots i s' hs' := by
    by_cases hi : i = idx
    · subst hi
      cases hs.symm.trans hs'
      exact ⟨(hr.slots i s hs).1, Track.nets_of_period (hr.slots i s hs).2 hn hp⟩
    · simp only [Host.setValueAt, update_of_ne hi]
      exact hr.slots i s' hs'
  unloaded i hi := by
    have hne : i ≠ idx := by
      rintro rfl
      cases hs.symm.trans hi
    simp only [Host.setValueAt, update_of_ne hne]
    exact hr.unloaded i hi

theorem recorded_balOpenSlot (hr : Recorded past n h b) (hn : n < kNone) (idx : Nat) :
    Recorded past n (h.balOpenSlot idx (h.storages idx).value)
      (b.openSlot idx (h.storages idx).value) where
  list := by
    change h.bal.map _ = _
    rw [hr.list]
    rfl
  index := hr.index
  accounts := hr.accounts
  accessed := hr.accessed
  slots i s hs := by
    by_cases hi : i = idx
    · subst hi
      simp only [BlockAccessList.openSlot, update_self, Option.map_eq_some_iff] at hs
      obtain ⟨s', hs', rfl⟩ := hs
      refine ⟨(hr.slots i s' hs').1, ?_⟩
      rw [hr.index]
      exact (hr.slots i s' hs').2.openAt hn _
    · simp only [BlockAccessList.openSlot, update_of_ne hi] at hs
      exact hr.slots i s hs
  unloaded i hs := by
    by_cases hi : i = idx
    · subst hi
      simp only [BlockAccessList.openSlot, update_self, Option.map_eq_none_iff] at hs
      exact hr.unloaded i hs
    · simp only [BlockAccessList.openSlot, update_of_ne hi] at hs
      exact hr.unloaded i hs

-- The invariant inside of a step; `loaded` are the slots with a record.
def Kept (w : Witness) (past : Nat → Host) (n : Nat) (loaded : Nat → Prop) (h : Host) : Prop :=
  ∃ b, Recorded past n h b ∧ Undoable w h b ∧ ∀ i, (b.slots i).isSome ↔ loaded i

variable {loaded : Nat → Prop}

theorem Kept.neutral (hk : Kept w past n loaded h) (hn : Neutral h h')
    (hj : ∀ i v last, .Storage i v last ∈ h'.journal → .Storage i v last ∈ h.journal)
    (hc : h'.createdThisTx = h.createdThisTx) : Kept w past n loaded h' := by
  obtain ⟨b, hr, hu, hl⟩ := hk
  refine ⟨b, hr.neutral hn, hu.grow (fun i s hs => ⟨s, hs, id⟩) ?_ hc fun i _ => hn.values i, hl⟩
  exact fun i v last hm => .inl (hj i v last hm)

theorem Kept.setFieldAt (hk : Kept w past n loaded h) (hn : n < kNone) (row : Nat) (f : Field)
    (t : Nat) : Kept w past n loaded (h.setFieldAt row f t) := by
  obtain ⟨b, hr, hu, hl⟩ := hk
  refine ⟨_, recorded_setFieldAt hr hn row f t, ?_, hl⟩
  exact hu.grow (fun i s hs => ⟨s, hs, id⟩) (fun _ _ _ => .inl) rfl fun _ _ => rfl

theorem Kept.setFields (hk : Kept w past n loaded h) (hn : n < kNone) (sets : List (Nat × Field)) :
    Kept w past n loaded (h.setFields sets) := by
  induction sets generalizing h with
  | nil => exact hk
  | cons s sets ih => exact ih (hk.setFieldAt hn s.1 s.2 h.txCounter)

theorem Kept.log (hk : Kept w past n loaded h) (entries : List Entry)
    (hentries : ∀ e ∈ entries, ∀ i v last, e ≠ .Storage i v last) :
    Kept w past n loaded { h with journal := entries ++ h.journal } := by
  refine hk.neutral ⟨rfl, fun _ => rfl, fun _ => rfl⟩ (fun i v last hm => ?_) rfl
  rcases mem_append.mp hm with hm | hm
  · exact absurd rfl (hentries _ hm i v last)
  · exact hm

theorem Kept.write (hk : Kept w past n loaded h) (hn : n < kNone) (logs sets : List (Nat × Field)) :
    Kept w past n loaded ((h.logFields logs).setFields sets) := by
  refine Kept.setFields (h := h.logFields logs) (hk.log _ ?_) hn sets
  intro e he i v last
  obtain ⟨⟨row, f⟩, -, rfl⟩ := mem_map.mp (mem_reverse.mp he)
  cases f <;> simp [Host.fieldEntry]

theorem Kept.setLogs (hk : Kept w past n loaded h) (logs : List LogEntry) :
    Kept w past n loaded (h.setLogs logs) := by
  unfold Host.setLogs
  split
  · exact hk
  · exact hk.neutral ⟨rfl, fun _ => rfl, fun _ => rfl⟩ (fun _ _ _ => id) rfl

theorem Kept.touch (hk : Kept w past n loaded h) (l : Last) : Kept w past n loaded (h.touch l) := by
  cases l with
  | Account idx =>
    simp only [Host.touch, Host.markTouchedAt]
    split
    · refine hk.neutral ⟨rfl, fun row => ?_, fun _ => rfl⟩ (fun _ _ _ => id) rfl
      simp only [Host.setWarmAt, update_apply]
      split
      · subst row
        rfl
      · rfl
    · exact hk
  | Slot idx =>
    simp only [Host.touch, Host.markSlotTouchedAt]
    split
    · refine hk.neutral ⟨rfl, fun _ => rfl, fun i => ?_⟩ (fun _ _ _ => id) rfl
      simp only [update_apply]
      split
      · subst i
        rfl
      · rfl
    · exact hk
  | AccountKey a => exact hk.neutral ⟨rfl, fun _ => rfl, fun _ => rfl⟩ (fun _ _ _ => id) rfl
  | SlotKey key => exact hk.neutral ⟨rfl, fun _ => rfl, fun _ => rfl⟩ (fun _ _ _ => id) rfl

theorem openSlot_of_ne (hi : i ≠ idx) (c : Word) :
    (b.openSlot idx c).slots i = b.slots i := update_of_ne hi _ _

theorem openSlot_self {s : SlotRecord} (hs : b.slots idx = some s) (c : Word) :
    (b.openSlot idx c).slots idx = some { s with track := s.track.openAt b.index c } := by
  simp [BlockAccessList.openSlot, hs]

theorem grows_openSlot (idx : Nat) (c : Word) : Grows b (b.openSlot idx c) := by
  intro i s hs
  by_cases hi : i = idx
  · subst hi
    exact ⟨_, openSlot_self hs c, fun _ => s.track.openAt_period b.index c⟩
  · exact ⟨s, (openSlot_of_ne hi c).trans hs, id⟩

theorem Kept.store (hk : Kept w past n loaded h) (hn : n < kNone) (hloaded : loaded idx) (v : Word)
    : Kept w past n loaded (h.act (.Store idx v)) := by
  obtain ⟨b, hr, hu, hl⟩ := hk
  obtain ⟨s, hs⟩ := Option.isSome_iff_exists.mp ((hl idx).mpr hloaded)
  let c := (h.storages idx).value
  have hs' := openSlot_self hs c
  have hp : (s.track.openAt b.index c).period = b.index := s.track.openAt_period b.index c
  refine ⟨b.openSlot idx c, ?_, hu.grow (grows_openSlot idx c) ?_ rfl ?_, fun i => ?_⟩
  · have hopen : Recorded past n ((h.balOpenSlot idx c).logStorage idx) (b.openSlot idx c) :=
      (recorded_balOpenSlot hr hn idx).neutral ⟨rfl, fun _ => rfl, fun _ => rfl⟩
    exact recorded_setValueAt hopen hn hs' (hp.trans hr.index) v _
  · intro i v' last hm
    rcases mem_cons.mp hm with heq | hm
    · cases heq
      exact .inr ⟨_, hs', hp⟩
    · exact .inl hm
  · intro i hi
    have hne : i ≠ idx := by
      rintro rfl
      cases hs'.symm.trans hi
    exact congrArg Slot.value (update_of_ne hne _ _)
  · by_cases hi : i = idx
    · subst hi
      simp [hs', hloaded]
    · rw [openSlot_of_ne hi]
      exact hl i

theorem Kept.loadSlot (hk : Kept w past n loaded h) (idx : Nat) :
    Kept w past n (fun i => loaded i ∨ i = idx) (h.balSlot idx) := by
  obtain ⟨b, hr, hu, hl⟩ := hk
  have hself : (b.loadSlot idx).slots idx =
      some { (b.slots idx).getD ⟨false, Track.init 0⟩ with accessed := true } := update_self ..
  have hother : ∀ {i}, i ≠ idx → (b.loadSlot idx).slots i = b.slots i :=
    fun hi => update_of_ne hi _ _
  refine ⟨_, recorded_balSlot hr idx, hu.grow ?_ (fun _ _ _ => .inl) rfl fun _ _ => rfl, fun i => ?_⟩
  · intro i s hs
    by_cases hi : i = idx
    · subst hi
      exact ⟨_, hself, by rw [hs]; exact id⟩
    · exact ⟨s, (hother hi).trans hs, id⟩
  · by_cases hi : i = idx
    · subst hi
      simp [hself]
    · rw [hother hi, hl i]
      simp [hi]

theorem Kept.create (hk : Kept w past n loaded h) {row : Nat}
    (hzero : ∀ i ∈ w.slotsOf row, (h.storages i).value = 0) :
    Kept w past n loaded (h.act (.Create row)) := by
  obtain ⟨b, hr, hu, hl⟩ := hk
  refine ⟨b, hr.neutral ⟨rfl, fun _ => rfl, fun _ => rfl⟩, ⟨hu.journal, fun row' hrow' i hi hs => ?_⟩, hl⟩
  rcases mem_insert_iff.mp hrow' with rfl | hrow'
  · exact hzero i hi
  · exact hu.created row' hrow' i hi hs

theorem kept_act {a : Act} (hk : Kept w past n loaded h) (hn : n < kNone) (hcan : h.Can w a) :
    Kept w past n (fun i => loaded i ∨ a = .BalSlot i) (h.act a) := by
  have hsame : ∀ {h'}, (∀ i, a ≠ .BalSlot i) → Kept w past n loaded h' →
      Kept w past n (fun i => loaded i ∨ a = .BalSlot i) h' := by
    rintro h' hne ⟨b, hr, hu, hl⟩
    exact ⟨b, hr, hu, fun i => by simp [hl i, hne i]⟩
  cases a with
  | Write logs sets _ => exact hsame (by simp) (hk.write hn logs sets)
  | Store idx v =>
    refine hsame (by simp) (hk.store hn ?_ v)
    obtain ⟨b, hr, -, hl⟩ := hk
    exact (hl idx).mp (hcan b hr.list)
  | Warm l =>
    refine hsame (by simp) ?_
    change Kept w past n loaded (h.warm l)
    unfold Host.warm
    split
    · exact hk
    · refine Kept.touch (hk.log [l.entry (h.last l)] ?_) l
      cases l <;> simp [Last.entry]
  | Touch l => exact hsame (by simp) (hk.touch l)
  | Create row => exact hsame (by simp) (hk.create hcan)
  | BalSlot idx =>
    obtain ⟨b, hr, hu, hl⟩ := hk.loadSlot idx
    exact ⟨b, hr, hu, fun i => by simp [hl i, eq_comm]⟩
  | BalAccount idx =>
    refine hsame (by simp) ?_
    obtain ⟨b, hr, hu, hl⟩ := hk
    refine ⟨_, recorded_balAccessAt hr idx, ?_, hl⟩
    exact hu.grow (fun i s hs => ⟨s, hs, id⟩) (fun _ _ _ => .inl) rfl fun _ _ => rfl
  | RawWrite idx f => exact hsame (by simp) (hk.setFieldAt hn idx f h.txCounter)
  | SetTransient key v =>
    refine hsame (by simp) (Kept.log (h := h.setTransient key (some v)) ?_ [_] (by simp))
    exact hk.neutral ⟨rfl, fun _ => rfl, fun _ => rfl⟩ (fun _ _ _ => id) rfl
  | InsertPending idx =>
    refine hsame (by simp)
      (Kept.log (h := { h with pendingDestruct := h.pendingDestruct.insert idx }) ?_ [_] (by simp))
    exact hk.neutral ⟨rfl, fun _ => rfl, fun _ => rfl⟩ (fun _ _ _ => id) rfl
  | AppendLog entry => exact hsame (by simp) (hk.setLogs _)
  | BalPending p => exact hsame (by simp) (hk.neutral ⟨rfl, fun _ => rfl, fun _ => rfl⟩ (fun _ _ _ => id) rfl)

-- A rollback writes through the same setters, and only slots written in the open period.
theorem Kept.undo (hk : Kept w past n loaded h) (hn : n < kNone) {e : Entry} (he : e ∈ h.journal) :
    Kept w past n loaded (h.undo e) := by
  cases e with
  | Nonce idx v last => exact hk.setFieldAt hn idx (.Nonce v) last
  | Balance idx v last => exact hk.setFieldAt hn idx (.Balance v) last
  | CodeHash idx v last => exact hk.setFieldAt hn idx (.CodeHash v) last
  | Storage idx v last =>
    obtain ⟨b, hr, hu, hl⟩ := hk
    obtain ⟨s, hs, hp⟩ := hu.journal idx v last he
    refine ⟨b, recorded_setValueAt hr hn hs (hp.trans hr.index) v last, ?_, hl⟩
    refine hu.grow (fun i s hs => ⟨s, hs, id⟩) (fun _ _ _ => .inl) rfl fun i hi => ?_
    have hne : i ≠ idx := by
      rintro rfl
      cases hs.symm.trans hi
    exact congrArg Slot.value (update_of_ne hne _ _)
  | AccountWarm idx last =>
    refine hk.neutral ⟨rfl, fun row => ?_, fun _ => rfl⟩ (fun _ _ _ => id) rfl
    simp only [Host.undo, Host.setWarmAt, update_apply]
    split
    · subst row
      rfl
    · rfl
  | StorageWarm idx last =>
    refine hk.neutral ⟨rfl, fun _ => rfl, fun i => ?_⟩ (fun _ _ _ => id) rfl
    simp only [Host.undo, Host.setSlotWarmAt, update_apply]
    split
    · subst i
      rfl
    · rfl
  | PendingDestruct idx present =>
    cases present
    · exact hk.neutral ⟨rfl, fun _ => rfl, fun _ => rfl⟩ (fun _ _ _ => id) rfl
    · exact hk
  | CheckpointMarker => exact hk
  | Transient key present v => exact hk.neutral ⟨rfl, fun _ => rfl, fun _ => rfl⟩ (fun _ _ _ => id) rfl
  | WarmKeyAccount a last => exact hk.neutral ⟨rfl, fun _ => rfl, fun _ => rfl⟩ (fun _ _ _ => id) rfl
  | WarmKeySlot key last => exact hk.neutral ⟨rfl, fun _ => rfl, fun _ => rfl⟩ (fun _ _ _ => id) rfl

theorem Kept.rolledBack (hk : Kept w past n loaded h) (hn : n < kNone) (cp : Checkpoint) :
    Kept w past n loaded (h.rolledBack cp) := by
  have hfold : ∀ (es : List Entry) (g : Host), (∀ e ∈ es, e ∈ g.journal) → Kept w past n loaded g →
      Kept w past n loaded (es.foldl Host.undo g) := by
    intro es
    induction es with
    | nil => exact fun _ _ => id
    | cons e es ih =>
      intro g hes hg
      rw [forall_mem_cons] at hes
      refine ih (g.undo e) ?_ (hg.undo hn hes.1)
      rw [(g.undo_frame e).1]
      exact hes.2
  have hundone := hfold (since h.journal cp.journalCp) h (fun e he => mem_of_mem_take he) hk
  refine Kept.setLogs (h := { (since h.journal cp.journalCp).foldl Host.undo h with
    journal := h.journal.drop (h.journal.length - cp.journalCp) })
    (hundone.neutral ⟨rfl, fun _ => rfl, fun _ => rfl⟩ ?_ rfl) _
  intro i v last hm
  rw [(h.foldl_undo_frame _).1]
  exact mem_of_mem_drop hm

-- The operations that load a slot's value.
def Op.LoadsSlot (w : Witness) (op : Op) (i : Nat) : Prop :=
  ∃ key, w.findSlot key = some i ∧ (op = .GetStorage key ∨ ∃ v, op = .SetStorage key v)

variable {op : Op} {answer : Answer}

theorem call_loads (hop : op.LoadsSlot w i) (hc : h.call w op = .ok (h', answer)) (hb : h'.bal = some b)
    : (b.slots i).isSome := by
  obtain ⟨key, hfind, rfl | ⟨v, rfl⟩⟩ := hop
  · obtain ⟨x, hx, hret⟩ := map_eq_ok.mp hc
    cases hret
    simp only [Host.getStorage, bind_eq_ok] at hx
    obtain ⟨h₁, -, idx, hrow, hret⟩ := hx
    cases hret
    cases (storageRow_eq_ok hrow).symm.trans hfind
    have hbal : h₁.bal.map (·.loadSlot i) = some b := by
      rw [← hb]
      simp only [Host.markSlotTouchedAt]
      split <;> rfl
    obtain ⟨b₁, -, rfl⟩ := Option.map_eq_some_iff.mp hbal
    simp [BlockAccessList.loadSlot]
  · obtain ⟨x, hx, hret⟩ := map_eq_ok.mp hc
    cases hret
    simp only [Host.setStorage, bind_eq_ok] at hx
    obtain ⟨h₁, -, idx, hrow, hret⟩ := hx
    cases hret
    cases (storageRow_eq_ok hrow).symm.trans hfind
    obtain ⟨b₁, hb₁, rfl⟩ := Option.map_eq_some_iff.mp hb
    obtain ⟨b₂, -, rfl⟩ := Option.map_eq_some_iff.mp hb₁
    simp [BlockAccessList.loadSlot, BlockAccessList.openSlot]

theorem kept_runs {acts : List Act} (hk : Kept w past n loaded h) (hn : n < kNone)
    (hruns : h.Runs w acts h') : Kept w past n (fun i => loaded i ∨ .BalSlot i ∈ acts) h' := by
  induction acts generalizing h loaded with
  | nil =>
    cases hruns
    simpa using hk
  | cons a acts ih =>
    obtain ⟨b, hr, hu, hl⟩ := ih (kept_act hk hn hruns.1) hruns.2
    exact ⟨b, hr, hu, fun i => by simp [hl i, or_assoc, eq_comm]⟩

variable {r' : Run}

theorem kept_step {r : Run} (hk : Kept w past n loaded r.host) (hn : n < kNone) (hc : r.step w op = .ok (r', answer)) :
    Kept w past n (fun i => loaded i ∨ op.LoadsSlot w i) r'.host := by
  have hframe : ∀ {h'}, op.framing → Kept w past n loaded h' →
      Kept w past n (fun i => loaded i ∨ op.LoadsSlot w i) h' := by
    rintro h' hop ⟨b, hr, hu, hl⟩
    refine ⟨b, hr, hu, fun i => (hl i).trans ⟨.inl, fun hi => hi.resolve_right ?_⟩⟩
    rintro ⟨key, -, rfl | ⟨v, rfl⟩⟩
    · exact Bool.noConfusion hop
    · exact Bool.noConfusion hop
  obtain ⟨rfl, rfl⟩ | ⟨rfl, rfl⟩ | ⟨i, cp, rfl, hi, -, rfl⟩ | ⟨h, -, hcall, rfl⟩ := step_cases hc
  · exact hframe rfl (hk.log [.CheckpointMarker] (by simp))
  · exact hframe rfl hk
  · exact hframe rfl (hk.rolledBack hn cp)
  · obtain ⟨acts, hruns, hall, -⟩ := call_does hcall
    obtain ⟨b, hr, hu, hl⟩ := kept_runs hk hn hruns
    refine ⟨b, hr, hu, fun i => ⟨fun hi => ((hl i).mp hi).imp_right (hall (.BalSlot i)), ?_⟩⟩
    rintro (hi | hi)
    · exact (hl i).mpr (.inl hi)
    · exact call_loads hi hcall hr.list

theorem kept_steps {r : Run} {ops : List Op} {answers : List Answer} (hk : Kept w past n loaded r.host) (hn : n < kNone)
    (hc : r.steps w ops = .ok (r', answers)) :
    Kept w past n (fun i => loaded i ∨ ∃ op ∈ ops, op.LoadsSlot w i) r'.host := by
  induction ops generalizing r answers loaded with
  | nil =>
    cases hc
    simpa using hk
  | cons op ops ih =>
    simp only [Run.steps, bind_eq_ok] at hc
    obtain ⟨⟨r₁, a⟩, hstep, ⟨r₂, as⟩, hsteps, hret⟩ := hc
    cases hret
    obtain ⟨b, hr, hu, hl⟩ := ih (kept_step hk hn hstep) hsteps
    exact ⟨b, hr, hu, fun i => by simp [hl i, or_assoc]⟩

-- Only accounts created in the same transaction are destroyed.
def PendingCreated (h : Host) : Prop := ∀ row ∈ h.pendingDestruct, row ∈ h.createdThisTx

theorem PendingCreated.same (hp : PendingCreated h) (hpend : h'.pendingDestruct = h.pendingDestruct)
    (hc : h'.createdThisTx = h.createdThisTx) : PendingCreated h' := by
  unfold PendingCreated
  rw [hpend, hc]
  exact hp

theorem setFields_pending (sets : List (Nat × Field)) :
    (h.setFields sets).pendingDestruct = h.pendingDestruct ∧
      (h.setFields sets).createdThisTx = h.createdThisTx := by
  induction sets generalizing h with
  | nil => exact ⟨rfl, rfl⟩
  | cons s sets ih => exact ih

theorem touch_pending (l : Last) :
    (h.touch l).pendingDestruct = h.pendingDestruct ∧ (h.touch l).createdThisTx = h.createdThisTx := by
  cases l <;> simp only [Host.touch, Host.markTouchedAt, Host.markSlotTouchedAt] <;>
    first | exact ⟨rfl, rfl⟩ | (split <;> exact ⟨rfl, rfl⟩)

theorem pendingCreated_act {a : Act} (hcancun : w.isCancunOrLater) (hp : PendingCreated h)
    (hcan : h.Can w a) : PendingCreated (h.act a) := by
  cases a with
  | Write logs sets _ =>
    exact hp.same (setFields_pending (h := h.logFields logs) sets).1
      (setFields_pending (h := h.logFields logs) sets).2
  | Warm l =>
    change PendingCreated (h.warm l)
    unfold Host.warm
    split
    · exact hp
    · exact hp.same (touch_pending (h := h.log _) l).1 (touch_pending (h := h.log _) l).2
  | Touch l => exact hp.same (touch_pending l).1 (touch_pending l).2
  | AppendLog entry =>
    simp only [Host.act, Host.setLogs]
    split <;> exact hp
  | InsertPending idx =>
    intro row hrow
    rcases mem_insert_iff.mp hrow with rfl | hrow
    · change row ∈ h.createdThisTx
      simpa [Host.Can, Host.shouldDestroy, hcancun] using hcan
    · exact hp row hrow
  | Create idx => exact fun row hrow => mem_insert_of_mem (hp row hrow)
  | _ => exact hp

theorem pendingCreated_undo (hp : PendingCreated h) (e : Entry) : PendingCreated (h.undo e) := by
  cases e with
  | PendingDestruct idx present =>
    cases present
    · exact fun row hrow => hp row (mem_of_mem_filter hrow)
    · exact hp
  | _ => exact hp

theorem pendingCreated_rolledBack (hp : PendingCreated h) (cp : Checkpoint) :
    PendingCreated (h.rolledBack cp) := by
  have hfold : ∀ (es : List Entry) (g : Host), PendingCreated g → PendingCreated (es.foldl Host.undo g) := by
    intro es
    induction es with
    | nil => exact fun _ => id
    | cons e es ih => exact fun g hg => ih _ (pendingCreated_undo hg e)
  have hundone := hfold (since h.journal cp.journalCp) h hp
  simp only [Host.rolledBack, Host.setLogs]
  split <;> exact hundone

theorem pendingCreated_step {r : Run} (hcancun : w.isCancunOrLater) (hp : PendingCreated r.host)
    (hc : r.step w op = .ok (r', answer)) : PendingCreated r'.host := by
  obtain ⟨rfl, rfl⟩ | ⟨rfl, rfl⟩ | ⟨i, cp, rfl, hi, -, rfl⟩ | ⟨h, -, hcall, rfl⟩ := step_cases hc
  · exact hp
  · exact hp
  · exact pendingCreated_rolledBack hp cp
  · obtain ⟨acts, hruns, -, -⟩ := call_does hcall
    clear hcall hc
    generalize r.host = g at hp hruns
    induction acts generalizing g with
    | nil => exact hruns ▸ hp
    | cons a acts ih => exact ih (g.act a) (pendingCreated_act hcancun hp hruns.1) hruns.2

-- The wipe of a created account: a slot of it that is not zero has a record.
theorem Kept.clearAccount (hk : Kept w past n loaded h) (hn : n < kNone) {row : Nat}
    (hrow : row ∈ h.createdThisTx) :
    Kept w past n loaded (h.clearAccountForSelfdestruct w row) ∧
      (h.clearAccountForSelfdestruct w row).createdThisTx = h.createdThisTx := by
  refine clearAccount_induction
    (I := fun g => Kept w past n loaded g ∧ g.createdThisTx = h.createdThisTx) ?_ ?_ ?_ ⟨hk, rfl⟩
  · exact fun g f hg => ⟨hg.1.write hn _ _, hg.2⟩
  · rintro g i hi hv ⟨hg, hc⟩
    refine ⟨hg.store hn ?_ 0, hc⟩
    obtain ⟨b, -, hu, hl⟩ := hg
    rw [← hl i]
    by_contra hnone
    exact hv (hu.created row (hc ▸ hrow) i hi (Option.not_isSome_iff_eq_none.mp hnone))
  · exact fun g hg => ⟨hg.1.neutral ⟨rfl, fun _ => rfl, fun _ => rfl⟩ (fun _ _ _ => id) rfl, hg.2⟩

theorem Kept.applyPendingDestructs (hk : Kept w past n loaded h) (hn : n < kNone)
    (hp : PendingCreated h) : Kept w past n loaded (h.applyPendingDestructs w) := by
  have hfold : ∀ (rows : List Nat) (g : Host), (∀ row ∈ rows, row ∈ g.createdThisTx) →
      Kept w past n loaded g →
      Kept w past n loaded (rows.foldl (Host.clearAccountForSelfdestruct w) g) := by
    intro rows
    induction rows with
    | nil => exact fun _ _ => id
    | cons row rows ih =>
      intro g hrows hg
      rw [forall_mem_cons] at hrows
      obtain ⟨hnext, hc⟩ := hg.clearAccount hn hrows.1
      exact ih _ (hc ▸ hrows.2) hnext
  exact (hfold h.pendingDestruct h hp hk).neutral ⟨rfl, fun _ => rfl, fun _ => rfl⟩ (fun _ _ _ => id) rfl

theorem recorded_setIndex {n' : Nat} (hr : Recorded past n h b) (hn : n ≤ n')
    (hlater : ∀ i, n < i → i ≤ n' → past i = h) :
    Recorded past n' (h.setIndex n') { b with index := n' } where
  list := by
    change h.bal.map _ = _
    rw [hr.list]
    rfl
  index := rfl
  accounts row col := (hr.accounts row col).move hn (fun _ _ => rfl) fun i hi hin => by
    rw [hlater i hi hin]
  accessed := hr.accessed
  slots i s hs := by
    refine ⟨(hr.slots i s hs).1, (hr.slots i s hs).2.move hn (fun _ _ => rfl) fun j hj hjn => ?_⟩
    rw [hlater j hj hjn]
  unloaded i hi j hj := by
    by_cases hjn : j ≤ n
    · exact hr.unloaded i hi j hjn
    · rw [hlater j (by omega) hj]
      rfl

theorem Recorded.agree {past' : Nat → Host} (hr : Recorded past n h b)
    (hpast : ∀ i ≤ n, past' i = past i) : Recorded past' n h b where
  list := hr.list
  index := hr.index
  accounts row col := (hr.accounts row col).move (Nat.le_refl n) (fun i hi => by rw [hpast i hi])
    fun i hi hin => by omega
  accessed := hr.accessed
  slots i s hs := ⟨(hr.slots i s hs).1, (hr.slots i s hs).2.move (Nat.le_refl n)
    (fun j hj => by rw [hpast j hj]) fun j hj hjn => by omega⟩
  unloaded i hi j hj := by
    rw [hpast j hj]
    exact hr.unloaded i hi j hj

-- The index of a step that starts at index `n`.
def BlockStep.index (n : Nat) : BlockStep → Nat
  | .Transaction index _ | .SetIndex index => index
  | .SystemCall _ | .Credit _ _ => n

-- Entering a step forgets the journal and the created accounts.
theorem Recorded.kept (hr : Recorded past n h b) (hl : ∀ i, (b.slots i).isSome ↔ loaded i)
    (hj : h.journal = []) (hc : h.createdThisTx = []) : Kept w past n loaded h := by
  refine ⟨b, hr, ⟨fun i v last hm => ?_, fun row hrow => ?_⟩, hl⟩
  · rw [hj] at hm
    cases hm
  · rw [hc] at hrow
    cases hrow

theorem recorded_blockStep {s : BlockStep} (hcancun : w.isCancunOrLater) (hr : Recorded past n h b)
    (hl : ∀ i, (b.slots i).isSome ↔ loaded i) (hlater : ∀ i, n < i → past i = h)
    (hn : n ≤ s.index n) (hlt : s.index n < kNone) (hc : h.blockStep w s = .ok h') :
    ∃ b', Recorded past (s.index n) h' b' ∧
      ∀ i, (b'.slots i).isSome ↔ loaded i ∨ ∃ op ∈ s.ops, op.LoadsSlot w i := by
  simp only [Host.blockStep, bind_eq_ok] at hc
  obtain ⟨⟨r, answers⟩, hsteps, hfinish⟩ := hc
  cases s with
  | Transaction index ops =>
    have hindex := recorded_setIndex hr hn fun i hi _ => hlater i hi
    have hbegin : Kept w past index loaded (h.beginTransaction index) :=
      Recorded.kept (h := h.beginTransaction index)
        (hindex.neutral ⟨rfl, fun _ => rfl, fun _ => rfl⟩) hl rfl rfl
    have hrun := kept_steps (r := ⟨h.beginTransaction index, []⟩) hbegin hlt hsteps
    have hnone : PendingCreated (h.beginTransaction index) := fun _ hrow => nomatch hrow
    have hpend : PendingCreated r.host := steps_induction (I := fun r => PendingCreated r.host)
      (fun hstep hp => pendingCreated_step hcancun hp hstep) hnone hsteps
    cases hfinish
    obtain ⟨b', hr', -, hl'⟩ := hrun.applyPendingDestructs hlt hpend
    exact ⟨b', hr', hl'⟩
  | SystemCall ops =>
    have hbegin : Kept w past n loaded h.beginSystemCall :=
      Recorded.kept (h := h.beginSystemCall)
        (hr.neutral ⟨rfl, fun _ => rfl, fun _ => rfl⟩) hl rfl rfl
    obtain ⟨b', hr', -, hl'⟩ := kept_steps (r := ⟨h.beginSystemCall, []⟩) hbegin hlt hsteps
    cases hfinish
    exact ⟨b', hr'.neutral ⟨rfl, fun _ => rfl, fun _ => rfl⟩, hl'⟩
  | SetIndex index =>
    cases hsteps
    cases hfinish
    exact ⟨_, recorded_setIndex hr hn fun i hi _ => hlater i hi, fun i => by simp [hl i, BlockStep.ops]⟩
  | Credit a v =>
    cases hsteps
    simp only [BlockStep.finish, Host.setField, bind_eq_ok] at hfinish
    obtain ⟨idx, -, hret⟩ := hfinish
    cases hret
    exact ⟨_, recorded_setFieldAt hr hlt idx (.Balance v) _,
      fun i => (hl i).trans (by simp [BlockStep.ops])⟩

def Host.balIndex (h : Host) : Nat := (h.bal.map BlockAccessList.index).getD 0

-- The hosts after each step of a block, newest first.
def Host.trace (w : Witness) (start : Host) : List Host → List BlockStep → Except String (List Host)
  | states, [] => .ok states
  | states, s :: steps => do
    let h ← (states.headD start).blockStep w s
    trace w start (h :: states) steps

-- The host at the start of a block access index: the one after the last step of a smaller index.
def hostBefore (start : Host) (states : List Host) : Nat → Host :=
  valueBefore start (states.map fun h => (h.balIndex, h))

-- Block access indices do not decrease; `kNone` is not one.
def Ascending : Nat → List BlockStep → Prop
  | _, [] => True
  | n, s :: steps => n ≤ s.index n ∧ s.index n < kNone ∧ Ascending (s.index n) steps

-- The final pass of build_block_access_list_hash, which visits every row.
def Host.closeList (h : Host) : Option BlockAccessList :=
  h.bal.map fun b =>
    { b with
      accounts := fun row =>
        if (b.accounts row).accessed then
          (b.accounts row).close (h.accounts row).balance (h.accounts row).nonce (h.accounts row).codeHash
        else b.accounts row
      slots := fun i => (b.slots i).map fun s =>
        if s.accessed then { s with track := s.track.close (h.storages i).value } else s }

-- How the encoder lists a slot: with its changes, or as a read.
def slotChanges (b : BlockAccessList) (i : Nat) : List (Nat × Word) :=
  ((b.slots i).filter SlotRecord.accessed).elim [] fun s => s.track.changes

def isRead (b : BlockAccessList) (i : Nat) : Bool :=
  ((b.slots i).filter SlotRecord.accessed).any fun s => s.track.changes.isEmpty

def Settled (start : Host) (states : List Host) (loaded : Nat → Prop) : Prop :=
  (∀ h ∈ states, h.balIndex ≤ (states.headD start).balIndex) ∧
  (states.headD start).balIndex < kNone ∧
  ∃ b, Recorded (hostBefore start states) (states.headD start).balIndex (states.headD start) b ∧
    ∀ i, (b.slots i).isSome ↔ loaded i

variable {start : Host} {states states' : List Host}

theorem hostBefore_later (hle : ∀ h ∈ states, h.balIndex ≤ n) (hi : n < i) :
    hostBefore start states i = states.headD start := by
  have hlog : ∀ e ∈ states.map fun h => (h.balIndex, h), e.1 < i := by
    intro e he
    obtain ⟨h, hh, rfl⟩ := mem_map.mp he
    exact Nat.lt_of_le_of_lt (hle h hh) hi
  rw [hostBefore, valueBefore_eq_last hlog, map_map]
  exact congrArg (·.headD start) (map_id states)

theorem settled_step {s : BlockStep} (hcancun : w.isCancunOrLater) (hs : Settled start states loaded)
    (hn : (states.headD start).balIndex ≤ s.index (states.headD start).balIndex)
    (hlt : s.index (states.headD start).balIndex < kNone)
    (hc : (states.headD start).blockStep w s = .ok h) :
    h.balIndex = s.index (states.headD start).balIndex ∧
      Settled start (h :: states) fun i => loaded i ∨ ∃ op ∈ s.ops, op.LoadsSlot w i := by
  obtain ⟨hle, -, b, hr, hl⟩ := hs
  obtain ⟨b', hr', hl'⟩ := recorded_blockStep hcancun hr hl (fun i => hostBefore_later hle) hn hlt hc
  have hindex : h.balIndex = s.index (states.headD start).balIndex := by
    rw [Host.balIndex, hr'.list]
    exact hr'.index
  refine ⟨hindex, ?_, hindex ▸ hlt, b', ?_, hl'⟩
  · intro g hg
    rw [headD_cons, hindex]
    rcases mem_cons.mp hg with rfl | hg
    · exact Nat.le_of_eq hindex
    · exact Nat.le_trans (hle g hg) hn
  · rw [headD_cons, hindex]
    refine hr'.agree fun i hi => ?_
    exact valueBefore_cons_of_le start _ h (hindex ▸ hi)

theorem settled_trace {steps : List BlockStep} (hcancun : w.isCancunOrLater)
    (hs : Settled start states loaded) (hasc : Ascending (states.headD start).balIndex steps)
    (hc : Host.trace w start states steps = .ok states') :
    Settled start states' fun i => loaded i ∨ ∃ s ∈ steps, ∃ op ∈ s.ops, op.LoadsSlot w i := by
  induction steps generalizing states loaded with
  | nil =>
    cases hc
    simpa using hs
  | cons s steps ih =>
    simp only [Host.trace, bind_eq_ok] at hc
    obtain ⟨h, hstep, hrest⟩ := hc
    obtain ⟨hn, hlt, hasc⟩ := hasc
    obtain ⟨hindex, hnext⟩ := settled_step hcancun hs hn hlt hstep
    rw [← hindex] at hasc
    obtain ⟨hle, hlt, b, hr, hl⟩ := ih hnext hasc hrest
    exact ⟨hle, hlt, b, hr, fun i => by simp [hl i, or_assoc]⟩

theorem start_balIndex (balance : Nat → Word) (nonce : Nat → UInt64) (codeHash : Nat → Bytes32)
    (value : Nat → Word) (ham : w.isAmsterdamOrLater) :
    (Host.start w balance nonce codeHash value).balIndex = 0 := by
  simp [Host.balIndex, Host.start, ham, BlockAccessList.init]

theorem settled_start (balance : Nat → Word) (nonce : Nat → UInt64) (codeHash : Nat → Bytes32)
    (value : Nat → Word) (ham : w.isAmsterdamOrLater) :
    Settled (Host.start w balance nonce codeHash value) [] fun _ => False := by
  have hbal : (Host.start w balance nonce codeHash value).bal = some BlockAccessList.init := if_pos ham
  have hindex := start_balIndex balance nonce codeHash value ham
  refine ⟨by simp, by rw [headD_nil, hindex]; decide, BlockAccessList.init, ?_, ?_⟩
  · rw [headD_nil, hindex]
    refine ⟨hbal, rfl, fun row col => ?_, fun _ _ => rfl, fun i s hs => ?_, fun i _ j _ => rfl⟩
    · refine .Untouched ?_ ?_ fun i _ => rfl
      · rw [AccountRecord.track_period]
        rfl
      · cases col <;> rfl
    · cases hs
  · simp [BlockAccessList.init]

-- A record closed at the end of the block lists the changes of the whole block.
theorem close_lists {α : Type} [DecidableEq α] {value : Nat → α} {t : Track α} {c : α}
    (ht : t.Nets value n c) (hn : n < kNone) (hlater : ∀ i, n < i → value i = c) :
    ListsChanges value (t.close c).changes := by
  have hend := ht.move (Nat.le_of_lt hn) (fun _ _ => rfl) fun i hi _ => hlater i hi
  rw [hend.close_changes (Nat.le_refl _) (ht.period_le.imp_left fun hle => by omega)]
  exact listsChanges_changesOf fun i hi => hlater i (by omega)

theorem closeList_account (hr : Recorded past n h b) (hb : h.closeList = some b') (row : Nat) (col : Column)
    : (b'.accounts row).track col =
      ((b.accounts row).track col).close ((h.accounts row).columns col) := by
  rw [Host.closeList, hr.list] at hb
  cases hb
  simp only
  split
  · rw [AccountRecord.track_close]
    rfl
  case isFalse hacc =>
    -- a row that was never accessed has no period to close
    have hnone := hr.accessed row (by simpa using hacc)
    rw [← AccountRecord.track_period _ col] at hnone
    generalize (b.accounts row).track col = t at hnone
    cases t
    simp_all [Track.close]

theorem closeList_slot (hr : Recorded past n h b) (hb : h.closeList = some b') (i : Nat) : slotChanges b' i =
      (b.slots i).elim [] (fun s => (s.track.close (h.storages i).value).changes) ∧
    (isRead b' i ↔ (b.slots i).isSome ∧ slotChanges b' i = []) := by
  rw [Host.closeList, hr.list] at hb
  cases hb
  cases hs : b.slots i with
  | none => simp [slotChanges, isRead, hs]
  | some s => simp [slotChanges, isRead, hs, (hr.slots i s hs).1, Option.filter]

-- After the final pass the list of each field and of each slot holds the block access indices
-- that change the value, with the value at their end. A slot is a read if it was loaded and has
-- no changes.
theorem changes_listed (w : Witness) (balance : Nat → Word) (nonce : Nat → UInt64)
    (codeHash : Nat → Bytes32) (value : Nat → Word) (steps : List BlockStep) (states : List Host)
    (ham : w.isAmsterdamOrLater) (hasc : Ascending 0 steps)
    (hrun : Host.trace w (Host.start w balance nonce codeHash value) [] steps = .ok states) :
    let start := Host.start w balance nonce codeHash value
    let before := hostBefore start states
    ∃ b, (states.headD start).closeList = some b ∧
      (∀ row, ListsChanges (fun i => ((before i).accounts row).balance) (b.accounts row).balance ∧
        ListsChanges (fun i => ((before i).accounts row).nonce) (b.accounts row).nonce ∧
        ListsChanges (fun i => ((before i).accounts row).codeHash) (b.accounts row).code) ∧
      ∀ i, ListsChanges (fun j => ((before j).storages i).value) (slotChanges b i) ∧
        (isRead b i ↔ (∃ s ∈ steps, ∃ op ∈ s.ops, op.LoadsSlot w i) ∧ slotChanges b i = []) := by
  intro start before
  have hcancun : w.isCancunOrLater := by
    revert ham
    simp only [Witness.isAmsterdamOrLater, Witness.isCancunOrLater]
    cases w.revision <;> decide
  have hstart := settled_start balance nonce codeHash value ham
  have hzero : start.balIndex = 0 := start_balIndex balance nonce codeHash value ham
  obtain ⟨hle, hlt, b, hr, hl⟩ := settled_trace hcancun hstart (hzero ▸ hasc) hrun
  have hlater : ∀ i, (states.headD start).balIndex < i → before i = states.headD start :=
    fun i => hostBefore_later hle
  obtain ⟨b', hb'⟩ : ∃ b', (states.headD start).closeList = some b' := by
    rw [Host.closeList, hr.list]
    exact ⟨_, rfl⟩
  have hrow : ∀ row col, ListsChanges (fun i => ((before i).accounts row).columns col)
      ((b'.accounts row).track col).changes := by
    intro row col
    rw [closeList_account hr hb' row col]
    exact close_lists (hr.accounts row col) hlt fun i hi => by rw [hlater i hi]
  refine ⟨b', hb', fun row => ⟨hrow row .Balance, hrow row .Nonce, hrow row .CodeHash⟩, fun i => ?_⟩
  obtain ⟨hchanges, hread⟩ := closeList_slot hr hb' i
  refine ⟨?_, by rw [hread, hl i]; simp⟩
  rw [hchanges]
  cases hs : b.slots i with
  | some s => exact close_lists (hr.slots i s hs).2 hlt fun j hj => by rw [hlater j hj]
  | none =>
    refine listsChanges_changesOf (n := 0) (c := ((states.headD start).storages i).value) fun j _ => ?_
    by_cases hj : j ≤ (states.headD start).balIndex
    · exact hr.unloaded i hs j hj
    · rw [hlater j (by omega)]

-- A slot set in a frame that reverts, then set for good by a later transaction, and a credit.
def recordedBlock : List BlockStep :=
  [.SystemCall [.AccessStorage tinySlot, .GetStorage tinySlot],
    .Transaction 1 [.Checkpoint, .AccessStorage tinySlot, .SetStorage tinySlot 5, .Rollback 0],
    .Transaction 2 [.AccessStorage tinySlot, .SetStorage tinySlot 6], .SetIndex 3,
    .Credit (tinyAddress 0xbb) 7]

def tinyAmsterdam : Host :=
  Host.start (tinyWitness .Amsterdam) (fun _ => 100) (fun _ => 0) (fun _ => kEmptyCodeHash) fun _ => 0

theorem changes_listed_recordedBlock : ∃ states b,
    Host.trace (tinyWitness .Amsterdam) tinyAmsterdam [] recordedBlock = .ok states ∧
    (states.headD tinyAmsterdam).closeList = some b ∧ slotChanges b 0 = [(2, 6)] ∧
    ListsChanges (fun j => ((hostBefore tinyAmsterdam states j).storages 0).value) (slotChanges b 0) := by
  obtain ⟨states, hrun⟩ : ∃ states,
      Host.trace (tinyWitness .Amsterdam) tinyAmsterdam [] recordedBlock = .ok states := ⟨_, rfl⟩
  have hasc : Ascending 0 recordedBlock := by
    simp [recordedBlock, Ascending, BlockStep.index, kNone]
  obtain ⟨b, hb, -, hslots⟩ := changes_listed _ _ _ _ _ _ _ rfl hasc hrun
  have hchanges : slotChanges b 0 = [(2, 6)] := by
    cases hrun
    cases hb
    rfl
  exact ⟨states, b, hrun, hb, hchanges, (hslots 0).1⟩

end Zeg.StateDB
