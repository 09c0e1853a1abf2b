import Zeg.StateDB.Stamps
import Mathlib.Data.List.Induction

-- The originals that classify storage writes.
namespace Zeg.StateDB

open Base AccessList List Function

-- The storage statuses of EVMC, by the value at the start of the transaction, the value before
-- the write and the written one.
inductive Classifies : Word → Word → Word → StorageStatus → Prop where
  | Same (o c : Word) : Classifies o c c .Assigned
  | Dirty {o c v : Word} (hc : c ≠ 0) (hv : v ≠ 0) (hoc : o ≠ c) (hcv : v ≠ c) (hov : v ≠ o) :
      Classifies o c v .Assigned
  | Added {v : Word} (hv : v ≠ 0) : Classifies 0 0 v .Added
  | Deleted {o : Word} (ho : o ≠ 0) : Classifies o o 0 .Deleted
  | Modified {o v : Word} (ho : o ≠ 0) (hv : v ≠ 0) (hov : v ≠ o) : Classifies o o v .Modified
  | DeletedAdded {o v : Word} (ho : o ≠ 0) (hv : v ≠ 0) (hov : v ≠ o) : Classifies o 0 v .DeletedAdded
  | ModifiedDeleted {o c : Word} (ho : o ≠ 0) (hc : c ≠ 0) (hoc : o ≠ c) :
      Classifies o c 0 .ModifiedDeleted
  | DeletedRestored {o : Word} (ho : o ≠ 0) : Classifies o 0 o .DeletedRestored
  | AddedDeleted {c : Word} (hc : c ≠ 0) : Classifies 0 c 0 .AddedDeleted
  | ModifiedRestored {o c : Word} (ho : o ≠ 0) (hc : c ≠ 0) (hoc : o ≠ c) :
      Classifies o c o .ModifiedRestored

theorem classifies_total (o c v : Word) : ∃ status, Classifies o c v status := by
  by_cases hvc : v = c
  · subst hvc
    exact ⟨_, .Same o v⟩
  · by_cases hoc : o = c
    · subst hoc
      by_cases ho : o = 0
      · subst ho
        exact ⟨_, .Added hvc⟩
      · by_cases hv : v = 0
        · subst hv
          exact ⟨_, .Deleted ho⟩
        · exact ⟨_, .Modified ho hv hvc⟩
    · -- a slot this transaction has changed
      by_cases ho : o = 0
      · subst ho
        by_cases hv : v = 0
        · subst hv
          exact ⟨_, .AddedDeleted (Ne.symm hoc)⟩
        · exact ⟨_, .Dirty (Ne.symm hoc) hv hoc hvc hv⟩
      · by_cases hc : c = 0
        · subst hc
          by_cases hvo : v = o
          · subst hvo
            exact ⟨_, .DeletedRestored ho⟩
          · exact ⟨_, .DeletedAdded ho hvc hvo⟩
        · by_cases hv : v = 0
          · subst hv
            exact ⟨_, .ModifiedDeleted ho hc hoc⟩
          · by_cases hvo : v = o
            · subst hvo
              exact ⟨_, .ModifiedRestored ho hc hoc⟩
            · exact ⟨_, .Dirty hc hv hoc hvc hvo⟩

theorem classifies_iff (o c v : Word) (status : StorageStatus) :
    Classifies o c v status ↔ computeStorageStatus o c v = status := by
  have hcode : ∀ {status}, Classifies o c v status → computeStorageStatus o c v = status := by
    intro status hs
    unfold computeStorageStatus
    cases hs <;> grind
  refine ⟨hcode, ?_⟩
  rintro rfl
  obtain ⟨status, hs⟩ := classifies_total o c v
  rwa [hcode hs]

def Host.originals (h : Host) (idx : Nat) : Word := (h.storages idx).txOriginal

-- Of a journal and a transaction counter: a slot not touched yet holds the value it started the
-- transaction with, and a touched one has that value as its original.
def Snapped (start : Nat → Word) (t : Nat) (originals : Nat → Word)
    (_ : List (List ((c : Cell) × c.Val))) (o : Store) (_ : Unit) : Prop :=
  ∀ idx, o (.Last (.Slot idx)) ≤ t ∧ (o (.Last (.Slot idx)) < t → o (.Value idx) = start idx) ∧
    (o (.Last (.Slot idx)) = t → originals idx = start idx)

variable {w : Witness} {h h' : Host} {r r' : Run} {saved : List Unit} {start : Nat → Word}
variable {originals originals' : Nat → Word} {t : Nat}

theorem Snapped.mono {log : List (List ((c : Cell) × c.Val))} {o : Store} {u : Unit}
    (hs : Snapped start t originals log o u)
    (hkeep : ∀ idx, originals idx = start idx → originals' idx = start idx) :
    Snapped start t originals' log o u :=
  fun idx => ⟨(hs idx).1, (hs idx).2.1, fun heq => hkeep idx ((hs idx).2.2 heq)⟩

theorem storages_touch (l : Last) (idx : Nat) :
    (h.touch l).storages idx =
      if l = .Slot idx ∧ (h.storages idx).lastTx < h.txCounter then
        { h.storages idx with lastTx := h.txCounter, txOriginal := (h.storages idx).value }
      else h.storages idx := by
  cases l with
  | Slot i =>
    simp only [Host.touch, Host.markSlotTouchedAt, Last.Slot.injEq]
    by_cases hi : i = idx
    · subst hi
      by_cases hlt : (h.storages i).lastTx < h.txCounter <;> simp [hlt]
    · simp only [hi, false_and, if_false]
      split
      · exact update_of_ne (Ne.symm hi) _ _
      · rfl
  | Account i =>
    simp only [Host.touch, Host.markTouchedAt, reduceCtorEq, false_and, if_false]
    split <;> rfl
  | AccountKey a => simp [Host.touch, Host.setWarmAccount]
  | SlotKey key => simp [Host.touch, Host.setWarmSlot]

theorem storages_setFields (sets : List (Nat × Field)) : (h.setFields sets).storages = h.storages := by
  induction sets generalizing h with
  | nil => rfl
  | cons s sets ih => exact ih

theorem storages_act (a : Act) (idx : Nat) (hb : (h.storages idx).lastTx ≤ h.txCounter) :
    (∃ v, a = .Store idx v ∧
      (h.act a).storages idx = { h.storages idx with value := v, lastTx := h.txCounter }) ∨
    .Slot idx ∈ a.lasts ∧ (h.storages idx).lastTx < h.txCounter ∧
      (h.act a).storages idx =
        { h.storages idx with lastTx := h.txCounter, txOriginal := (h.storages idx).value } ∨
    ((h.storages idx).lastTx = h.txCounter ∨ .Slot idx ∉ a.lasts) ∧
      (h.act a).storages idx = h.storages idx := by
  have htouched : ∀ {l : Last} {g : Host}, g.storages = h.storages → g.txCounter = h.txCounter →
      .Slot idx ∈ [l] ∧ (h.storages idx).lastTx < h.txCounter ∧
        (g.touch l).storages idx =
          { h.storages idx with lastTx := h.txCounter, txOriginal := (h.storages idx).value } ∨
      ((h.storages idx).lastTx = h.txCounter ∨ .Slot idx ∉ [l]) ∧
        (g.touch l).storages idx = h.storages idx := by
    intro l g hg ht
    rw [storages_touch, hg, ht]
    split
    case isTrue hl => exact .inl ⟨by simp [hl.1], hl.2, rfl⟩
    case isFalse hl =>
      refine .inr ⟨?_, rfl⟩
      by_cases heq : (h.storages idx).lastTx = h.txCounter
      · exact .inl heq
      · refine .inr fun hm => hl ⟨(mem_singleton.mp hm).symm, by omega⟩
  cases a with
  | Store i v =>
    by_cases hi : i = idx
    · subst hi
      exact .inl ⟨v, rfl, update_self ..⟩
    · refine .inr (.inr ⟨.inr (by simp [Act.lasts, Ne.symm hi]), ?_⟩)
      exact update_of_ne (Ne.symm hi) _ _
  | Warm l =>
    refine .inr ?_
    change _ ∧ _ ∧ (h.warm l).storages idx = _ ∨ _ ∧ (h.warm l).storages idx = _
    by_cases hl : h.last l = h.txCounter
    · rw [warm_of_eq hl]
      refine .inr ⟨?_, rfl⟩
      by_cases hm : l = .Slot idx
      · subst hm
        exact .inl hl
      · exact .inr (by simpa [Act.lasts] using Ne.symm hm)
    · rw [warm_of_ne hl]
      exact htouched rfl rfl
  | Touch l => exact .inr (htouched rfl rfl)
  | Write logs sets hs =>
    refine .inr (.inr ⟨.inr (by simp [Act.lasts]), ?_⟩)
    exact congrFun (storages_setFields sets) idx
  | AppendLog entry =>
    refine .inr (.inr ⟨.inr (by simp [Act.lasts]), ?_⟩)
    simp only [Host.act, Host.setLogs]
    split <;> rfl
  | RawWrite i f => exact .inr (.inr ⟨.inr (by simp [Act.lasts]), by cases f <;> rfl⟩)
  | InsertPending i => exact .inr (.inr ⟨.inr (by simp [Act.lasts]), rfl⟩)
  | _ => exact .inr (.inr ⟨.inr (by simp [Act.lasts]), rfl⟩)

theorem originals_act {a : Act} (hs : Snapped start h.txCounter h.originals h.undoLog h.cell ())
    (idx : Nat) (ho : h.originals idx = start idx) : (h.act a).originals idx = start idx := by
  rcases storages_act a idx (hs idx).1 with ⟨v, -, heq⟩ | ⟨-, hlt, heq⟩ | ⟨-, heq⟩
  · rw [Host.originals, heq]
    exact ho
  · rw [Host.originals, heq]
    exact (hs idx).2.1 hlt
  · rw [Host.originals, heq]
    exact ho

theorem originals_touched {a : Act} (hs : Snapped start h.txCounter h.originals h.undoLog h.cell ())
    {idx : Nat} (hl : .Slot idx ∈ a.lasts) (hstore : ∀ v, a = .Store idx v → h.originals idx = start idx) :
    (h.act a).originals idx = start idx := by
  rcases storages_act a idx (hs idx).1 with ⟨v, ha, -⟩ | ⟨-, hlt, heq⟩ | ⟨hwarm, heq⟩
  · exact originals_act hs idx (hstore v ha)
  · rw [Host.originals, heq]
    exact (hs idx).2.1 hlt
  · rw [Host.originals, heq]
    exact (hs idx).2.2 (hwarm.resolve_right (not_not_intro hl))

theorem snapped_act {a : Act} (hs : Snapped start h.txCounter h.originals h.undoLog h.cell ())
    (hstore : ∀ idx v, a = .Store idx v → h.originals idx = start idx) :
    Snapped start h.txCounter (h.act a).originals (h.act a).undoLog (h.act a).cell () := by
  intro idx
  change ((h.act a).storages idx).lastTx ≤ _ ∧ (((h.act a).storages idx).lastTx < _ →
    ((h.act a).storages idx).value = _) ∧ (((h.act a).storages idx).lastTx = _ → _)
  obtain ⟨hle, hfresh, horig⟩ := hs idx
  rcases storages_act a idx hle with ⟨v, ha, heq⟩ | ⟨hl, hlt, heq⟩ | ⟨-, heq⟩
  · rw [heq]
    exact ⟨Nat.le_refl _, fun hlt => absurd hlt (Nat.lt_irrefl _),
      fun _ => originals_act hs idx (hstore idx v ha)⟩
  · rw [heq]
    exact ⟨Nat.le_refl _, fun hlt => absurd hlt (Nat.lt_irrefl _),
      fun _ => originals_touched hs hl (hstore idx)⟩
  · rw [heq]
    exact ⟨hle, hfresh, fun hwarm => originals_act hs idx (horig hwarm)⟩

theorem value_raw {a : Act} (ha : ¬ a.Logged) {idx : Nat} (hb : (h.storages idx).lastTx ≤ h.txCounter) :
    (h.act a).cell (.Value idx) = h.cell (.Value idx) := by
  change ((h.act a).storages idx).value = (h.storages idx).value
  rcases storages_act a idx hb with ⟨v, rfl, -⟩ | ⟨-, -, heq⟩ | ⟨-, heq⟩
  · exact absurd trivial ha
  · rw [heq]
  · rw [heq]

-- The originals stay as they are when a frame reverts: the stamps that go back with the values
-- decide whether they are taken again.
theorem snapped_tracked_act {a : Act}
    (ht : Tracked (Snapped start r.host.txCounter r.host.originals) r () saved)
    (hstore : ∀ idx v, a = .Store idx v → r.host.originals idx = start idx) :
    ∃ saved', Tracked (Snapped start r.host.txCounter (r.host.act a).originals)
      ⟨r.host.act a, r.frames⟩ () saved' := by
  have hcur := ht.current
  have hq := snapped_act hcur hstore
  have hkept := ht.mono fun hs => hs.mono (originals_act (a := a) hcur)
  by_cases ha : a.Logged
  · exact ⟨saved, tracked_logged hkept ha hq⟩
  · refine ⟨saved.map id, tracked_raw hkept ha hq fun k _ hk idx => ?_⟩
    have hvalue : unwind (since r.host.undoLog k) (r.host.act a).cell (.Value idx) =
        unwind (since r.host.undoLog k) r.host.cell (.Value idx) :=
      unwind_agree fun _ => value_raw ha (hcur idx).1
    rw [hvalue]
    by_cases hc : Covers (since r.host.undoLog k) (.Last (.Slot idx))
    · have hlast : unwind (since r.host.undoLog k) (r.host.act a).cell (.Last (.Slot idx)) =
          unwind (since r.host.undoLog k) r.host.cell (.Last (.Slot idx)) :=
        unwind_agree fun hn => absurd hc hn
      rw [hlast]
      exact hk idx
    · have hk' := hk idx
      rw [unwind_of_not_covers _ hc] at hk' ⊢
      refine ⟨(hq idx).1, fun hlt => hk'.2.1 ?_, (hq idx).2.2⟩
      rcases storages_act a idx (hcur idx).1 with ⟨v, rfl, -⟩ | ⟨-, hlt', -⟩ | ⟨-, heq⟩
      · exact absurd trivial ha
      · exact hlt'
      · change ((r.host.act a).storages idx).lastTx < _ at hlt
        rwa [heq] at hlt

theorem originals_undo (e : Entry) : (h.undo e).originals = h.originals := by
  funext idx
  cases e with
  | Storage i v last =>
    simp only [Host.undo, Host.originals, Host.setValueAt, update_apply]
    split <;> simp_all
  | StorageWarm i last =>
    simp only [Host.undo, Host.originals, Host.setSlotWarmAt, update_apply]
    split <;> simp_all
  | PendingDestruct i present => cases present <;> rfl
  | _ => rfl

theorem originals_rolledBack (cp : Checkpoint) : (h.rolledBack cp).originals = h.originals := by
  have hfold : ∀ (es : List Entry) (g : Host), (es.foldl Host.undo g).originals = g.originals := by
    intro es
    induction es with
    | nil => exact fun _ => rfl
    | cons e es ih => exact fun g => (ih _).trans (originals_undo e)
  rw [← hfold (since h.journal cp.journalCp) h]
  simp only [Host.rolledBack, Host.setLogs]
  split <;> rfl

theorem snapped_runs {acts : List Act} {cps : List Checkpoint} (hruns : h.Runs w acts h')
    (ht : Tracked (Snapped start h.txCounter h.originals) ⟨h, cps⟩ () saved)
    (hstore : ∀ idx v, .Store idx v ∈ acts → h.originals idx = start idx) :
    (∃ saved', Tracked (Snapped start h'.txCounter h'.originals) ⟨h', cps⟩ () saved') ∧
      ∀ idx, h.originals idx = start idx ∨ .Slot idx ∈ acts.flatMap Act.lasts →
        h'.originals idx = start idx := by
  induction acts generalizing h saved with
  | nil =>
    cases hruns
    exact ⟨⟨saved, ht⟩, fun idx hidx => by simpa using hidx⟩
  | cons a acts ih =>
    have hcur := ht.current
    have hfirst : ∀ idx v, a = .Store idx v → h.originals idx = start idx :=
      fun idx v ha => hstore idx v (ha ▸ mem_cons_self)
    obtain ⟨saved', ht'⟩ := snapped_tracked_act (r := ⟨h, cps⟩) ht hfirst
    rw [← act_txCounter (h := h) a] at ht'
    obtain ⟨hnext, hkeep⟩ := ih hruns.2 ht' fun idx v hm =>
      originals_act hcur idx (hstore idx v (mem_cons_of_mem _ hm))
    refine ⟨hnext, fun idx hidx => hkeep idx ?_⟩
    rw [flatMap_cons, mem_append] at hidx
    rcases hidx with ho | hl | hl
    · exact .inl (originals_act hcur idx ho)
    · exact .inl (originals_touched hcur hl (hfirst idx))
    · exact .inr hl

-- A step keeps the originals of the slots touched before it, and an access puts one in place.
theorem snapped_step {op : Op} {answer : Answer}
    (ht : Tracked (Snapped start r.host.txCounter r.host.originals) r () saved)
    (hc : r.step w op = .ok (r', answer))
    (hset : ∀ key v idx, op = .SetStorage key v → w.findSlot key = some idx →
      r.host.originals idx = start idx) :
    (∃ saved', Tracked (Snapped start r'.host.txCounter r'.host.originals) r' () saved') ∧
      ∀ idx, (r.host.originals idx = start idx ∨
        ∃ key, op = .AccessStorage key ∧ w.findSlot key = some idx) →
        r'.host.originals idx = start idx := by
  have hframe : ∀ {idx}, op.framing = true → (r.host.originals idx = start idx ∨
      ∃ key, op = .AccessStorage key ∧ w.findSlot key = some idx) → r.host.originals idx = start idx := by
    rintro idx hop (ho | ⟨key, rfl, -⟩)
    · exact ho
    · exact Bool.noConfusion hop
  obtain ⟨rfl, rfl⟩ | ⟨rfl, rfl⟩ | ⟨i, cp, rfl, hi, -, rfl⟩ | ⟨h, -, hcall, rfl⟩ := step_cases hc
  · exact ⟨⟨_, tracked_checkpoint ht id⟩, fun idx => hframe rfl⟩
  · exact ⟨⟨_, tracked_commit ht⟩, fun idx => hframe rfl⟩
  · obtain ⟨_, -, hback⟩ := tracked_rollback ht hi
    rw [Host.rolledBack_txCounter, originals_rolledBack]
    exact ⟨⟨_, hback⟩, fun idx => hframe rfl⟩
  · obtain ⟨acts, hruns, hall, hls⟩ := call_does hcall
    obtain ⟨hnext, hkeep⟩ := snapped_runs hruns ht fun idx v hm => by
      obtain ⟨key, hop, hfind⟩ := hall _ hm
      exact hset key v idx hop hfind
    refine ⟨hnext, fun idx hidx => hkeep idx (hidx.imp_right ?_)⟩
    rintro ⟨key, rfl, hfind⟩
    rw [hls]
    simp [Op.keys, Witness.last, hfind]

theorem steps_snoc {ops : List Op} {op : Op} {answers : List Answer}
    (hc : r.steps w (ops ++ [op]) = .ok (r', answers)) :
    ∃ r₁ answers₁ answer, r.steps w ops = .ok (r₁, answers₁) ∧ r₁.step w op = .ok (r', answer) := by
  induction ops generalizing r answers with
  | nil =>
    simp only [nil_append, Run.steps, bind_eq_ok] at hc
    obtain ⟨⟨r₁, a⟩, hstep, ⟨r₂, as⟩, hsteps, hret⟩ := hc
    cases hsteps
    cases hret
    exact ⟨r, [], a, rfl, hstep⟩
  | cons o ops ih =>
    simp only [cons_append, Run.steps, bind_eq_ok] at hc ⊢
    obtain ⟨⟨r₁, a⟩, hstep, ⟨r₂, as⟩, hsteps, hret⟩ := hc
    cases hret
    obtain ⟨r₃, as₃, a₃, hpre, hlast⟩ := ih hsteps
    exact ⟨r₃, a :: as₃, a₃, ⟨(r₁, a), hstep, (r₃, as₃), hpre, rfl⟩, hlast⟩

-- Each write of storage comes after an access of the slot.
def AccessedFirst (ops : List Op) : Prop :=
  ∀ before key v after, ops = before ++ .SetStorage key v :: after → .AccessStorage key ∈ before

theorem AccessedFirst.dropLast {ops more : List Op} (hf : AccessedFirst (ops ++ more)) :
    AccessedFirst ops := fun before key v after hops =>
  hf before key v (after ++ more) (by rw [hops]; simp)

theorem snapped_steps {ops : List Op} {answers : List Answer}
    (ht : Tracked (Snapped start r.host.txCounter r.host.originals) r () saved)
    (hf : AccessedFirst ops) (hc : r.steps w ops = .ok (r', answers)) :
    (∃ saved', Tracked (Snapped start r'.host.txCounter r'.host.originals) r' () saved') ∧
      ∀ key idx, .AccessStorage key ∈ ops → w.findSlot key = some idx →
        r'.host.originals idx = start idx := by
  induction ops using List.reverseRecOn generalizing r' answers with
  | nil =>
    cases hc
    exact ⟨⟨saved, ht⟩, by simp⟩
  | append_singleton ops op ih =>
    obtain ⟨r₁, answers₁, answer, hpre, hlast⟩ := steps_snoc hc
    obtain ⟨⟨saved₁, ht₁⟩, hseen⟩ := ih hf.dropLast hpre
    obtain ⟨hnext, hkeep⟩ := snapped_step ht₁ hlast fun key v idx hop hfind =>
      hseen key idx (hf ops key v [] (by rw [hop])) hfind
    refine ⟨hnext, fun key idx hm hfind => hkeep idx ?_⟩
    rcases mem_append.mp hm with hm | hm
    · exact .inl (hseen key idx hm hfind)
    · exact .inr ⟨key, (mem_singleton.mp hm).symm, hfind⟩

theorem setStorage_answer {key : SlotKey} {v : Word} {answer : Answer}
    (hc : r.step w (.SetStorage key v) = .ok (r', answer)) :
    ∃ idx, w.findSlot key = some idx ∧ answer = .Storage
      (computeStorageStatus (r.host.originals idx) (r.host.storages idx).value v) := by
  obtain ⟨x, hx, hret⟩ := map_eq_ok.mp hc
  cases hret
  obtain ⟨⟨h', status⟩, hset, hx⟩ := map_eq_ok.mp hx
  cases hx
  simp only [Host.setStorage, bind_eq_ok] at hset
  obtain ⟨h₁, hcommit, idx, hrow, hret⟩ := hset
  obtain ⟨-, bal, p, rfl⟩ := commit_does (w := w) hcommit
  cases hret
  exact ⟨idx, storageRow_eq_ok hrow, rfl⟩

theorem snapped_fresh (hlt : ∀ l, h.last l < h.txCounter) :
    Snapped (fun idx => (h.storages idx).value) h.txCounter h.originals h.undoLog h.cell () :=
  fun idx => ⟨Nat.le_of_lt (hlt (.Slot idx)), fun _ => rfl,
    fun heq => absurd heq (Nat.ne_of_lt (hlt (.Slot idx)))⟩

theorem begin_storages (s : BlockStep) : (s.begin h).storages = h.storages := by
  cases s <;> rfl

-- Every write of storage in a block is classified by the value its transaction started with.
theorem status_by_start (w : Witness) (balance : Nat → Word) (nonce : Nat → UInt64)
    (codeHash : Nat → Bytes32) (value : Nat → Word) (steps : List BlockStep) (h : Host)
    (s : BlockStep) (before after : List Op) (key : SlotKey) (v : Word) (r r' : Run)
    (answers : List Answer) (answer : Answer)
    (hblock : (Host.start w balance nonce codeHash value).block w steps = .ok h)
    (hfirst : AccessedFirst s.ops) (hops : s.ops = before ++ .SetStorage key v :: after)
    (hrun : Run.steps w ⟨s.begin h, []⟩ before = .ok (r, answers))
    (hset : r.step w (.SetStorage key v) = .ok (r', answer)) :
    ∃ idx, w.findSlot key = some idx ∧ (r.host.storages idx).txOriginal = (h.storages idx).value ∧
      ∃ status, answer = .Storage status ∧
        Classifies (h.storages idx).value (r.host.storages idx).value v status := by
  have hb : Bounded h := bounded_block (bounded_start balance nonce codeHash value) hblock
  have hlt := begin_lt hb s (by simp [hops])
  have hstart := tracked_start (snapped_fresh hlt)
  obtain ⟨-, hseen⟩ := snapped_steps hstart (AccessedFirst.dropLast (hops ▸ hfirst)) hrun
  obtain ⟨idx, hfind, hanswer⟩ := setStorage_answer hset
  have horiginal : r.host.originals idx = (h.storages idx).value := by
    rw [hseen key idx (hfirst before key v after hops) hfind, begin_storages]
  refine ⟨idx, hfind, horiginal, _, hanswer, ?_⟩
  rw [horiginal]
  exact (classifies_iff _ _ _ _).mpr rfl

-- A slot set by one transaction, then deleted in a frame of the next one that reverts.
def storeFive : List Op := [.AccessStorage tinySlot, .SetStorage tinySlot 5]

def revertedDelete : List Op :=
  [.Checkpoint, .AccessStorage tinySlot, .SetStorage tinySlot 0, .Rollback 0, .AccessStorage tinySlot]

theorem status_by_start_revertedDelete : ∃ h r r' answers answer idx status,
    tinyStart.block (tinyWitness .Shanghai) [.Transaction 1 storeFive] = .ok h ∧
    Run.steps (tinyWitness .Shanghai) ⟨h.beginTransaction 2, []⟩ revertedDelete = .ok (r, answers) ∧
    r.step (tinyWitness .Shanghai) (.SetStorage tinySlot 9) = .ok (r', answer) ∧
    (r.host.storages idx).txOriginal = (h.storages idx).value ∧ answer = .Storage status ∧
    Classifies (h.storages idx).value (r.host.storages idx).value 9 status := by
  obtain ⟨h, hblock⟩ : ∃ h, tinyStart.block (tinyWitness .Shanghai) [.Transaction 1 storeFive] =
      .ok h := ⟨_, rfl⟩
  obtain ⟨⟨r, answers⟩, hrun⟩ : ∃ x, Run.steps (tinyWitness .Shanghai) ⟨h.beginTransaction 2, []⟩
      revertedDelete = .ok x := by
    cases hblock
    exact ⟨_, rfl⟩
  obtain ⟨⟨r', answer⟩, hset⟩ : ∃ x, r.step (tinyWitness .Shanghai) (.SetStorage tinySlot 9) = .ok x := by
    cases hblock
    cases hrun
    exact ⟨_, rfl⟩
  have hfirst : AccessedFirst (revertedDelete ++ [.SetStorage tinySlot 9]) := by
    intro before key v after hops
    simp only [revertedDelete, List.cons_append, List.nil_append, List.cons_eq_append_iff,
      List.nil_eq_append_iff, reduceCtorEq, List.cons.injEq, Op.SetStorage.injEq, false_and, and_false,
      false_or, exists_false, or_false] at hops
    obtain ⟨_, rfl, _, rfl, ⟨rfl, ⟨rfl, -⟩, -⟩ | ⟨_, rfl, _, rfl, _, rfl, rfl, ⟨rfl, -⟩, -⟩⟩ := hops
    · simp
    · simp
  obtain ⟨idx, -, horiginal, status, hanswer, hclass⟩ :=
    status_by_start _ _ _ _ _ _ _ (.Transaction 2 (revertedDelete ++ [Op.SetStorage tinySlot 9]))
      revertedDelete [] tinySlot 9 _ _ _ _ hblock hfirst rfl hrun hset
  exact ⟨h, r, r', answers, answer, idx, status, hblock, hrun, hset, horiginal, hanswer, hclass⟩

end Zeg.StateDB
