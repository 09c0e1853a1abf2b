import Zeg.CodeTable.Invariant

namespace Zeg.CodeTable

open Base AccessList List Function

section block

-- `init` are the rows' code hashes in the pre-state, `Plain` the hashes that are
-- written without an insert.
variable (keccak : Bytes → Bytes32) (Known : Bytes → Prop) (init : Nat → Bytes32)
  (Plain : Bytes32 → Prop)

-- A cell is what its origin says.
def Sound (t : Contracts) (r : Nat) (c : Cell) : Prop :=
  match c.origin with
  | .Initial => c.hash = init r
  | .Bare => Plain c.hash
  | .Installed code => c.hash = keccak code ∧ Bound keccak t r code

def Block.HasCell (b : Block) (r : Nat) (c : Cell) : Prop := c = b.rows r ∨ (r, c) ∈ b.journal

-- `untouched`: a row whose period is not the current one has not been written in this
-- transaction, so nothing can be rolled back on it and its code has been settled.
structure RowInv (b : Block) (r : Nat) : Prop where
  sound : ∀ c, b.HasCell r c → Sound keccak init Plain b.table r c
  untouched : (b.code r).period ≠ b.index → (∀ c, (r, c) ∉ b.journal) ∧
    ∀ code, (b.rows r).origin = .Installed code → Settled b.table (b.rows r).hash
  pre : (∃ c, b.HasCell r c ∧ c.origin = .Initial) → (b.code r).period ≠ kNone →
    (b.code r).pre = init r
  changes : ∀ e ∈ (b.code r).changes, Plain e.2 ∨ Settled b.table e.2

structure BlockInv (b : Block) : Prop where
  table : TableInv keccak Known b.table
  rows : ∀ r, RowInv keccak init Plain b r

variable {keccak Known init Plain} {b : Block}

variable {t t' : Contracts}

theorem Sound.carries (hc : Carries t t') {r : Nat} {c : Cell} (hs : Sound keccak init Plain t r c)
    : Sound keccak init Plain t' r c := by
  unfold Sound at hs ⊢
  split at hs
  · exact hs
  · exact hs
  · exact ⟨hs.1, hc.bound hs.2⟩

theorem RowInv.carries {r : Nat} (hr : RowInv keccak init Plain b r) (hc : Carries b.table t')
    : RowInv keccak init Plain { b with table := t' } r where
  sound := fun c h => (hr.sound c h).carries hc
  untouched := fun hp =>
    ⟨(hr.untouched hp).1, fun code ho => hc.settled ((hr.untouched hp).2 code ho)⟩
  pre := hr.pre
  changes := fun e he => (hr.changes e he).imp_right hc.settled

theorem openAt_period {α : Type} [DecidableEq α] (t : Track α) (index : Nat) (current : α) :
    (t.openAt index current).period = index := by
  unfold Track.openAt
  split
  · assumption
  · rfl

theorem RowInv.close_changes {r : Nat} (hr : RowInv keccak init Plain b r) (e : Nat × Bytes32)
    (he : e ∈ ((b.code r).close (b.rows r).hash).changes) :
    e ∈ (b.code r).changes ∨ (e.2 = (b.rows r).hash ∧ (b.rows r).origin ≠ .Initial) := by
  unfold Track.close at he
  split at he
  · rename_i hopen
    rcases mem_append.mp he with he | he
    · exact .inl he
    · rw [mem_singleton.mp he]
      refine .inr ⟨rfl, fun ho => ?_⟩
      have hinit : Sound keccak init Plain b.table r (b.rows r) := hr.sound _ (.inl rfl)
      simp only [Sound, ho] at hinit
      exact hopen.2 (hinit.trans (hr.pre ⟨_, .inl rfl, ho⟩ hopen.1).symm)
  · exact .inl he

-- One write to a row through the setter. The journal may lose entries or gain the
-- row's old cell, and an initial cell is only ever restored, never made.
theorem BlockInv.write (hb : BlockInv keccak Known init Plain b) (row : Nat) (cell : Cell)
    (journal : List (Nat × Cell)) (hcell : Sound keccak init Plain b.table row cell)
    (hinit : cell.origin = .Initial → ∃ c, b.HasCell row c ∧ c.origin = .Initial)
    (hj : ∀ e ∈ journal, e ∈ b.journal ∨ e = (row, b.rows row)) :
    BlockInv keccak Known init Plain { b.write row cell with journal := journal } := by
  refine ⟨hb.table, fun r => ?_⟩
  have hr := hb.rows r
  by_cases hrow : r = row
  · subst hrow
    have hcode : (b.write r cell).code r = (b.code r).openAt b.index (b.rows r).hash :=
      update_self ..
    have hrows : (b.write r cell).rows r = cell := update_self ..
    have hcells : ∀ c, { b.write r cell with journal := journal }.HasCell r c →
        c = cell ∨ b.HasCell r c := by
      rintro c (hc | hc)
      · exact .inl (hc.trans hrows)
      · rcases hj _ hc with hc | hc
        · exact .inr (.inr hc)
        · exact .inr (.inl (congrArg Prod.snd hc))
    refine ⟨fun c hc => ?_, fun hp => ?_, fun hex hp => ?_, fun e he => ?_⟩
    · rcases hcells c hc with rfl | hc
      · exact hcell
      · exact hr.sound c hc
    · exact absurd (by dsimp only; rw [hcode, openAt_period]; rfl) hp
    · rw [hcode] at hp ⊢
      obtain ⟨c₀, hc₀, ho⟩ : ∃ c, b.HasCell r c ∧ c.origin = .Initial := by
        obtain ⟨c, hc, ho⟩ := hex
        rcases hcells c hc with rfl | hc
        · exact hinit ho
        · exact ⟨c, hc, ho⟩
      unfold Track.openAt at hp ⊢
      by_cases hper : (b.code r).period = b.index
      · rw [if_pos hper] at hp ⊢
        exact hr.pre ⟨c₀, hc₀, ho⟩ hp
      · rw [if_neg hper]
        -- an untouched row has only its current cell
        have hcur : c₀ = b.rows r := hc₀.resolve_right ((hr.untouched hper).1 c₀)
        have hs := hr.sound c₀ hc₀
        simp only [Sound, ho] at hs
        exact hcur ▸ hs
    · rw [hcode] at he
      unfold Track.openAt at he
      by_cases hper : (b.code r).period = b.index
      · rw [if_pos hper] at he
        exact hr.changes e he
      · rw [if_neg hper] at he
        rcases hr.close_changes e he with he | ⟨he, ho⟩
        · exact hr.changes e he
        · have hs := hr.sound _ (.inl rfl)
          rw [he]
          cases horigin : (b.rows r).origin with
          | Initial => exact absurd horigin ho
          | Bare =>
            simp only [Sound, horigin] at hs
            exact .inl hs
          | Installed code => exact .inr ((hr.untouched hper).2 code horigin)
  · have hcode : (b.write row cell).code r = b.code r := update_of_ne hrow ..
    have hrows : (b.write row cell).rows r = b.rows r := update_of_ne hrow ..
    have hmem : ∀ c, (r, c) ∈ journal → (r, c) ∈ b.journal := by
      intro c hc
      rcases hj _ hc with hc | hc
      · exact hc
      · exact absurd (congrArg Prod.fst hc) hrow
    have hcells : ∀ c, { b.write row cell with journal := journal }.HasCell r c → b.HasCell r c := by
      rintro c (hc | hc)
      · exact .inl (hc.trans hrows)
      · exact .inr (hmem c hc)
    refine ⟨fun c hc => hr.sound c (hcells c hc), fun hp => ?_, fun hex hp => ?_, fun e he => ?_⟩
    · rw [hcode] at hp
      obtain ⟨hnone, hset⟩ := hr.untouched hp
      exact ⟨fun c hc => hnone c (hmem c hc), by rw [hrows]; exact hset⟩
    · rw [hcode] at hp ⊢
      obtain ⟨c, hc, ho⟩ := hex
      exact hr.pre ⟨c, hcells c hc, ho⟩ hp
    · rw [hcode] at he
      exact hr.changes e he

theorem BlockInv.carries (hb : BlockInv keccak Known init Plain b) (ht : TableInv keccak Known t')
    (hc : Carries b.table t') :
    BlockInv keccak Known init Plain { b with table := t' } :=
  ⟨ht, fun r => (hb.rows r).carries hc⟩

theorem BlockInv.undo (length : Nat) (js : List (Nat × Cell)) (b : Block)
    (hb : BlockInv keccak Known init Plain { b with journal := js }) :
    BlockInv keccak Known init Plain (b.undo length js) := by
  induction js generalizing b with
  | nil => exact hb
  | cons e older ih =>
    obtain ⟨row, cell⟩ := e
    unfold Block.undo
    split
    · exact hb
    · apply ih
      have hmem : { b with journal := (row, cell) :: older }.HasCell row cell :=
        .inr mem_cons_self
      exact hb.write row cell older ((hb.rows row).sound cell hmem) (fun ho => ⟨cell, hmem, ho⟩)
        (fun e he => .inl (mem_cons_of_mem _ he))

theorem mem_log {row : Nat} {logged : Bool} {e : Nat × Cell} (he : e ∈ (b.log row logged).journal) :
    e ∈ b.journal ∨ e = (row, b.rows row) := by
  unfold Block.log at he
  split at he
  · exact (mem_cons.mp he).symm
  · exact .inl he

def Op.inserts : Op → Option (Bytes × Nat)
  | .Insert code owner => some (code, owner)
  | .Install code owner _ => some (code, owner)
  | _ => none

def Op.plain : Op → Option Bytes32
  | .SetCodeHash _ hash _ => some hash
  | _ => none

theorem BlockInv.step (hinj : ∀ a b, Known a → Known b → keccak a = keccak b → a = b)
    (hb : BlockInv keccak Known init Plain b) (op : Op)
    (hknown : ∀ code owner, op.inserts = some (code, owner) → Known code)
    (hplain : ∀ hash, op.plain = some hash → Plain hash) :
    BlockInv keccak Known init Plain (b.step keccak op) := by
  cases op with
  | Insert code owner =>
    exact hb.carries (hb.table.insert code owner (hknown _ _ rfl)) (hb.table.carries_insert ..)
  | Install code owner logged =>
    have hk := hknown code owner rfl
    have hi : BlockInv keccak Known init Plain (b.insert keccak code owner) :=
      hb.carries (hb.table.insert code owner hk) (hb.table.carries_insert ..)
    exact hi.write owner ⟨keccak code, .Installed code⟩ _
      ⟨rfl, hb.table.insert_bound hinj code owner hk⟩ (fun ho => by cases ho) (fun _ => mem_log)
  | SetCodeHash row hash logged =>
    exact hb.write row ⟨hash, .Bare⟩ _ (hplain hash rfl) (fun ho => by cases ho) (fun _ => mem_log)
  | OpenAccount row =>
    have h := hb.write row (b.rows row) b.journal ((hb.rows row).sound _ (.inl rfl))
      (fun ho => ⟨_, .inl rfl, ho⟩) (fun _ he => .inl he)
    have heq : { b.write row (b.rows row) with journal := b.journal } = b.beforeWrite row := by
      simp [Block.write, Block.beforeWrite]
    rwa [heq] at h
  | Rollback length => exact BlockInv.undo length b.journal b hb
  | SetAnalysis entry analysis =>
    exact hb.carries (hb.table.setAnalysis entry analysis) (carries_setAnalysis entry analysis)

theorem BlockInv.endTx (hb : BlockInv keccak Known init Plain b) (next : Nat) :
    BlockInv keccak Known init Plain (b.endTx next) := by
  refine ⟨hb.table.settle _, fun r => ?_⟩
  have hr := hb.rows r
  have hcells : ∀ c, (b.endTx next).HasCell r c → c = b.rows r := by
    rintro c (hc | hc)
    · exact hc
    · cases hc
  have hinst : ∀ code, (b.rows r).origin = .Installed code → (b.rows r).hash = keccak code ∧
      Bound keccak (b.endTx next).table r code ∧ Settled (b.endTx next).table (keccak code) := by
    intro code ho
    have hs := hr.sound _ (.inl rfl)
    simp only [Sound, ho] at hs
    exact ⟨hs.1, hb.table.bound_settle (fun row => (b.rows row).hash) hs.2 hs.1⟩
  refine ⟨fun c hc => ?_, fun _ => ⟨fun _ => not_mem_nil, fun code ho => ?_⟩, fun hex hp => ?_,
    fun e he => ?_⟩
  · have hs := hr.sound _ (.inl rfl)
    rw [hcells c hc]
    cases ho : (b.rows r).origin with
    | Initial => simpa only [Sound, ho] using hs
    | Bare => simpa only [Sound, ho] using hs
    | Installed code =>
      simp only [Sound, ho]
      exact ⟨(hinst code ho).1, (hinst code ho).2.1⟩
  · have h := hinst code ho
    exact h.1 ▸ h.2.2
  · obtain ⟨c, hc, ho⟩ := hex
    exact hr.pre ⟨c, .inl (hcells c hc), ho⟩ hp
  · exact (hr.changes e he).imp_right (hb.table.settled_settle _)

theorem BlockInv.runOps (hinj : ∀ a b, Known a → Known b → keccak a = keccak b → a = b)
    (ops : List Op) (b : Block) (hb : BlockInv keccak Known init Plain b)
    (hknown : ∀ op ∈ ops, ∀ code owner, op.inserts = some (code, owner) → Known code)
    (hplain : ∀ op ∈ ops, ∀ hash, op.plain = some hash → Plain hash) :
    BlockInv keccak Known init Plain (b.runOps keccak ops) := by
  induction ops generalizing b with
  | nil => exact hb
  | cons op ops ih =>
    simp only [forall_mem_cons] at hknown hplain
    exact ih _ (hb.step hinj op hknown.1 hplain.1) hknown.2 hplain.2

theorem BlockInv.run (hinj : ∀ a b, Known a → Known b → keccak a = keccak b → a = b)
    (txs : List Tx) (b : Block) (hb : BlockInv keccak Known init Plain b)
    (hknown : ∀ tx ∈ txs, ∀ op ∈ tx.ops, ∀ code owner, op.inserts = some (code, owner) → Known code)
    (hplain : ∀ tx ∈ txs, ∀ op ∈ tx.ops, ∀ hash, op.plain = some hash → Plain hash) :
    BlockInv keccak Known init Plain (b.run keccak txs) := by
  induction txs generalizing b with
  | nil => exact hb
  | cons tx txs ih =>
    simp only [forall_mem_cons] at hknown hplain
    exact ih _ ((BlockInv.runOps hinj tx.ops b hb hknown.1 hplain.1).endTx tx.next) hknown.2 hplain.2

theorem load_index (t : Contracts) (hash : Bytes32) (code : Bytes) (h : Bytes32) :
    (t.load hash code).index h =
      if t.index h = none ∧ h = hash then some t.contracts.length else t.index h := by
  by_cases hhas : t.has hash
  · have hne : ¬ (t.index h = none ∧ h = hash) := by
      rintro ⟨hnone, rfl⟩
      simp [Contracts.has, hnone] at hhas
    simp only [Contracts.load, if_pos hhas, if_neg hne]
  · simp only [Contracts.load, if_neg hhas]
    by_cases hh : h = hash
    · subst hh
      have hnone : t.index h = none := by simpa [Contracts.has] using hhas
      rw [update_self, if_pos ⟨hnone, rfl⟩]
    · rw [update_of_ne hh, if_neg fun h => hh h.2]

theorem TableInv.load (ht : TableInv keccak Known t) (code : Bytes) (hk : Known code) :
    TableInv keccak Known (t.load (keccak code) code) := by
  refine ⟨fun h i hi => ?_, fun i c hc hs => ?_, fun i c hc => ?_⟩
  · rw [load_index] at hi
    split at hi
    · rename_i hnew
      cases hi
      exact ⟨_, List.getElem?_concat_length, hnew.2.symm, hnew.2.symm, hk⟩
    · obtain ⟨c, hc, hrest⟩ := ht.indexed h i hi
      exact ⟨c, getElem?_append_of_some _ hc, hrest⟩
  · rcases getElem?_append_one hc with hc | ⟨_, rfl⟩
    · obtain ⟨hidx, hrec⟩ := ht.staged i c hc hs
      exact ⟨by rw [load_index, hidx]; simp, hrec⟩
    · cases hs
  · rcases getElem?_append_one hc with hc | ⟨_, rfl⟩
    · exact ht.arena i c hc
    · simp

theorem tableInv_ofInput (input : List Bytes) (hknown : ∀ code ∈ input, Known code) :
    TableInv keccak Known (Contracts.ofInput keccak input) := by
  have hempty : TableInv keccak Known ⟨[], fun _ => none, []⟩ := by
    constructor <;> simp
  unfold Contracts.ofInput
  generalize (⟨[], fun _ => none, []⟩ : Contracts) = t at hempty ⊢
  induction input generalizing t with
  | nil => exact hempty
  | cons code input ih =>
    simp only [forall_mem_cons] at hknown
    exact ih hknown.2 _ (hempty.load code hknown.1)

theorem blockInv_start (ht : TableInv keccak Known t) :
    BlockInv keccak Known init Plain (Block.start t init) := by
  refine ⟨ht, fun r => ⟨fun c hc => ?_, fun _ => ⟨fun _ => not_mem_nil, fun code ho => ?_⟩,
    fun _ hp => absurd rfl hp, fun e he => by cases he⟩⟩
  · rcases hc with rfl | hc
    · exact rfl
    · cases hc
  · cases ho

end block

theorem step_table (keccak : Bytes → Bytes32) (b : Block) (op : Op) :
    (b.step keccak op).table = b.table ∨
      (∃ code owner, op.inserts = some (code, owner) ∧
        (b.step keccak op).table = b.table.insert (keccak code) code owner) ∨
      ∃ i a, op = .SetAnalysis i a ∧ (b.step keccak op).table = b.table.setAnalysis i a := by
  cases op with
  | Insert code owner => exact .inr (.inl ⟨code, owner, rfl, rfl⟩)
  | Install code owner logged => exact .inr (.inl ⟨code, owner, rfl, rfl⟩)
  | SetCodeHash | OpenAccount => exact .inl rfl
  | SetAnalysis i a => exact .inr (.inr ⟨i, a, rfl, rfl⟩)
  | Rollback length =>
    have hundo : ∀ (js : List (Nat × Cell)) (b : Block), (b.undo length js).table = b.table := by
      intro js
      induction js with
      | nil => exact fun _ => rfl
      | cons e older ih =>
        intro b
        unfold Block.undo
        split
        · rfl
        · exact ih _
    exact .inl (hundo _ _)

section entry

variable (keccak : Bytes → Bytes32) {i : Nat} {c : Contract}

theorem insert_entry {t : Contracts} (h : Bytes32) (code : Bytes) (r : Nat)
    (hc : t.contracts[i]? = some c) : (t.insert h code r).contracts[i]? = some c := by
  unfold Contracts.insert
  split
  · split
    · split <;> exact hc
    · exact hc
  · exact getElem?_append_of_some _ hc

theorem step_entry (b : Block) (op : Op) (hc : b.table.contracts[i]? = some c) :
    ∃ c', (b.step keccak op).table.contracts[i]? = some c' ∧ c'.hash = c.hash ∧
      ((∀ a, op ≠ .SetAnalysis i a) → c'.analysis = c.analysis) := by
  rcases step_table keccak b op with heq | ⟨code, owner, _, heq⟩ | ⟨j, a, rfl, heq⟩
  · exact ⟨c, heq ▸ hc, rfl, fun _ => rfl⟩
  · exact ⟨c, heq ▸ insert_entry _ _ _ hc, rfl, fun _ => rfl⟩
  · rw [heq, setAnalysis_getElem?, hc]
    refine ⟨_, rfl, by split <;> rfl, fun hne => ?_⟩
    have hji : j ≠ i := by
      rintro rfl
      exact hne a rfl
    dsimp only
    rw [if_neg hji]

theorem runOps_entry (ops : List Op) (b : Block) (hc : b.table.contracts[i]? = some c) :
    ∃ c', (b.runOps keccak ops).table.contracts[i]? = some c' ∧ c'.hash = c.hash ∧
      ((∀ a, .SetAnalysis i a ∉ ops) → c'.analysis = c.analysis) := by
  induction ops generalizing b c with
  | nil => exact ⟨c, hc, rfl, fun _ => rfl⟩
  | cons op ops ih =>
    obtain ⟨c₁, hc₁, hhash₁, han₁⟩ := step_entry keccak b op hc
    obtain ⟨c₂, hc₂, hhash₂, han₂⟩ := ih (b.step keccak op) hc₁
    refine ⟨c₂, hc₂, hhash₂.trans hhash₁, fun hno => ?_⟩
    rw [han₂ fun a ha => hno a (mem_cons_of_mem _ ha),
      han₁ fun a ha => hno a (ha ▸ mem_cons_self)]

theorem endTx_entry (b : Block) (next : Nat) (hc : b.table.contracts[i]? = some c) :
    ∃ c', (b.endTx next).table.contracts[i]? = some c' ∧ c'.hash = c.hash ∧
      c'.analysis = c.analysis := by
  simp only [Block.endTx]
  rw [settleStaged_getElem?, hc]
  refine ⟨_, rfl, ?_⟩
  dsimp only
  split
  · exact ⟨rfl, rfl⟩
  · split <;> exact ⟨rfl, rfl⟩

-- Entries never move or leave: whatever runs, position `i` keeps its contract, and its
-- analysis is only changed through the pointer itself.
theorem run_entry (txs : List Tx) (b : Block) (hc : b.table.contracts[i]? = some c) :
    ∃ c', (b.run keccak txs).table.contracts[i]? = some c' ∧ c'.hash = c.hash ∧
      ((∀ tx ∈ txs, ∀ a, .SetAnalysis i a ∉ tx.ops) → c'.analysis = c.analysis) := by
  induction txs generalizing b c with
  | nil => exact ⟨c, hc, rfl, fun _ => rfl⟩
  | cons tx txs ih =>
    obtain ⟨c₁, hc₁, hhash₁, han₁⟩ := runOps_entry keccak tx.ops b hc
    obtain ⟨c₂, hc₂, hhash₂, han₂⟩ := endTx_entry (b.runOps keccak tx.ops) tx.next hc₁
    obtain ⟨c₃, hc₃, hhash₃, han₃⟩ := ih (b.runTx keccak tx) hc₂
    refine ⟨c₃, hc₃, hhash₃.trans (hhash₂.trans hhash₁), fun hno => ?_⟩
    simp only [forall_mem_cons] at hno
    rw [han₃ hno.2, han₂, han₁ hno.1]

end entry

section forget

variable {keccak : Bytes → Bytes32} {Known : Bytes → Prop} {init : Nat → Bytes32}
  {Plain : Bytes32 → Prop}

-- During a transaction made of `ops`: every staging record comes from one of its inserts,
-- and a hash that was not in the table before is staged.
structure Fresh (keccak : Bytes → Bytes32) (before : Contracts) (ops : List Op) (t : Contracts) :
    Prop where
  record : ∀ s ∈ t.staged, ∃ c code, t.contracts[s.contract]? = some c ∧ c.hash = keccak code ∧
    ∃ op ∈ ops, op.inserts = some (code, s.owner)
  new : ∀ h i, t.index h = some i → before.index h = none →
    ∃ c, t.contracts[i]? = some c ∧ c.staged

variable {before : Contracts} {ops : List Op}

theorem Fresh.carries {t t' : Contracts} (hf : Fresh keccak before ops t) (hc : Carries t t')
    (hindex : t'.index = t.index) (hstaged : t'.staged = t.staged) :
    Fresh keccak before ops t' := by
  refine ⟨fun s hs => ?_, fun h i hi hn => ?_⟩
  · obtain ⟨c, code, hget, hhash, hop⟩ := hf.record s (hstaged ▸ hs)
    obtain ⟨c', hget', hhash', _⟩ := hc.entry _ _ hget
    exact ⟨c', code, hget', hhash'.trans hhash, hop⟩
  · obtain ⟨c, hget, hst⟩ := hf.new h i (hindex ▸ hi) hn
    obtain ⟨c', hget', _, _, hst'⟩ := hc.entry _ _ hget
    exact ⟨c', hget', hst' ▸ hst⟩

theorem Fresh.insert {t : Contracts} (ht : TableInv keccak Known t) (hf : Fresh keccak before ops t) {code : Bytes}
    {owner : Nat} {op : Op} (hop : op ∈ ops) (hins : op.inserts = some (code, owner)) :
    Fresh keccak before ops (t.insert (keccak code) code owner) := by
  have hcar := ht.carries_insert (keccak code) code owner
  have hold : ∀ s ∈ t.staged, ∃ c code', (t.insert (keccak code) code owner).contracts[s.contract]? =
      some c ∧ c.hash = keccak code' ∧ ∃ op ∈ ops, op.inserts = some (code', s.owner) := by
    intro s hs
    obtain ⟨c, code', hget, hhash, hop'⟩ := hf.record s hs
    obtain ⟨c', hget', hhash', _⟩ := hcar.entry _ _ hget
    exact ⟨c', code', hget', hhash'.trans hhash, hop'⟩
  rcases ht.insert_cases (keccak code) code owner with ⟨i, c, hi, hc, heq⟩ | ⟨hnone, heq⟩
  · obtain ⟨c', hc', hhash, _⟩ := ht.indexed _ _ hi
    rw [hc] at hc'
    cases hc'
    refine ⟨fun s hs => ?_, fun h j hj hn => ?_⟩
    · by_cases hmem : s ∈ t.staged
      · exact hold s hmem
      · have hs' : s = ⟨i, owner⟩ := by
          rw [heq] at hs
          dsimp only at hs
          split at hs
          · simpa [hmem] using hs
          · exact absurd hs hmem
        subst hs'
        exact ⟨c, code, by rw [heq]; exact hc, hhash, op, hop, hins⟩
    · rw [heq] at hj ⊢
      exact hf.new h j hj hn
  · refine ⟨fun s hs => ?_, fun h j hj hn => ?_⟩
    · rw [heq] at hs
      rcases mem_append.mp hs with hs | hs
      · exact hold s hs
      · rw [mem_singleton.mp hs, heq]
        exact ⟨_, code, List.getElem?_concat_length, rfl, op, hop, hins⟩
    · rw [heq] at hj ⊢
      dsimp only at hj ⊢
      by_cases hh : h = keccak code
      · subst hh
        rw [update_self] at hj
        cases hj
        exact ⟨_, List.getElem?_concat_length, rfl⟩
      · rw [update_of_ne hh] at hj
        obtain ⟨c, hget, hst⟩ := hf.new h j hj hn
        exact ⟨c, getElem?_append_of_some _ hget, hst⟩

theorem Fresh.runOps (hinj : ∀ a b, Known a → Known b → keccak a = keccak b → a = b) {all : List Op} (ops : List Op)
    (b : Block) (hb : BlockInv keccak Known init Plain b) (hf : Fresh keccak before all b.table)
    (hsub : ∀ op ∈ ops, op ∈ all) (hknown : ∀ op ∈ ops, ∀ code owner, op.inserts = some (code, owner) → Known code)
    (hplain : ∀ op ∈ ops, ∀ hash, op.plain = some hash → Plain hash) :
    Fresh keccak before all (b.runOps keccak ops).table := by
  induction ops generalizing b with
  | nil => exact hf
  | cons op ops ih =>
    simp only [forall_mem_cons] at hsub hknown hplain
    refine ih _ (hb.step hinj op hknown.1 hplain.1) ?_ hsub.2 hknown.2 hplain.2
    rcases step_table keccak b op with heq | ⟨code, owner, hins, heq⟩ | ⟨j, a, rfl, heq⟩
    · rw [heq]
      exact hf
    · rw [heq]
      exact hf.insert hb.table hsub.1 hins
    · exact hf.carries (carries_setAnalysis j a) rfl rfl

-- Code that was new in a transaction leaves the table with it unless one of the owners
-- it was inserted for has its hash.
theorem Fresh.forgotten {b : Block} (ht : TableInv keccak Known b.table) (hf : Fresh keccak before ops b.table)
    (next : Nat) {h : Bytes32} (hnew : before.index h = none)
    (hlost : ∀ op ∈ ops, ∀ code owner, op.inserts = some (code, owner) → keccak code = h → (b.rows owner).hash ≠ h) :
    (b.endTx next).table.index h = none := by
  cases hi : b.table.index h with
  | none => exact settle_index_none _ hi
  | some i =>
    obtain ⟨c, hc, hst⟩ := hf.new h i hi hnew
    obtain ⟨c', hc', hhash, _⟩ := ht.indexed h i hi
    rw [hc] at hc'
    cases hc'
    simp only [Block.endTx]
    rw [ht.settle_index _ hi hc, if_neg]
    rintro (hfalse | ⟨_, s, hs, hsi, hsh⟩)
    · rw [hst] at hfalse
      cases hfalse
    · obtain ⟨d, code, hd, hdh, op, hop, hins⟩ := hf.record s hs
      rw [hsi, hc] at hd
      cases hd
      exact hlost op hop code s.owner hins (hdh.symm.trans hhash) (hsh.trans hhash)

end forget

end Zeg.CodeTable
