import Zeg.StateDB.Stamps
import Mathlib.Data.Finset.Basic
import Mathlib.Data.Finset.Lattice.Lemmas

-- Warm and cold answers against the set of keys a transaction has accessed.
namespace Zeg.StateDB

open Base AccessList List

-- The keys accessed so far, and those accessed before each open checkpoint.
structure Accessed where
  current : Finset Key
  saved : List (Finset Key)

namespace Accessed

def start : Accessed := ⟨∅, []⟩

-- Keys warmed by the transaction itself belong to the set it starts with.
def prewarm (s : Accessed) (keys : Finset Key) : Accessed :=
  ⟨s.current ∪ keys, s.saved.map (· ∪ keys \ s.current)⟩

def step (w : Witness) (h : Host) (s : Accessed) (op : Op) : Accessed :=
  match op with
  | .Checkpoint => ⟨s.current, s.current :: s.saved⟩
  | .Commit => ⟨s.current, s.saved.tail⟩
  | .Rollback n => ⟨(s.saved[n]?).getD s.current, s.saved.drop (n + 1)⟩
  | .WarmAddr _ | .WarmSlot _ | .EntryCode _ | .SetField _ _ | .Authorize _ _ _ _ _ =>
    s.prewarm (op.keys w h).toFinset
  | .GetBalance _ | .GetNonce _ | .GetCodeHash _ | .CopyCode _ | .GetStorage _ => s
  | _ => ⟨s.current ∪ (op.keys w h).toFinset, s.saved⟩

-- The answer the set gives to an access.
def answer (w : Witness) (s : Accessed) : Op → Option AccessStatus
  | .AccessAccount a =>
    some (if w.isPrecompile a ∨ .Account a ∈ s.current then .Warm else .Cold)
  | .AccessStorage key => some (if .Slot key ∈ s.current then .Warm else .Cold)
  | _ => none

end Accessed

def Op.loads : Op → Bool
  | .GetBalance _ | .GetNonce _ | .GetCodeHash _ | .CopyCode _ | .GetStorage _ => true
  | _ => false

def Witness.precompiled (w : Witness) : Key → Bool
  | .Account a => w.isPrecompile a
  | .Slot _ => false

-- The VM loads only what it has accessed.
def Disciplined (w : Witness) : Accessed → Run → List Op → Prop
  | _, _, [] => True
  | s, r, op :: ops =>
    (op.loads → ∀ key ∈ op.keys w r.host, key ∈ s.current ∨ w.precompiled key) ∧
    ∀ r' a, r.step w op = .ok (r', a) → Disciplined w (s.step w r.host op) r' ops

def Follows (w : Witness) : Accessed → Run → List Op → Prop
  | _, _, [] => True
  | s, r, op :: ops =>
    ∀ r' a, r.step w op = .ok (r', a) →
      (∀ status ∈ s.answer w op, a = .Access status) ∧ Follows w (s.step w r.host op) r' ops

-- Of a journal, the stamps and the keys taken to be accessed; `exempt` keys do not matter.
structure Warmth (t : Nat) (exempt : Last → Prop) (log : List (List ((c : Cell) × c.Val)))
    (o : Store) (accessed : Last → Prop) : Prop where
  bound : ∀ l, o (.Last l) ≤ t
  warm : ∀ l, ¬ exempt l → (o (.Last l) = t ↔ accessed l)
  covered : ∀ l, Covers log (.Last l) → o (.Last l) = t

variable {w : Witness} {h h' : Host} {r : Run} {t : Nat} {exempt A B : Last → Prop}

theorem Warmth.congr {log : List (List ((c : Cell) × c.Val))} {o : Store}
    (hw : Warmth t exempt log o A) (hab : ∀ l, ¬ exempt l → (A l ↔ B l)) :
    Warmth t exempt log o B :=
  { hw with warm := fun l hl => (hw.warm l hl).trans (hab l hl) }

theorem Warmth.marker {log : List (List ((c : Cell) × c.Val))} {o : Store}
    (hw : Warmth t exempt log o A) : Warmth t exempt ([] :: log) o A where
  bound := hw.bound
  warm := hw.warm
  covered l hl := hw.covered l (by simpa [Covers] using hl)

theorem warmth_act {a : Act} (hw : Warmth t exempt h.undoLog h.cell A) (ht : h.txCounter = t) :
    Warmth t exempt (h.act a).undoLog (h.act a).cell (fun l => A l ∨ l ∈ a.lasts) := by
  subst ht
  have hlast : ∀ l, (h.act a).cell (.Last l) = if l ∈ a.lasts then h.txCounter else h.last l :=
    last_act hw.bound a
  refine ⟨fun l => ?_, fun l hl => ?_, fun l hl => ?_⟩
  · rw [hlast]
    split
    · exact Nat.le_refl _
    · exact hw.bound l
  · rw [hlast]
    split
    · simp_all
    · simp_all [← hw.warm l hl, Host.cell]
  · rw [hlast]
    rw [Host.undoLog, act_journal, map_append, covers_append] at hl
    rcases hl with hl | hl
    · exact if_pos (lasts_of_covers hl)
    · split
      · rfl
      · exact hw.covered l hl

theorem warmth_unwind_raw {a : Act} {k : Nat} (hw : Warmth t exempt h.undoLog h.cell A)
    (ht : h.txCounter = t) (hB : Warmth t exempt (h.undoLog.drop (h.undoLog.length - k))
      (unwind (since h.undoLog k) h.cell) B) :
    Warmth t exempt (h.undoLog.drop (h.undoLog.length - k))
      (unwind (since h.undoLog k) (h.act a).cell) (fun l => B l ∨ l ∈ a.lasts ∧ ¬ A l) := by
  subst ht
  have hlast : ∀ l, (h.act a).cell (.Last l) = if l ∈ a.lasts then h.txCounter else h.last l :=
    last_act hw.bound a
  -- a covered stamp is this transaction's already, so the key is not new
  have hcov : ∀ l, Covers (since h.undoLog k) (.Last l) →
      unwind (since h.undoLog k) (h.act a).cell (.Last l) =
        unwind (since h.undoLog k) h.cell (.Last l) ∧ h.last l = h.txCounter := by
    intro l hl
    refine ⟨unwind_agree fun hn => absurd hl hn, hw.covered l (hl.mono fun e he => ?_)⟩
    exact mem_of_mem_take he
  have hnot : ∀ l, ¬ Covers (since h.undoLog k) (.Last l) →
      unwind (since h.undoLog k) (h.act a).cell (.Last l) =
        (if l ∈ a.lasts then h.txCounter else h.last l) ∧
      unwind (since h.undoLog k) h.cell (.Last l) = h.last l := by
    intro l hl
    rw [unwind_of_not_covers _ hl, unwind_of_not_covers _ hl, hlast]
    exact ⟨rfl, rfl⟩
  refine ⟨fun l => ?_, fun l hl => ?_, fun l hl => ?_⟩
  · by_cases hc : Covers (since h.undoLog k) (.Last l)
    · rw [(hcov l hc).1]
      exact hB.bound l
    · rw [(hnot l hc).1]
      split
      · exact Nat.le_refl _
      · exact hw.bound l
  · by_cases hc : Covers (since h.undoLog k) (.Last l)
    · have hA : A l := (hw.warm l hl).mp (hcov l hc).2
      rw [(hcov l hc).1, hB.warm l hl]
      simp [hA]
    · have hBl := hB.warm l hl
      have hAl : h.last l = h.txCounter ↔ A l := hw.warm l hl
      rw [(hnot l hc).2] at hBl
      rw [(hnot l hc).1]
      by_cases hm : l ∈ a.lasts
      · by_cases hA : A l <;> simp_all
      · simp_all
  · have hBl := hB.covered l hl
    by_cases hc : Covers (since h.undoLog k) (.Last l)
    · rw [(hcov l hc).1, hBl]
    · rw [(hnot l hc).2] at hBl
      rw [(hnot l hc).1]
      split
      · rfl
      · exact hBl

def Witness.lasts (w : Witness) (keys : Finset Key) (l : Last) : Prop := ∃ key ∈ keys, w.last key = l

def Witness.spares (w : Witness) (l : Last) : Prop := ∃ key, w.precompiled key ∧ w.last key = l

def WarmSet (w : Witness) (t : Nat) (log : List (List ((c : Cell) × c.Val))) (o : Store)
    (keys : Finset Key) : Prop := Warmth t w.spares log o (w.lasts keys)

theorem lasts_last {keys : Finset Key} {key : Key} : w.lasts keys (w.last key) ↔ key ∈ keys :=
  ⟨fun ⟨_, hk, he⟩ => last_inj he ▸ hk, fun hk => ⟨key, hk, rfl⟩⟩

theorem spares_last {key : Key} : w.spares (w.last key) ↔ w.precompiled key :=
  ⟨fun ⟨_, hk, he⟩ => last_inj he ▸ hk, fun hk => ⟨key, hk, rfl⟩⟩

section acts

variable {cps : List Checkpoint} {acts : List Act} {s K : Finset Key} {ss : List (Finset Key)}

-- The keys of `K` that the actions touch.
def touchedKeys (w : Witness) (K : Finset Key) (ls : List Last) : Finset Key :=
  K.filter fun key => w.last key ∈ ls

theorem lasts_touched {a : Act} (hK : ∀ l ∈ a.lasts, w.lasts K l) (l : Last) :
    w.lasts (s ∪ touchedKeys w K a.lasts) l ↔ w.lasts s l ∨ l ∈ a.lasts := by
  constructor
  · rintro ⟨key, hkey, rfl⟩
    rcases Finset.mem_union.mp hkey with hkey | hkey
    · exact .inl ⟨key, hkey, rfl⟩
    · exact .inr (Finset.mem_filter.mp hkey).2
  · rintro (⟨key, hkey, rfl⟩ | hl)
    · exact ⟨key, Finset.mem_union_left _ hkey, rfl⟩
    · obtain ⟨key, hkey, rfl⟩ := hK l hl
      exact ⟨key, Finset.mem_union_right _ (Finset.mem_filter.mpr ⟨hkey, hl⟩), rfl⟩

theorem lasts_new {a : Act} {s' : Finset Key} (hK : ∀ l ∈ a.lasts, w.lasts K l) (l : Last) :
    w.lasts (s' ∪ touchedKeys w K a.lasts \ s) l ↔
      w.lasts s' l ∨ l ∈ a.lasts ∧ ¬ w.lasts s l := by
  constructor
  · rintro ⟨key, hkey, rfl⟩
    rcases Finset.mem_union.mp hkey with hkey | hkey
    · exact .inl ⟨key, hkey, rfl⟩
    · obtain ⟨hin, hnot⟩ := Finset.mem_sdiff.mp hkey
      exact .inr ⟨(Finset.mem_filter.mp hin).2, fun hs => hnot (lasts_last.mp hs)⟩
  · rintro (⟨key, hkey, rfl⟩ | ⟨hl, hnot⟩)
    · exact ⟨key, Finset.mem_union_left _ hkey, rfl⟩
    · obtain ⟨key, hkey, rfl⟩ := hK l hl
      refine ⟨key, Finset.mem_union_right _ (Finset.mem_sdiff.mpr ⟨?_, ?_⟩), rfl⟩
      · exact Finset.mem_filter.mpr ⟨hkey, hl⟩
      · exact fun hs => hnot ⟨key, hs, rfl⟩

@[simp]
theorem touchedKeys_nil : touchedKeys w K [] = ∅ := by
  simp [touchedKeys]

theorem new_nil : ss.map (· ∪ touchedKeys w K [] \ s) = ss := by
  simp only [touchedKeys_nil, Finset.empty_sdiff, Finset.union_empty, map_id']

theorem touched_append (xs ys : List Last) :
    s ∪ touchedKeys w K xs ∪ touchedKeys w K ys = s ∪ touchedKeys w K (xs ++ ys) := by
  ext key
  simp only [touchedKeys, Finset.mem_union, Finset.mem_filter, mem_append]
  tauto

theorem new_append {s' : Finset Key} (xs ys : List Last) :
    s' ∪ touchedKeys w K xs \ s ∪ touchedKeys w K ys \ (s ∪ touchedKeys w K xs) =
      s' ∪ touchedKeys w K (xs ++ ys) \ s := by
  ext key
  simp only [touchedKeys, Finset.mem_union, Finset.mem_sdiff, Finset.mem_filter, mem_append]
  tauto

theorem tracked_logged_acts (hruns : h.Runs w acts h') (ht : h.txCounter = t)
    (hlog : ∀ a ∈ acts, a.Logged) (hK : ∀ l ∈ acts.flatMap Act.lasts, w.lasts K l)
    (htr : Tracked (WarmSet w t) ⟨h, cps⟩ s ss) :
    Tracked (WarmSet w t) ⟨h', cps⟩ (s ∪ touchedKeys w K (acts.flatMap Act.lasts)) ss := by
  induction acts generalizing h s with
  | nil =>
    cases hruns
    rwa [flatMap_nil, touchedKeys_nil, Finset.union_empty]
  | cons a acts ih =>
    rw [forall_mem_cons] at hlog
    simp only [flatMap_cons, forall_mem_append] at hK
    have hq : WarmSet w t (h.act a).undoLog (h.act a).cell (s ∪ touchedKeys w K a.lasts) :=
      (warmth_act htr.current ht).congr fun l _ => (lasts_touched hK.1 l).symm
    have hnext := ih hruns.2 ((act_txCounter a).trans ht) hlog.2 hK.2
      (tracked_logged htr hlog.1 hq)
    rwa [touched_append] at hnext

theorem tracked_raw_acts (hruns : h.Runs w acts h') (ht : h.txCounter = t)
    (hlog : ∀ a ∈ acts, a.Logged → a.lasts = []) (hK : ∀ l ∈ acts.flatMap Act.lasts, w.lasts K l)
    (htr : Tracked (WarmSet w t) ⟨h, cps⟩ s ss) :
    Tracked (WarmSet w t) ⟨h', cps⟩ (s ∪ touchedKeys w K (acts.flatMap Act.lasts))
      (ss.map (· ∪ touchedKeys w K (acts.flatMap Act.lasts) \ s)) := by
  induction acts generalizing h s ss with
  | nil =>
    cases hruns
    rwa [flatMap_nil, new_nil, touchedKeys_nil, Finset.union_empty]
  | cons a acts ih =>
    rw [forall_mem_cons] at hlog
    simp only [flatMap_cons, forall_mem_append] at hK
    have hq : WarmSet w t (h.act a).undoLog (h.act a).cell (s ∪ touchedKeys w K a.lasts) :=
      (warmth_act htr.current ht).congr fun l _ => (lasts_touched hK.1 l).symm
    have hfirst : Tracked (WarmSet w t) ⟨h.act a, cps⟩ (s ∪ touchedKeys w K a.lasts)
        (ss.map (· ∪ touchedKeys w K a.lasts \ s)) := by
      by_cases ha : a.Logged
      · rw [hlog.1 ha] at hq ⊢
        rw [new_nil]
        exact tracked_logged htr ha hq
      · refine tracked_raw htr ha hq fun k s' hs' => ?_
        exact (warmth_unwind_raw htr.current ht hs').congr fun l _ => (lasts_new hK.1 l).symm
    have hnext := ih hruns.2 ((act_txCounter a).trans ht) hlog.2 hK.2 hfirst
    simp only [touched_append, map_map, Function.comp_def, new_append] at hnext
    exact hnext

theorem tracked_known_acts (hruns : h.Runs w acts h') (ht : h.txCounter = t)
    (hknown : ∀ l ∈ acts.flatMap Act.lasts, w.lasts s l ∨ w.spares l)
    (htr : Tracked (WarmSet w t) ⟨h, cps⟩ s ss) : Tracked (WarmSet w t) ⟨h', cps⟩ s ss := by
  induction acts generalizing h with
  | nil =>
    cases hruns
    exact htr
  | cons a acts ih =>
    simp only [flatMap_cons, forall_mem_append] at hknown
    have hq : WarmSet w t (h.act a).undoLog (h.act a).cell s := by
      refine (warmth_act htr.current ht).congr fun l hl => ⟨?_, .inl⟩
      rintro (hs | hm)
      · exact hs
      · exact (hknown.1 l hm).resolve_right hl
    refine ih hruns.2 ((act_txCounter a).trans ht) hknown.2 ?_
    by_cases ha : a.Logged
    · exact tracked_logged htr ha hq
    · rw [← map_id ss]
      refine tracked_raw htr ha hq fun k s' hs' => ?_
      refine (warmth_unwind_raw htr.current ht hs').congr fun l hl => ⟨?_, .inl⟩
      rintro (hs | ⟨hm, hnot⟩)
      · exact hs
      · exact absurd ((hknown.1 l hm).resolve_right hl) hnot

theorem runs_txCounter (hruns : h.Runs w acts h') : h'.txCounter = h.txCounter := by
  induction acts generalizing h with
  | nil =>
    cases hruns
    rfl
  | cons a acts ih => exact (ih hruns.2).trans (act_txCounter a)

end acts

section calls

variable {op : Op} {answer : Answer} {s : Accessed}

theorem does_txCounter {P : Act → Prop} {K : List Last} (hd : Does w P K h h') :
    h'.txCounter = h.txCounter := by
  obtain ⟨acts, hruns, -, -⟩ := hd
  exact runs_txCounter hruns

theorem mem_lasts_toFinset {keys : List Key} {l : Last} :
    w.lasts keys.toFinset l ↔ l ∈ keys.map w.last := by
  simp [Witness.lasts]

theorem touchedKeys_eq {keys : List Key} {ls : List Last}
    (hls : ∀ l, l ∈ ls ↔ l ∈ keys.map w.last) : touchedKeys w keys.toFinset ls = keys.toFinset := by
  refine Finset.filter_true_of_mem fun key hkey => (hls _).mpr ?_
  exact mem_map_of_mem (mem_toFinset.mp hkey)

theorem lasts_nil_of_allows {a : Act} (hop : op.logs = false) (hset : ∀ key v, op ≠ .SetStorage key v)
    (ha : op.Allows w a) (hl : a.Logged) : a.lasts = [] := by
  cases a with
  | Write logs sets same => simp [Op.Allows, hop] at ha
  | Warm l => simp [Op.Allows, hop] at ha
  | Store idx v =>
    obtain ⟨key, hkey, -⟩ := ha
    exact absurd hkey (hset key v)
  | Touch l => exact absurd hl id
  | RawWrite idx f => exact absurd hl id
  | _ => rfl

theorem logged_of_allows {a : Act} (htouch : op.touched = []) (hraw : ¬ op.WritesRaw w)
    (ha : op.Allows w a) : a.Logged := by
  cases a with
  | Touch l => simp [Op.Allows, htouch] at ha
  | RawWrite idx f => exact absurd ha hraw
  | _ => trivial

variable {cps : List Checkpoint}

theorem tracked_logging_call (hc : h.call w op = .ok (h', answer)) (htouch : op.touched = [])
    (hraw : ¬ op.WritesRaw w) (htr : Tracked (WarmSet w h.txCounter) ⟨h, cps⟩ s.current s.saved) :
    Tracked (WarmSet w h.txCounter) ⟨h', cps⟩ (s.current ∪ (op.keys w h).toFinset) s.saved := by
  obtain ⟨acts, hruns, hall, hls⟩ := call_does hc
  rw [← touchedKeys_eq hls]
  exact tracked_logged_acts hruns rfl (fun a ha => logged_of_allows htouch hraw (hall a ha))
    (fun l hl => mem_lasts_toFinset.mpr ((hls l).mp hl)) htr

theorem tracked_prewarm_acts {acts : List Act} (keys : List Key) (hruns : h.Runs w acts h')
    (hlog : ∀ a ∈ acts, a.Logged → a.lasts = [])
    (hls : ∀ l, l ∈ acts.flatMap Act.lasts ↔ l ∈ keys.map w.last)
    (htr : Tracked (WarmSet w h.txCounter) ⟨h, cps⟩ s.current s.saved) :
    Tracked (WarmSet w h.txCounter) ⟨h', cps⟩ (s.prewarm keys.toFinset).current
      (s.prewarm keys.toFinset).saved := by
  have hnext := tracked_raw_acts hruns rfl hlog
    (fun l hl => mem_lasts_toFinset.mpr ((hls l).mp hl)) htr
  rwa [touchedKeys_eq hls] at hnext

theorem tracked_raw_call (hc : h.call w op = .ok (h', answer)) (hop : op.logs = false)
    (hset : ∀ key v, op ≠ .SetStorage key v)
    (htr : Tracked (WarmSet w h.txCounter) ⟨h, cps⟩ s.current s.saved) :
    Tracked (WarmSet w h.txCounter) ⟨h', cps⟩ (s.prewarm (op.keys w h).toFinset).current
      (s.prewarm (op.keys w h).toFinset).saved := by
  obtain ⟨acts, hruns, hall, hls⟩ := call_does hc
  exact tracked_prewarm_acts _ hruns (fun a ha => lasts_nil_of_allows hop hset (hall a ha)) hls htr

theorem tracked_known_call (hc : h.call w op = .ok (h', answer))
    (hknown : ∀ key ∈ op.keys w h, key ∈ s.current ∨ w.precompiled key)
    (htr : Tracked (WarmSet w h.txCounter) ⟨h, cps⟩ s.current s.saved) :
    Tracked (WarmSet w h.txCounter) ⟨h', cps⟩ s.current s.saved := by
  obtain ⟨acts, hruns, -, hls⟩ := call_does hc
  refine tracked_known_acts hruns rfl (fun l hl => ?_) htr
  obtain ⟨key, hkey, rfl⟩ := mem_map.mp ((hls l).mp hl)
  exact (hknown key hkey).imp lasts_last.mpr spares_last.mpr

-- Recovering an authority warms it for good; what follows is in its row.
theorem tracked_authorize {a : Address} {nonce : UInt64} {hash : Bytes32} {isDelegation afford : Bool}
    (hc : h.authorize w a nonce hash isDelegation afford = .ok h')
    (htr : Tracked (WarmSet w h.txCounter) ⟨h, cps⟩ s.current s.saved) :
    Tracked (WarmSet w h.txCounter) ⟨h', cps⟩ (s.prewarm [.Account a].toFinset).current
      (s.prewarm [.Account a].toFinset).saved := by
  obtain ⟨idx, hrow, K, hK, hd⟩ := authorize_split hc
  have hlast : w.last (.Account a) = .Account idx := last_account hrow
  let first : List Act := [.BalAccount idx, .Touch (.Account idx)]
  have hruns : h.Runs w first ((h.balAccessAt idx).touch (.Account idx)) :=
    ⟨trivial, trivial, rfl⟩
  have hmid := tracked_prewarm_acts [.Account a] hruns (by simp [first, Act.Logged, Act.lasts])
    (by simp [first, Act.lasts, hlast]) htr
  obtain ⟨acts, hrest, -, hls⟩ := hd
  refine tracked_known_acts hrest (runs_txCounter hruns) (fun l hl => .inl ?_) hmid
  rw [hK l ((hls l).mp hl), ← hlast]
  exact lasts_last.mpr (Finset.mem_union_right _ (by simp))

theorem status_eq {p : Prop} [Decidable p] {status : AccessStatus} (hs : status = .Cold ↔ ¬ p) :
    Answer.Access status = .Access (if p then .Warm else .Cold) := by
  split <;> cases status <;> simp_all

-- The counter of a key that is not a precompile's tells whether the set holds it.
theorem last_eq_iff (key : Key) (hw : WarmSet w h.txCounter h.undoLog h.cell s.current)
    (hkey : w.precompiled key = false) : h.last (w.last key) = h.txCounter ↔ key ∈ s.current :=
  (hw.warm _ (by rw [spares_last, hkey]; exact Bool.false_ne_true)).trans lasts_last

theorem call_answer (hw : WarmSet w h.txCounter h.undoLog h.cell s.current)
    (hc : h.call w op = .ok (h', answer)) : ∀ status ∈ s.answer w op, answer = .Access status := by
  cases op with
  | AccessAccount a =>
    obtain ⟨x, hx, hret⟩ := map_eq_ok.mp hc
    cases hret
    rintro _ ⟨⟩
    refine status_eq ((accessAccount_does hx).2.trans ?_)
    cases hpre : w.isPrecompile a with
    | true => simp
    | false =>
      rw [Ne, last_eq_iff (.Account a) hw hpre]
      simp
  | AccessStorage key =>
    obtain ⟨x, hx, hret⟩ := map_eq_ok.mp hc
    cases hret
    rintro _ ⟨⟩
    refine status_eq ((accessStorage_does hx).2.trans ?_)
    rw [Ne, last_eq_iff (.Slot key) hw rfl]
  | _ => exact fun _ hs => absurd hs (Option.not_mem_none _)

theorem tracked_call (hc : h.call w op = .ok (h', answer))
    (hload : op.loads → ∀ key ∈ op.keys w h, key ∈ s.current ∨ w.precompiled key)
    (hstay : op.framing = false)
    (htr : Tracked (WarmSet w h.txCounter) ⟨h, cps⟩ s.current s.saved) :
    Tracked (WarmSet w h.txCounter) ⟨h', cps⟩ (s.step w h op).current (s.step w h op).saved := by
  cases op with
  | GetBalance _ | GetNonce _ | GetCodeHash _ | CopyCode _ | GetStorage _ =>
    exact tracked_known_call hc (hload rfl) htr
  | WarmAddr _ | WarmSlot _ | EntryCode _ | SetField _ _ =>
    exact tracked_raw_call hc rfl (fun _ _ => Op.noConfusion) htr
  | Authorize a nonce hash isDelegation afford =>
    obtain ⟨x, hx, hret⟩ := map_eq_ok.mp hc
    cases hret
    exact tracked_authorize hx htr
  | Checkpoint | Commit | Rollback _ => exact Bool.noConfusion hstay
  | _ => exact tracked_logging_call hc rfl id htr

theorem tracked_step {r' : Run} (hc : r.step w op = .ok (r', answer))
    (hload : op.loads → ∀ key ∈ op.keys w r.host, key ∈ s.current ∨ w.precompiled key)
    (htr : Tracked (WarmSet w r.host.txCounter) r s.current s.saved) :
    Tracked (WarmSet w r'.host.txCounter) r' (s.step w r.host op).current (s.step w r.host op).saved ∧
      ∀ status ∈ s.answer w op, answer = .Access status := by
  obtain ⟨rfl, rfl⟩ | ⟨rfl, rfl⟩ | ⟨i, cp, rfl, hi, -, rfl⟩ | ⟨h, hstay, hcall, rfl⟩ := step_cases hc
  · exact ⟨tracked_checkpoint htr fun hq => hq.marker, fun _ hs => absurd hs (Option.not_mem_none _)⟩
  · exact ⟨tracked_commit htr, fun _ hs => absurd hs (Option.not_mem_none _)⟩
  · obtain ⟨g, hg, hback⟩ := tracked_rollback htr hi
    refine ⟨?_, fun _ hs => absurd hs (Option.not_mem_none _)⟩
    rw [Host.rolledBack_txCounter]
    simpa [Accessed.step, hg] using hback
  · rw [does_txCounter (call_does hcall)]
    exact ⟨tracked_call hcall hload hstay htr, call_answer htr.current hcall⟩

end calls

-- The run lemma: the invariant gives each answer and carries over to the next state.
theorem follows_of_tracked {ops : List Op} {s : Accessed}
    (htr : Tracked (WarmSet w r.host.txCounter) r s.current s.saved)
    (hdisc : Disciplined w s r ops) : Follows w s r ops := by
  induction ops generalizing r s with
  | nil => trivial
  | cons op ops ih =>
    intro r' answer hc
    obtain ⟨hload, hrest⟩ := hdisc
    obtain ⟨htr', hanswer⟩ := tracked_step hc hload htr
    exact ⟨hanswer, ih htr' (hrest r' answer hc)⟩

theorem warmSet_empty (hlt : ∀ l, h.last l < h.txCounter) (hj : h.journal = []) :
    WarmSet w h.txCounter h.undoLog h.cell ∅ where
  bound l := (hlt l).le
  warm l _ := by
    have hne : h.last l ≠ h.txCounter := (hlt l).ne
    simp only [Host.cell, hne, Witness.lasts, false_iff]
    rintro ⟨_, hmem, -⟩
    exact absurd hmem (Finset.notMem_empty _)
  covered l hl := by simp [Host.undoLog, hj, Covers] at hl

-- The account and the slot are accessed in a frame that reverts, then again; `0xcc` has no row.
def revertedAccess : List Op :=
  [.WarmAddr (tinyAddress 0xbb), .Checkpoint, .AccessAccount (tinyAddress 0xaa),
    .GetBalance (tinyAddress 0xaa), .AccessAccount (tinyAddress 0xcc), .AccessStorage tinySlot,
    .Rollback 0, .AccessAccount (tinyAddress 0xaa), .AccessAccount (tinyAddress 0xbb),
    .AccessAccount (tinyAddress 0xcc), .AccessStorage tinySlot]

end Zeg.StateDB
