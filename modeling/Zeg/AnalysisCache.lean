import Mathlib.Data.List.Perm.Subperm
import Mathlib.Logic.Function.Basic
import Zeg.Base.Except

-- The analyses of the codes that run, in a fixed number of slots. An owner is a contract of the code table.
namespace Zeg.AnalysisCache

open Base List Function

structure Slot (O A : Type) where
  owner : Option O
  pin : Nat
  analysis : Option A

-- A code larger than any that can be deployed has its analysis on the heap.
inductive Handle (A : Type) where
  | Slot (i : Nat)
  | Heap (analysis : A)

-- `free` and `lru` are the two linked lists, from their heads.
structure Cache (O A : Type) where
  slots : Nat → Slot O A
  numSlots : Nat
  free : List Nat
  lru : List Nat
  handle : O → Option (Handle A)

-- The codes of the owners, as prepare() analyses them, and the largest that a slot holds.
structure Codes (O A : Type) where
  size : O → Nat
  prepare : O → A
  maxCode : Nat

variable {O A : Type} [DecidableEq O]

def Cache.init (numSlots : Nat) : Cache O A := ⟨fun _ => ⟨none, 0, none⟩, numSlots, range numSlots, [], fun _ => none⟩

def Cache.evict (c : Cache O A) (i : Nat) : Cache O A :=
  match (c.slots i).owner with
  | none => { c with lru := c.lru.erase i }
  | some o =>
    { c with
      lru := c.lru.erase i
      handle := update c.handle o none
      slots := update c.slots i { c.slots i with owner := none } }

-- The least recently used slot that no live frame pins is at the end.
def Cache.allocSlot (c : Cache O A) : Except String (Nat × Cache O A) :=
  match c.free with
  | i :: free => .ok (i, { c with free })
  | [] =>
    match c.lru.reverse.find? fun i => (c.slots i).pin = 0 with
    | some i => .ok (i, c.evict i)
    | none => .error "analysis cache: all slots pinned (arena too small for depth)"

def Cache.miss (codes : Codes O A) (c : Cache O A) (o : O) : Except String (Handle A × Cache O A) := do
  let (i, c) ← c.allocSlot
  return (.Slot i,
    { c with
      slots := update c.slots i ⟨some o, 1, some (codes.prepare o)⟩
      handle := update c.handle o (some (.Slot i))
      lru := i :: c.lru })

def Cache.acquireOversize (codes : Codes O A) (c : Cache O A) (o : O) : Handle A × Cache O A :=
  match c.handle o with
  | some h => (h, c)
  | none => (.Heap (codes.prepare o), { c with handle := update c.handle o (some (.Heap (codes.prepare o))) })

-- A handle that is not its owner's is dropped.
def Cache.acquire (codes : Codes O A) (c : Cache O A) (o : O) : Except String (Handle A × Cache O A) :=
  if codes.maxCode < codes.size o then .ok (c.acquireOversize codes o)
  else match c.handle o with
    | none => c.miss codes o
    | some (.Slot i) =>
      if i < c.numSlots ∧ (c.slots i).owner = some o then
        .ok (.Slot i,
          { c with
            slots := update c.slots i { c.slots i with pin := (c.slots i).pin + 1 }
            lru := i :: c.lru.erase i })
      else { c with handle := update c.handle o none }.miss codes o
    | some (.Heap _) => { c with handle := update c.handle o none }.miss codes o

def Cache.release (c : Cache O A) : Handle A → Cache O A
  | .Slot i =>
    if i < c.numSlots then { c with slots := update c.slots i { c.slots i with pin := (c.slots i).pin - 1 } } else c
  | .Heap _ => c

-- A frame of an owner's code is entered, or the one entered last returns.
inductive Event (O : Type) where
  | Enter (o : O)
  | Return

abbrev State (O A : Type) := Cache O A × List (O × Handle A)

def step (codes : Codes O A) : State O A → Event O → Except String (State O A)
  | (c, live), .Enter o => (c.acquire codes o).map fun r => (r.2, (o, r.1) :: live)
  | (c, []), .Return => .ok (c, [])
  | (c, frame :: live), .Return => .ok (c.release frame.2, live)

def run (codes : Codes O A) (numSlots : Nat) (events : List (Event O)) : Except String (State O A) :=
  events.foldlM (step codes) (.init numSlots, [])

-- What the frame with the handle reads.
def Cache.analysis (c : Cache O A) : Handle A → Option A
  | .Slot i => (c.slots i).analysis
  | .Heap analysis => some analysis

def Handle.slot : Handle A → Option Nat
  | .Slot i => some i
  | .Heap _ => none

-- A slot is pinned once by each live frame that holds it.
structure Valid (codes : Codes O A) (n : Nat) (c : Cache O A) (live : List (O × Handle A)) : Prop where
  numSlots : c.numSlots = n
  nodup : c.free.Nodup
  bound : ∀ i, i ∈ c.free ∨ i ∈ c.lru ↔ i < n
  free : ∀ i ∈ c.free, (c.slots i).owner = none
  owned : ∀ i o, (c.slots i).owner = some o → (c.slots i).analysis = some (codes.prepare o)
  pins : ∀ i, (c.slots i).pin = live.countP (·.2.slot = some i)
  frames : ∀ frame ∈ live, ∀ i, frame.2.slot = some i → i < n ∧ (c.slots i).owner = some frame.1
  heap : ∀ frame ∈ live, ∀ a, frame.2 = .Heap a → a = codes.prepare frame.1
  oversize : ∀ o h, codes.maxCode < codes.size o → c.handle o = some h → h = .Heap (codes.prepare o)

variable {codes : Codes O A} {n i : Nat} {c c' : Cache O A} {live live' : List (O × Handle A)} {h : Handle A} {o : O}

section

omit [DecidableEq O]

theorem Valid.rehandle {handle : O → Option (Handle A)} (hv : Valid codes n c live)
    (hhandle : ∀ o h, handle o = some h → c.handle o = some h) : Valid codes n { c with handle } live :=
  { hv with oversize := fun o h hsize hh => hv.oversize o h hsize (hhandle o h hh) }

-- One slot is given to an owner or pinned anew.
theorem Valid.put (hv : Valid codes n c live) (hi : i < n) (hnum : c'.numSlots = c.numSlots) (hnodup : c'.free.Nodup)
    (hfree : ∀ j ∈ c'.free, j ∈ c.free ∧ j ≠ i) (hbound : ∀ j, j ∈ c'.free ∨ j ∈ c'.lru ↔ j < n)
    (hslots : ∀ j, j ≠ i → c'.slots j = c.slots j)
    (hself : c'.slots i = ⟨some o, live'.countP (·.2.slot = some i), some (codes.prepare o)⟩)
    (hpins : ∀ j, j ≠ i → live'.countP (·.2.slot = some j) = live.countP (·.2.slot = some j))
    (hframes : ∀ frame ∈ live', if frame.2.slot = some i then frame.1 = o else frame ∈ live)
    (hhandle : ∀ o h, codes.maxCode < codes.size o → c'.handle o = some h → c.handle o = some h) :
    Valid codes n c' live' where
  numSlots := hnum.trans hv.numSlots
  nodup := hnodup
  bound := hbound
  free j hj := by
    rw [hslots j (hfree j hj).2]
    exact hv.free j (hfree j hj).1
  owned j o' ho := by
    by_cases hj : j = i
    · subst hj
      rw [hself] at ho ⊢
      exact Option.some.inj ho ▸ rfl
    · rw [hslots j hj] at ho ⊢
      exact hv.owned j o' ho
  pins j := by
    by_cases hj : j = i
    · rw [hj, hself]
    · rw [hslots j hj, hv.pins, hpins j hj]
  frames frame hframe j hj := by
    have hold := hframes frame hframe
    split at hold
    · next heq =>
      cases heq.symm.trans hj
      rw [hself, hold]
      exact ⟨hi, rfl⟩
    · next hne =>
      rw [hslots j fun heq => hne (heq ▸ hj)]
      exact hv.frames frame hold j hj
  heap frame hframe a ha := by
    have hold := hframes frame hframe
    rw [if_neg (by rw [ha]; exact nofun)] at hold
    exact hv.heap frame hold a ha
  oversize o' h hsize hh := hv.oversize o' h hsize (hhandle o' h hsize hh)

-- A pinned slot keeps its owner and what it holds.
theorem Valid.pinned (hv : Valid codes n c live) {pin : Nat} {lru : List Nat} (hlru : ∀ j, j ∈ lru ↔ j ∈ c.lru)
    (hi : i < n) (howner : (c.slots i).owner = some o) (hpin : pin = live'.countP (·.2.slot = some i))
    (hpins : ∀ j, j ≠ i → live'.countP (·.2.slot = some j) = live.countP (·.2.slot = some j))
    (hframes : ∀ frame ∈ live', frame = (o, .Slot i) ∨ frame ∈ live) :
    Valid codes n { c with slots := update c.slots i { c.slots i with pin }, lru } live' := by
  have hnot : ∀ j ∈ c.free, j ≠ i := by
    rintro j hj rfl
    cases (hv.free j hj).symm.trans howner
  refine hv.put hi rfl hv.nodup (fun j hj => ⟨hj, hnot j hj⟩) (fun j => (or_congr_right (hlru j)).trans (hv.bound j))
    (fun j hj => update_of_ne hj ..) (o := o) ?_ hpins (fun frame hframe => ?_) fun _ _ _ hh => hh
  · rw [← hpin, ← howner, ← hv.owned i o howner]
    exact update_self ..
  · obtain rfl | hold := hframes frame hframe
    · simp [Handle.slot]
    · split
      · next heq => exact Option.some.inj ((hv.frames frame hold i heq).2.symm.trans howner)
      · exact hold

theorem valid_init : Valid codes n (.init n) [] where
  numSlots := rfl
  nodup := nodup_range
  bound i := by simp [Cache.init]
  free _ _ := rfl
  owned _ _ := nofun
  pins _ := rfl
  frames := nofun
  heap := nofun
  oversize _ _ _ := nofun

theorem valid_release {frame : O × Handle A} (hv : Valid codes n c (frame :: live)) :
    Valid codes n (c.release frame.2) live := by
  obtain ⟨o, h⟩ := frame
  cases h with
  | Slot i =>
    obtain ⟨hlt, howner⟩ := hv.frames _ mem_cons_self i rfl
    rw [Cache.release, if_pos (hv.numSlots ▸ hlt)]
    refine hv.pinned (fun _ => Iff.rfl) hlt howner ?_ (fun j hj => ?_) fun _ hframe => .inr (mem_cons_of_mem _ hframe)
    · rw [hv.pins, countP_cons_of_pos (by simp [Handle.slot]), Nat.add_sub_cancel]
    · exact (countP_cons_of_neg (by simpa [Handle.slot] using hj.symm)).symm
  | Heap a =>
    refine { hv with pins := fun i => ?_, frames := ?_, heap := ?_ }
    · exact (hv.pins i).trans (countP_cons_of_neg (by simp [Handle.slot]))
    · exact fun frame hframe => hv.frames frame (mem_cons_of_mem _ hframe)
    · exact fun frame hframe => hv.heap frame (mem_cons_of_mem _ hframe)

-- A slot that is taken is held by no live frame, and no other slot changes.
structure Taken (n : Nat) (c c' : Cache O A) (i : Nat) : Prop where
  pin : (c.slots i).pin = 0
  numSlots : c'.numSlots = c.numSlots
  nodup : c'.free.Nodup
  free : ∀ j ∈ c'.free, j ∈ c.free ∧ j ≠ i
  bound : ∀ j, j ∈ c'.free ∨ j = i ∨ j ∈ c'.lru ↔ j < n
  slots : ∀ j, j ≠ i → c'.slots j = c.slots j
  handle : ∀ o h, c'.handle o = some h → c.handle o = some h

end

theorem handle_of_update {handle : O → Option (Handle A)} {o' : O} (hh : update handle o' none o = some h) :
    handle o = some h := by
  by_cases ho : o = o'
  · rw [ho, update_self] at hh
    cases hh
  · rwa [update_of_ne ho] at hh

theorem evict_taken (hv : Valid codes n c live) (hnil : c.free = []) (hmem : i ∈ c.lru)
    (hpin : (c.slots i).pin = 0) : Taken n c (c.evict i) i := by
  have hfree : ∀ j ∈ c.free, j ∈ c.free ∧ j ≠ i := by simp [hnil]
  have hbound : ∀ j, j ∈ c.free ∨ j = i ∨ j ∈ c.lru.erase i ↔ j < n := by
    intro j
    rw [← hv.bound, hnil]
    by_cases hj : j = i
    · simp [hj, hmem]
    · simp [hj, mem_erase_of_ne hj]
  unfold Cache.evict
  split
  · exact ⟨hpin, rfl, hv.nodup, hfree, hbound, fun _ _ => rfl, fun _ _ hh => hh⟩
  · exact ⟨hpin, rfl, hv.nodup, hfree, hbound, fun j hj => update_of_ne hj .., fun _ _ hh => handle_of_update hh⟩

theorem alloc_taken (hv : Valid codes n c live) (ha : c.allocSlot = .ok (i, c')) : Taken n c c' i := by
  unfold Cache.allocSlot at ha
  split at ha
  · next j free hfree =>
    cases ha
    have hnodup := nodup_cons.1 (hfree ▸ hv.nodup)
    refine ⟨?_, rfl, hnodup.2, fun j hj => ⟨hfree ▸ mem_cons_of_mem _ hj, fun heq => hnodup.1 (heq ▸ hj)⟩, fun j => ?_,
      fun _ _ => rfl, fun _ _ hh => hh⟩
    · -- it has no owner, and the slot of a live frame has one
      rw [hv.pins, countP_eq_zero]
      intro frame hframe hslot
      have howner := (hv.frames frame hframe i (of_decide_eq_true hslot)).2
      rw [hv.free i (hfree ▸ mem_cons_self)] at howner
      cases howner
    · rw [← hv.bound j, hfree, mem_cons]
      tauto
  · next hnil =>
    split at ha
    · next hfind =>
      cases ha
      exact evict_taken hv hnil (mem_reverse.1 (mem_of_find?_eq_some hfind)) (by simpa using find?_some hfind)
    · cases ha

theorem valid_miss (hv : Valid codes n c live) (hsize : ¬codes.maxCode < codes.size o)
    (hm : c.miss codes o = .ok (h, c')) : Valid codes n c' ((o, h) :: live) := by
  obtain ⟨⟨i, c₁⟩, halloc, hret⟩ := bind_eq_ok.mp hm
  cases hret
  have ht := alloc_taken hv halloc
  have hzero := (hv.pins i).symm.trans ht.pin
  refine hv.put ((ht.bound i).1 (.inr (.inl rfl))) ht.numSlots ht.nodup ht.free
    (fun j => (or_congr_right mem_cons).trans (ht.bound j)) (fun j hj => (update_of_ne hj ..).trans (ht.slots j hj))
    (o := o) ?_ (fun j hj => countP_cons_of_neg (by simpa [Handle.slot] using hj.symm)) (fun frame hframe => ?_)
    fun o' h' hsize' hh => ?_
  · rw [countP_cons_of_pos (by simp [Handle.slot]), hzero]
    exact update_self ..
  · obtain rfl | hframe := mem_cons.1 hframe
    · simp [Handle.slot]
    · rwa [if_neg fun heq => countP_eq_zero.1 hzero frame hframe (decide_eq_true heq)]
  · have ho : o' ≠ o := fun heq => hsize (heq ▸ hsize')
    exact ht.handle o' h' ((update_of_ne ho ..).symm.trans hh)

theorem valid_acquireOversize (hv : Valid codes n c live) (hsize : codes.maxCode < codes.size o)
    (ha : c.acquireOversize codes o = (h, c')) : Valid codes n c' ((o, h) :: live) := by
  -- A frame on the heap pins nothing.
  have hpush : ∀ {c}, Valid codes n c live → Valid codes n c ((o, .Heap (codes.prepare o)) :: live) := by
    intro c hv
    refine { hv with pins := fun i => ?_, frames := ?_, heap := ?_ }
    · rw [hv.pins, countP_cons_of_neg (by simp [Handle.slot])]
    · exact forall_mem_cons.2 ⟨nofun, hv.frames⟩
    · exact forall_mem_cons.2 ⟨fun a ha => (Handle.Heap.inj ha).symm, hv.heap⟩
  unfold Cache.acquireOversize at ha
  split at ha
  · next hh =>
    cases ha
    rw [hv.oversize o h hsize hh]
    exact hpush hv
  · cases ha
    refine hpush { hv with oversize := fun o' h' hsize' hh => ?_ }
    by_cases ho : o' = o
    · subst ho
      exact Option.some.inj (hh.symm.trans (update_self ..))
    · exact hv.oversize o' h' hsize' ((update_of_ne ho ..).symm.trans hh)

theorem valid_acquire (hv : Valid codes n c live) (ha : c.acquire codes o = .ok (h, c')) :
    Valid codes n c' ((o, h) :: live) := by
  unfold Cache.acquire at ha
  split at ha
  · next hsize => exact valid_acquireOversize hv hsize (Except.ok.inj ha)
  next hsize =>
  have hdrop : Valid codes n { c with handle := update c.handle o none } live :=
    hv.rehandle fun _ _ hh => handle_of_update hh
  split at ha
  · exact valid_miss hv hsize ha
  · next i hh =>
    split at ha
    · next hhit =>
      cases ha
      have hmem : i ∈ c.lru := by
        obtain hfree | hlru := (hv.bound i).2 (hv.numSlots ▸ hhit.1)
        · cases (hv.free i hfree).symm.trans hhit.2
        · exact hlru
      refine hv.pinned (fun j => ?_) (hv.numSlots ▸ hhit.1) hhit.2 ?_ (fun j hj => ?_) fun _ hframe => mem_cons.1 hframe
      · by_cases hj : j = i
        · simp [hj, hmem]
        · simp [hj, mem_erase_of_ne hj]
      · rw [countP_cons_of_pos (by simp [Handle.slot]), hv.pins]
      · exact countP_cons_of_neg (by simpa [Handle.slot] using hj.symm)
    · exact valid_miss hdrop hsize ha
  · exact valid_miss hdrop hsize ha

theorem valid_step {s t : State O A} {e : Event O} (hv : Valid codes n s.1 s.2) (hstep : step codes s e = .ok t) :
    Valid codes n t.1 t.2 := by
  obtain ⟨c, live⟩ := s
  cases e with
  | Enter o =>
    obtain ⟨r, hr, rfl⟩ := map_eq_ok.mp hstep
    exact valid_acquire hv hr
  | Return =>
    cases live with
    | nil => cases hstep; exact hv
    | cons frame live => cases hstep; exact valid_release hv

theorem valid_steps {events : List (Event O)} {s t : State O A} (hv : Valid codes n s.1 s.2)
    (hrun : events.foldlM (step codes) s = .ok t) : Valid codes n t.1 t.2 := by
  induction events generalizing s with
  | nil =>
    cases hrun
    exact hv
  | cons e events ih =>
    rw [foldlM_cons] at hrun
    obtain ⟨s₁, hstep, hrest⟩ := bind_eq_ok.mp hrun
    exact ih (valid_step hv hstep) hrest

-- With a slot for each live frame and one more, some slot is free of pins.
theorem allocSlot_ok (hv : Valid codes n c live) (hlt : live.length < n) : ∃ r, c.allocSlot = .ok r := by
  unfold Cache.allocSlot
  split
  · exact ⟨_, rfl⟩
  · next hnil =>
    split
    · exact ⟨_, rfl⟩
    · next hfind =>
      have hsub : range n ⊆ live.filterMap (·.2.slot) := by
        intro i hi
        have hlru : i ∈ c.lru := by
          have hor := (hv.bound i).2 (mem_range.1 hi)
          rw [hnil] at hor
          exact hor.resolve_left not_mem_nil
        have hpin := find?_eq_none.1 hfind i (mem_reverse.2 hlru)
        rw [decide_eq_true_eq, hv.pins, countP_eq_zero] at hpin
        push Not at hpin
        obtain ⟨frame, hframe, heq⟩ := hpin
        exact mem_filterMap.2 ⟨frame, hframe, of_decide_eq_true heq⟩
      have hle := (nodup_range.subperm hsub).length_le
      have hfilter := length_filterMap_le (fun frame : O × Handle A => frame.2.slot) live
      rw [length_range] at hle
      omega

theorem acquire_ok (hv : Valid codes n c live) (hlt : live.length < n) (o : O) : ∃ r, c.acquire codes o = .ok r := by
  have hmiss : ∀ {c}, Valid codes n c live → ∃ r, c.miss codes o = .ok r := by
    intro c hv
    obtain ⟨r, hr⟩ := allocSlot_ok hv hlt
    exact ⟨_, bind_eq_ok.mpr ⟨r, hr, rfl⟩⟩
  have hdrop := hmiss (hv.rehandle fun _ _ (hh : update c.handle o none _ = _) => handle_of_update hh)
  unfold Cache.acquire
  split
  · exact ⟨_, rfl⟩
  split
  · exact hmiss hv
  · split
    · exact ⟨_, rfl⟩
    · exact hdrop
  · exact hdrop

-- At every point of every run, each live frame has the analysis of its own code behind its handle,
-- and while the live frames leave a slot the next one is served.
theorem cache_serves_frames (codes : Codes O A) (n : Nat) (events : List (Event O)) (c : Cache O A)
    (live : List (O × Handle A)) (hrun : run codes n events = .ok (c, live)) :
    (∀ frame ∈ live, c.analysis frame.2 = some (codes.prepare frame.1)) ∧
    (live.length < n → ∀ o, ∃ r, c.acquire codes o = .ok r) := by
  have hv : Valid codes n c live := valid_steps valid_init hrun
  refine ⟨fun frame hframe => ?_, acquire_ok hv⟩
  obtain ⟨o, h⟩ := frame
  cases h with
  | Slot i => exact hv.owned i o (hv.frames _ hframe i rfl).2
  | Heap a => exact congrArg some (hv.heap _ hframe a rfl)

-- Two slots, three codes that fit and one that does not: the first one's slot is taken while the
-- second one's is pinned.
theorem cache_serves_frames_evicted : ∃ c : Cache Nat Nat,
    run ⟨id, (· + 100), 50⟩ 2 [.Enter 7, .Return, .Enter 60, .Enter 8, .Enter 9] =
      .ok (c, [(9, .Slot 0), (8, .Slot 1), (60, .Heap 160)]) ∧
    c.analysis (.Slot 1) = some 108 := by
  have hlive : (run (A := Nat) ⟨id, (· + 100), 50⟩ 2 [.Enter 7, .Return, .Enter 60, .Enter 8, .Enter 9]).map Prod.snd =
      .ok [(9, .Slot 0), (8, .Slot 1), (60, .Heap 160)] := by rfl
  obtain ⟨⟨c, live⟩, hrun, rfl⟩ := map_eq_ok.mp hlive
  exact ⟨c, hrun, (cache_serves_frames _ 2 _ c _ hrun).1 (8, .Slot 1) (.tail _ (.head _))⟩

end Zeg.AnalysisCache
