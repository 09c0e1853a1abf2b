import Zeg.Memory.Stack

namespace Zeg.Memory

open Base List Function

def EVMMem.stop (m : EVMMem) (i : Nat) : Nat := (m.handles i).start + (m.handles i).size

def Holds (m : EVMMem) (i : Nat) (f : Frame) : Prop :=
  (m.handles i).size = f.size ∧
    ∀ a, a < f.size → m.zone (i % 2) ((m.handles i).start + a) = f.bytes a

-- Every live frame, and the last popped child, is where the manager says it is.
structure Shows (m : EVMMem) (s : Stack) : Prop where
  depth : m.depth = s.frames.length
  frames : ∀ f fs, (f :: fs) <:+ s.frames → Holds m fs.length f
  popped : ∀ f, s.popped = some f → Holds m s.frames.length f

-- Live frames of one zone are disjoint and in order, and none leaves its zone.
structure Separate (m : EVMMem) : Prop where
  disjoint : ∀ i j, i < j → j < m.depth → i % 2 = j % 2 → m.stop i ≤ (m.handles j).start
  inBounds : ∀ i, i < m.depth → m.stop i ≤ kMemBlockSize

structure Layout (m : EVMMem) (s : Stack) : Prop extends Shows m s where
  clean : ∀ z a, m.firstClean z ≤ a → m.zone z a = 0
  bound : ∀ z, m.firstClean z ≤ kMemBlockSize
  below : ∀ i, i < m.depth → m.stop i ≤ m.firstClean (i % 2)
  disjoint : ∀ i j, i < j → j < m.depth → i % 2 = j % 2 → m.stop i ≤ (m.handles j).start
  room : ∀ f fs, (f :: fs) <:+ s.frames → (m.handles fs.length).start ≤ kMaxMemPerTx + zoneLoad fs
  cap : ∀ i, i < m.depth → (m.handles i).size ≤ kMaxMemPerTx

variable {m : EVMMem}

theorem Layout.separate {s : Stack} (hl : Layout m s) : Separate m where
  disjoint := hl.disjoint
  inBounds := fun i hi => Nat.le_trans (hl.below i hi) (hl.bound _)

theorem layout_init : Layout EVMMem.init ⟨[], none⟩ where
  depth := rfl
  frames := by
    intro f fs h
    simp at h
  popped := by
    intro f h
    cases h
  clean := fun _ _ _ => rfl
  bound := fun _ => Nat.zero_le _
  below := by
    intro i hi
    simp [EVMMem.init] at hi
  disjoint := by
    intro i j _ hj
    simp [EVMMem.init] at hj
  room := by
    intro f fs h
    simp at h
  cap := by
    intro i hi
    simp [EVMMem.init] at hi

variable {f : Frame} {fs : List Frame}

theorem suffix_length_lt {gs : List Frame} (h : (f :: fs) <:+ gs) :
    fs.length < gs.length := by
  have := h.length_le
  simp only [length_cons] at this
  omega

variable {p : Option Frame}

theorem Layout.cur_eq (hl : Layout m ⟨f :: fs, p⟩) : m.cur = fs.length := by
  have := hl.depth
  simp only [length_cons] at this
  unfold EVMMem.cur
  omega

section create

variable {m : EVMMem} {fs : List Frame} {p : Option Frame}

-- Both placements start at or above every live frame of the zone, inside the dirty
-- space or right at its end.
theorem createMemory_start (hl : Layout m ⟨fs, p⟩) (start : Nat)
    (hs : (createMemory m).2.handles m.depth = ⟨start, 0⟩) :
    start ≤ m.firstClean (m.depth % 2) ∧ start ≤ kMaxMemPerTx + zoneLoad fs ∧
      ∀ i, i < m.depth → i % 2 = m.depth % 2 → m.stop i ≤ start := by
  have hd := hl.depth
  simp only [createMemory, update_self, MemHandle.mk.injEq, and_true] at hs
  split at hs
  · rename_i hc
    subst hs
    refine ⟨Nat.le_refl _, ?_, ?_⟩
    · unfold kMemBlockSize kMaxMemPerTx at *
      omega
    · intro i hi hz
      exact hz ▸ hl.below i hi
  · split at hs
    · rename_i h2
      -- the same-zone parent is two frames down
      match fs, hl with
      | [], hl => simp_all
      | [_], hl => simp_all
      | f :: g :: gs, hl =>
        have hlen : m.depth - 2 = gs.length := by simp_all
        have hz : gs.length % 2 = m.depth % 2 := by omega
        have hroom := hl.room g gs (suffix_cons f (g :: gs))
        have hholds := (hl.frames g gs (suffix_cons f (g :: gs))).1
        have hbelow := hl.below gs.length (by omega)
        rw [hlen] at hs
        have hstop : m.stop gs.length = start := hs
        refine ⟨?_, ?_, ?_⟩
        · rw [← hstop, ← hz]
          exact hbelow
        · rw [← hstop]
          simp only [EVMMem.stop, zoneLoad]
          omega
        · intro i hi hiz
          rcases Nat.lt_or_ge i gs.length with hlt | hge
          · have := hl.disjoint i gs.length hlt (by omega) (by omega)
            rw [← hstop]
            exact Nat.le_trans this (Nat.le_add_right _ _)
          · have : i = gs.length := by omega
            exact Nat.le_of_eq (this ▸ hstop)
    · rename_i h2
      subst hs
      refine ⟨Nat.zero_le _, Nat.zero_le _, ?_⟩
      intro i hi hiz
      omega

theorem layout_createMemory (hl : Layout m ⟨fs, p⟩) :
    Layout (createMemory m).2 ⟨.empty :: fs, none⟩ := by
  have hd := hl.depth
  obtain ⟨start, hs⟩ : ∃ start, (createMemory m).2.handles m.depth = ⟨start, 0⟩ :=
    ⟨_, update_self ..⟩
  obtain ⟨hclean, hroom, habove⟩ := createMemory_start hl start hs
  have hold : ∀ i, i < m.depth → (createMemory m).2.handles i = m.handles i :=
    fun i hi => update_of_ne (Nat.ne_of_lt hi) ..
  have hlen : fs.length = m.depth := hd.symm
  refine
    { depth := by simp [createMemory, hd]
      frames := ?_, popped := ?_, clean := hl.clean, bound := hl.bound
      below := ?_, disjoint := ?_, room := ?_, cap := ?_ }
  · intro f gs hsuf
    rcases suffix_cons_iff.mp hsuf with heq | hsuf
    · cases heq
      rw [hlen]
      exact ⟨by rw [hs]; rfl, by intro a ha; simp [Frame.empty] at ha⟩
    · have hlt : gs.length < m.depth := hlen ▸ suffix_length_lt hsuf
      unfold Holds
      rw [hold _ hlt]
      exact hl.frames f gs hsuf
  · intro f h
    cases h
  · intro i hi
    rcases Nat.lt_succ_iff_lt_or_eq.mp hi with hi | rfl
    · unfold EVMMem.stop
      rw [hold i hi]
      exact hl.below i hi
    · unfold EVMMem.stop
      rw [hs]
      exact hclean
  · intro i j hij hj hz
    unfold EVMMem.stop
    rcases Nat.lt_succ_iff_lt_or_eq.mp hj with hj | rfl
    · rw [hold j hj, hold i (by omega)]
      exact hl.disjoint i j hij hj hz
    · rw [hs, hold i hij]
      exact habove i hij hz
  · intro f gs hsuf
    rcases suffix_cons_iff.mp hsuf with heq | hsuf
    · cases heq
      rw [hlen, hs]
      exact hroom
    · rw [hold _ (hlen ▸ suffix_length_lt hsuf)]
      exact hl.room f gs hsuf
  · intro i hi
    rcases Nat.lt_succ_iff_lt_or_eq.mp hi with hi | rfl
    · rw [hold i hi]
      exact hl.cap i hi
    · rw [hs]
      exact Nat.zero_le _

end create

theorem layout_destroyMemory (hl : Layout m ⟨f :: fs, p⟩) : Layout (destroyMemory m) ⟨fs, some f⟩ := by
  have hd : m.depth = fs.length + 1 := hl.depth
  have hle : (destroyMemory m).depth ≤ m.depth := Nat.sub_le _ _
  refine
    { depth := by simp [destroyMemory, hd]
      frames := fun g gs hg => hl.frames g gs (hg.trans (suffix_cons f fs))
      popped := ?_, clean := hl.clean, bound := hl.bound
      below := fun i hi => hl.below i (Nat.lt_of_lt_of_le hi hle)
      disjoint := fun i j hij hj => hl.disjoint i j hij (Nat.lt_of_lt_of_le hj hle)
      room := fun g gs hg => hl.room g gs (hg.trans (suffix_cons f fs))
      cap := fun i hi => hl.cap i (Nat.lt_of_lt_of_le hi hle) }
  intro g hg
  cases hg
  exact hl.frames f fs (suffix_refl _)

section grow

variable (m : EVMMem) (newSize : Nat)

theorem grow_zone_of_ne {z : Nat} (hz : z ≠ m.cur % 2) : (m.grow newSize).zone z = m.zone z := by
  simp only [EVMMem.grow]
  split
  · exact update_of_ne hz ..
  · rfl

theorem grow_zone_cur (a : Nat) :
    (m.grow newSize).zone (m.cur % 2) a =
      fill (m.zone (m.cur % 2)) (m.stop m.cur)
        (min ((m.handles m.cur).start + newSize) (m.firstClean (m.cur % 2))) 0 a := by
  simp only [EVMMem.grow, EVMMem.stop]
  split
  · rw [update_self]
  · exact (if_neg (by omega)).symm

-- The bytes a frame grows into read as zero, whether they were clean or recycled.
theorem grow_zone_exposed (hclean : ∀ a, m.firstClean (m.cur % 2) ≤ a → m.zone (m.cur % 2) a = 0)
    {a : Nat} (hlo : m.stop m.cur ≤ a) (hhi : a < (m.handles m.cur).start + newSize) :
    (m.grow newSize).zone (m.cur % 2) a = 0 := by
  rw [grow_zone_cur]
  by_cases hc : a < m.firstClean (m.cur % 2)
  · exact fill_of_mem _ _ hlo (by omega)
  · rw [fill_of_le _ _ (by omega)]
    exact hclean a (by omega)

theorem grow_firstClean_cur :
    (m.grow newSize).firstClean (m.cur % 2) =
      max (m.firstClean (m.cur % 2)) ((m.handles m.cur).start + newSize) := by
  simp only [EVMMem.grow]
  split
  · rw [update_self]
    omega
  · omega

theorem grow_firstClean_of_ne {z : Nat} (hz : z ≠ m.cur % 2) :
    (m.grow newSize).firstClean z = m.firstClean z := by
  simp only [EVMMem.grow]
  split
  · exact update_of_ne hz ..
  · rfl

theorem firstClean_le_grow (z : Nat) : m.firstClean z ≤ (m.grow newSize).firstClean z := by
  by_cases hz : z = m.cur % 2
  · rw [hz, grow_firstClean_cur]
    omega
  · exact Nat.le_of_eq (grow_firstClean_of_ne m newSize hz).symm

theorem grow_handles_cur :
    (m.grow newSize).handles m.cur = ⟨(m.handles m.cur).start, newSize⟩ :=
  update_self ..

theorem grow_handles_of_ne {i : Nat} (hi : i ≠ m.cur) :
    (m.grow newSize).handles i = m.handles i :=
  update_of_ne hi ..

end grow

section frameOps

variable {m : EVMMem} {f : Frame} {fs : List Frame} {p : Option Frame}

-- Two frames of one zone never overlap, and the current one is the topmost, so what
-- the current frame does above its start leaves every other live frame alone.
theorem Layout.holds_of_frame (hl : Layout m ⟨f :: fs, p⟩) (m' : EVMMem)
    (hother : ∀ z, z ≠ m.cur % 2 → m'.zone z = m.zone z)
    (hlow : ∀ a, a < (m.handles m.cur).start → m'.zone (m.cur % 2) a = m.zone (m.cur % 2) a)
    (hhandles : ∀ i, i ≠ m.cur → m'.handles i = m.handles i)
    {g : Frame} {gs : List Frame} (hg : (g :: gs) <:+ fs) : Holds m' gs.length g := by
  have hcur := hl.cur_eq
  have hd : m.depth = fs.length + 1 := hl.depth
  have hlt := suffix_length_lt hg
  obtain ⟨hsize, hbytes⟩ := hl.frames g gs (hg.trans (suffix_cons f fs))
  unfold Holds
  rw [hhandles _ (by omega)]
  refine ⟨hsize, fun a ha => ?_⟩
  rw [← hbytes a ha]
  by_cases hz : gs.length % 2 = m.cur % 2
  · have := hl.disjoint gs.length m.cur (by omega) (by omega) hz
    unfold EVMMem.stop at this
    rw [hz, hlow _ (by omega)]
  · rw [hother _ hz]

-- The last popped child lives in the other zone.
theorem Layout.popped_of_frame (hl : Layout m ⟨f :: fs, p⟩) (m' : EVMMem)
    (hother : ∀ z, z ≠ m.cur % 2 → m'.zone z = m.zone z)
    (hhandles : ∀ i, i ≠ m.cur → m'.handles i = m.handles i) (g : Frame) (hg : p = some g) :
    Holds m' (fs.length + 1) g := by
  have hcur := hl.cur_eq
  unfold Holds
  rw [hhandles _ (by omega), hother _ (by omega)]
  exact hl.popped g hg

theorem layout_grow (hl : Layout m ⟨f :: fs, p⟩) (newSize : Nat) (hle : f.size ≤ newSize)
    (hmax : newSize ≤ kMaxMemPerTx) (hblock : (m.handles m.cur).start + newSize ≤ kMemBlockSize) :
    Layout (m.grow newSize) ⟨f.resize newSize hle :: fs, p⟩ := by
  have hcur := hl.cur_eq
  have hd : m.depth = fs.length + 1 := hl.depth
  obtain ⟨hsize, hbytes⟩ := hl.frames f fs (suffix_refl _)
  rw [← hcur] at hsize hbytes
  have hstop : m.stop m.cur = (m.handles m.cur).start + f.size := by rw [EVMMem.stop, hsize]
  refine
    { depth := hl.depth
      frames := ?_, popped := ?_, clean := ?_, bound := ?_
      below := ?_, disjoint := ?_, room := ?_, cap := ?_ }
  · intro g gs hsuf
    rcases suffix_cons_iff.mp hsuf with heq | hsuf
    · cases heq
      rw [← hcur, Holds, grow_handles_cur]
      refine ⟨rfl, fun a ha => ?_⟩
      dsimp only
      by_cases hnew : a < f.size
      · rw [grow_zone_cur, fill_of_lt _ _ (by omega)]
        exact hbytes a hnew
      · rw [grow_zone_exposed m newSize (hl.clean _) (by omega) (Nat.add_lt_add_left ha _)]
        exact (f.zero_above a (by omega)).symm
    · refine hl.holds_of_frame _ (fun z => grow_zone_of_ne m newSize) ?_
        (fun i => grow_handles_of_ne m newSize) hsuf
      intro a ha
      rw [grow_zone_cur, fill_of_lt _ _ (by omega)]
  · exact hl.popped_of_frame _ (fun z => grow_zone_of_ne m newSize)
      (fun i => grow_handles_of_ne m newSize)
  · intro z a ha
    by_cases hz : z = m.cur % 2
    · rw [hz, grow_firstClean_cur] at ha
      rw [hz, grow_zone_cur, fill_of_le _ _ (by omega)]
      exact hl.clean _ a (by omega)
    · rw [grow_firstClean_of_ne m newSize hz] at ha
      rw [grow_zone_of_ne m newSize hz]
      exact hl.clean z a ha
  · intro z
    by_cases hz : z = m.cur % 2
    · have := hl.bound (m.cur % 2)
      rw [hz, grow_firstClean_cur]
      omega
    · rw [grow_firstClean_of_ne m newSize hz]
      exact hl.bound z
  · intro i hi
    by_cases hc : i = m.cur
    · rw [hc, EVMMem.stop, grow_handles_cur, grow_firstClean_cur]
      exact Nat.le_max_right _ _
    · rw [EVMMem.stop, grow_handles_of_ne m newSize hc]
      exact Nat.le_trans (hl.below i hi) (firstClean_le_grow m newSize _)
  · intro i j hij hj hz
    have hj' : j < m.depth := hj
    rw [EVMMem.stop, grow_handles_of_ne m newSize (i := i) (by omega)]
    have := hl.disjoint i j hij hj' hz
    by_cases hc : j = m.cur
    · rw [hc, grow_handles_cur]
      exact hc ▸ this
    · rw [grow_handles_of_ne m newSize hc]
      exact this
  · intro g gs hsuf
    rcases suffix_cons_iff.mp hsuf with heq | hsuf
    · cases heq
      rw [← hcur, grow_handles_cur, hcur]
      exact hl.room f fs (suffix_refl _)
    · have := suffix_length_lt hsuf
      rw [grow_handles_of_ne m newSize (by omega)]
      exact hl.room g gs (hsuf.trans (suffix_cons f fs))
  · intro i hi
    by_cases hc : i = m.cur
    · rw [hc, grow_handles_cur]
      exact hmax
    · rw [grow_handles_of_ne m newSize hc]
      exact hl.cap i hi

theorem layout_store (hl : Layout m ⟨f :: fs, p⟩) (addr : Nat) (src : List UInt8) (g : Frame)
    (hsize : g.size = f.size) (hbytes : g.bytes = copyIn f.bytes addr src)
    (hend : src.length = 0 ∨ addr + src.length ≤ f.size) :
    Layout (m.store addr src) ⟨g :: fs, p⟩ := by
  have hcur := hl.cur_eq
  have hd : m.depth = fs.length + 1 := hl.depth
  obtain ⟨hfsize, hfbytes⟩ := hl.frames f fs (suffix_refl _)
  rw [← hcur] at hfsize hfbytes
  have hself : ∀ a, (m.store addr src).zone (m.cur % 2) a =
      copyIn (m.zone (m.cur % 2)) ((m.handles m.cur).start + addr) src a :=
    fun a => congrFun (update_self ..) a
  have hother : ∀ z, z ≠ m.cur % 2 → (m.store addr src).zone z = m.zone z :=
    fun z hz => update_of_ne hz ..
  have hstop : m.stop m.cur = (m.handles m.cur).start + f.size := by rw [EVMMem.stop, hfsize]
  refine
    { depth := hl.depth
      frames := ?_, popped := ?_, clean := ?_, bound := hl.bound
      below := hl.below, disjoint := hl.disjoint, room := ?_, cap := hl.cap }
  · intro g' gs hsuf
    rcases suffix_cons_iff.mp hsuf with heq | hsuf
    · cases heq
      rw [← hcur]
      refine ⟨hfsize.trans hsize.symm, fun a ha => ?_⟩
      rw [hself, hbytes]
      exact copyIn_window _ _ _ _ _ _ (hfbytes a (hsize ▸ ha))
    · refine hl.holds_of_frame _ hother (fun a ha => ?_) (fun i _ => rfl) hsuf
      rw [hself, copyIn_of_lt _ _ (by omega)]
  · exact hl.popped_of_frame _ hother (fun i _ => rfl)
  · intro z a ha
    by_cases hz : z = m.cur % 2
    · -- the written range lies below the watermark
      have hb := hl.below m.cur (by omega)
      subst hz
      have hz : m.zone (m.cur % 2) a = 0 := hl.clean _ a ha
      rcases hend with hnil | hend
      · rw [hself, length_eq_zero_iff.mp hnil]
        simpa [copyIn] using hz
      · have ha' : m.firstClean (m.cur % 2) ≤ a := ha
        rw [hself, copyIn_of_le _ _ (by omega), hz]
    · rw [hother z hz]
      exact hl.clean z a ha
  · intro g' gs hsuf
    rcases suffix_cons_iff.mp hsuf with heq | hsuf
    · cases heq
      exact hl.room f fs (suffix_refl _)
    · exact hl.room g' gs (hsuf.trans (suffix_cons f fs))

-- The outcome of a range access: the frame grows to cover the range at the price of
-- the difference of the costs, or nothing changes and one of the two limits was hit.
def Grown (m : EVMMem) (f : Frame) (fs : List Frame) (p : Option Frame) (addr len : Nat)
    (gas : Int) (out : MemGas × EVMMem) : Prop :=
  (out.1 = ⟨.Ok, gas - f.cost addr len⟩ ∧
      (f.reach addr len = f.size ∨ f.cost addr len ≤ gas) ∧
      Layout out.2 ⟨f.touch addr len :: fs, p⟩) ∨
    (out = (⟨.OutOfGas, gas⟩, m) ∧
      (gas < f.cost addr len ∨ kMaxMemPerTx < zoneLoad fs + f.reach addr len))

theorem Layout.grown_of_reach_eq (hl : Layout m ⟨f :: fs, p⟩) {addr len : Nat} (gas : Int)
    (hr : f.reach addr len = f.size) : Grown m f fs p addr len gas (⟨.Ok, gas⟩, m) := by
  have ht : f.touch addr len = f := by
    simp only [Frame.touch, Frame.resize, hr]
  have hc : f.cost addr len = 0 := by
    simp only [Frame.cost, hr]
    omega
  exact .inl ⟨by simp [hc], .inl hr, by rw [ht]; exact hl⟩

theorem layout_ensure (hl : Layout m ⟨f :: fs, p⟩) (addr len : Nat) (gas : Int) (hlen : len ≠ 0) :
    Grown m f fs p addr len gas (ensure m (addr + len) gas) := by
  have hcur := hl.cur_eq
  have hsize : (m.handles m.cur).size = f.size := hcur ▸ (hl.frames f fs (suffix_refl _)).1
  have hroom : (m.handles m.cur).start ≤ kMaxMemPerTx + zoneLoad fs :=
    hcur ▸ hl.room f fs (suffix_refl _)
  by_cases hin : addr + len ≤ f.size
  · have he : ensure m (addr + len) gas = (⟨.Ok, gas⟩, m) := if_pos (hsize ▸ hin)
    rw [he]
    exact hl.grown_of_reach_eq gas (if_pos (.inr hin))
  · have hr : f.reach addr len = roundUpWord (addr + len) := if_neg (by omega)
    simp only [ensure, hsize, if_neg hin, ← hr]
    split
    · exact .inr ⟨rfl, .inr (by omega)⟩
    · split
      · rename_i hblock
        refine .inr ⟨rfl, .inr ?_⟩
        unfold kMemBlockSize kMaxMemPerTx at *
        omega
      · split
        · rename_i hgas
          exact .inr ⟨rfl, .inl hgas⟩
        · rename_i hmax hblock hgas
          have hpaid : f.cost addr len ≤ gas := Int.not_lt.mp hgas
          exact .inl ⟨rfl, .inr hpaid,
            layout_grow hl _ (f.size_le_reach addr len) (by omega) (by omega)⟩

theorem layout_expand (hl : Layout m ⟨f :: fs, p⟩) (addr len : Nat) (gas : Int) :
    Grown m f fs p addr len gas (expand m addr len gas) := by
  have hcap : f.size ≤ kMaxMemPerTx := by
    have hd : m.depth = fs.length + 1 := hl.depth
    have := hl.cap fs.length (by omega)
    rwa [(hl.frames f fs (suffix_refl _)).1] at this
  unfold expand
  split
  · rename_i h0
    exact hl.grown_of_reach_eq gas (if_pos (.inl h0))
  · rename_i h0
    split
    · have := f.end_le_reach addr h0
      exact .inr ⟨rfl, .inr (by omega)⟩
    · exact layout_ensure hl addr len gas h0

end frameOps

variable {op : MemOp}

-- A granted or refused access of the current frame, once the operation's own part
-- after the growth is known.
theorem step_of_grown {r : Request} (hop : f.request op = some r) (hl : Layout m ⟨f :: fs, p⟩) (out : MemGas × EVMMem)
    (hg : Grown m f fs p r.addr r.len r.gas out) (data : List UInt8) (after : EVMMem)
    (hstep : m.step op = (.Access out.1 (if out.1.err = .Ok then data else []), if out.1.err = .Ok then after else out.2))
    (hok : Layout out.2 ⟨f.touch r.addr r.len :: fs, p⟩ → data = r.data ∧ Layout after ⟨r.frame :: fs, p⟩) :
    ∃ s', Stack.Step ⟨f :: fs, p⟩ op (m.step op).1 s' ∧ Layout (m.step op).2 s' := by
  rw [hstep]
  rcases hg with ⟨hout, hpaid, hlay⟩ | ⟨hout, hfull⟩
  · obtain ⟨rfl, hm⟩ := hok hlay
    simp only [hout, if_true]
    exact ⟨_, .grant f fs p op r hop hpaid, hm⟩
  · simp only [hout, if_neg (show ¬ MemError.OutOfGas = .Ok by decide)]
    exact ⟨_, .refuse f fs p op r hop hfull, hl⟩

section step

variable {m : EVMMem} {f : Frame} {fs : List Frame} {p : Option Frame}

theorem layout_write (addr : Nat) (src : List UInt8)
    (hl : Layout m ⟨f.touch addr src.length :: fs, p⟩) :
    Layout (m.store addr src) ⟨f.write addr src :: fs, p⟩ := by
  refine layout_store hl addr src (f.write addr src) rfl rfl ?_
  by_cases h0 : src.length = 0
  · exact .inl h0
  · exact .inr (f.end_le_reach addr h0)

theorem load_touch (addr len : Nat) (hl : Layout m ⟨f.touch addr len :: fs, p⟩) :
    m.load addr len = copyOut f.bytes addr len := by
  obtain ⟨hsize, hbytes⟩ := hl.frames _ _ (suffix_refl _)
  rw [← hl.cur_eq] at hsize hbytes
  apply copyOut_congr
  intro a ha
  have := f.end_le_reach addr (show len ≠ 0 by omega)
  rw [Nat.add_assoc]
  exact hbytes (addr + a) (Nat.lt_of_lt_of_le (by omega) this)

theorem step_refines_access (hl : Layout m ⟨f :: fs, p⟩) (op : MemOp) (r : Request)
    (hop : f.request op = some r) :
    ∃ s', Stack.Step ⟨f :: fs, p⟩ op (m.step op).1 s' ∧ Layout (m.step op).2 s' := by
  cases op with
  | Create | Destroy => cases hop
  | Expand addr len gas =>
    have hg := layout_expand hl addr len gas
    cases hop
    exact step_of_grown rfl hl _ hg [] _ (by simp [EVMMem.step]) (fun hm => ⟨rfl, hm⟩)
  | ReadBytes addr len gas =>
    have hg := layout_expand hl addr len gas
    cases hop
    exact step_of_grown rfl hl _ hg _ _ (by simp [EVMMem.step, readBytes])
      (fun hm => ⟨load_touch addr len hm, hm⟩)
  | WriteBytes addr src gas =>
    have hg := layout_expand hl addr src.length gas
    cases hop
    exact step_of_grown rfl hl _ hg [] _ (by simp [EVMMem.step, writeBytes])
      (fun hm => ⟨rfl, layout_write addr src hm⟩)
  | WriteByte addr value gas =>
    cases hop
    by_cases hmax : addr > kMaxMemPerTx
    · have hg : Grown m f fs p addr 1 gas (⟨.OutOfGas, gas⟩, m) := by
        have := f.end_le_reach addr Nat.one_ne_zero
        exact .inr ⟨rfl, .inr (by omega)⟩
      refine step_of_grown rfl hl _ hg [] (m.store addr [value]) ?_
        (fun hm => ⟨rfl, layout_write addr [value] hm⟩)
      simp [EVMMem.step, writeByte, hmax]
    · exact step_of_grown rfl hl _ (layout_ensure hl addr 1 gas (by decide)) [] _
        (by simp [EVMMem.step, writeByte, hmax])
        (fun hm => ⟨rfl, layout_write addr [value] hm⟩)

end step

theorem nested_cons {depth : Nat} {ops : List MemOp} (hn : nested depth (op :: ops)) (hd : depth ≤ kMaxMemHandles) :
    (op = .Create ∧ depth + 1 ≤ kMaxMemHandles ∧ nested (depth + 1) ops) ∨
      (op = .Destroy ∧ 0 < depth ∧ depth - 1 ≤ kMaxMemHandles ∧ nested (depth - 1) ops) ∨
      ((∀ f : Frame, ∃ r, f.request op = some r) ∧ 0 < depth ∧ nested depth ops) := by
  cases op <;> simp only [nested, Bool.and_eq_true, decide_eq_true_eq] at hn
  case Create => exact .inl ⟨rfl, hn.1, hn.2⟩
  case Destroy => exact .inr (.inl ⟨rfl, hn.1, by omega, hn.2⟩)
  all_goals exact .inr (.inr ⟨fun f => ⟨_, rfl⟩, hn⟩)

theorem Stack.Step.depth_access {r : Request} (hop : f.request op = some r) {out : MemOut} {s' : Stack}
    (h : Stack.Step ⟨f :: fs, p⟩ op out s') : s'.frames.length = fs.length + 1 := by
  cases h with
  | create | destroy => cases hop
  | grant | refuse => rfl

theorem run_refines (ops : List MemOp) (m : EVMMem) (s : Stack) (hl : Layout m s)
    (hn : nested m.depth ops) (hd : m.depth ≤ kMaxMemHandles) :
    ∃ s', Stack.Run s ops (m.run ops).1 s' ∧ Layout (m.run ops).2 s' ∧
      (m.run ops).2.depth ≤ kMaxMemHandles := by
  induction ops generalizing m s with
  | nil => exact ⟨s, .nil s, hl, hd⟩
  | cons op ops ih =>
    -- one step keeps the layout and lands at the depth the rest is nested in
    obtain ⟨s₁, hstep, hl₁, hn₁, hd₁⟩ : ∃ s₁, Stack.Step s op (m.step op).1 s₁ ∧
        Layout (m.step op).2 s₁ ∧ nested (m.step op).2.depth ops ∧
        (m.step op).2.depth ≤ kMaxMemHandles := by
      obtain ⟨frames, p⟩ := s
      have hlen : m.depth = frames.length := hl.depth
      rcases nested_cons hn hd with ⟨rfl, hmax, hn⟩ | ⟨rfl, hpos, hmax, hn⟩ | ⟨hreq, hpos, hn⟩
      · refine ⟨_, ?_, layout_createMemory hl, hn, hmax⟩
        have := Stack.Step.create frames p
        rwa [← hlen] at this
      · match frames, hl with
        | [], _ => simp_all
        | f :: fs, hl => exact ⟨_, .destroy f fs p, layout_destroyMemory hl, hn, hmax⟩
      · match frames, hl with
        | [], _ => simp_all
        | f :: fs, hl =>
          obtain ⟨r, hop⟩ := hreq f
          obtain ⟨s₁, hstep, hl₁⟩ := step_refines_access hl op r hop
          have hdepth : (m.step op).2.depth = m.depth := by
            rw [hl₁.depth, hl.depth, hstep.depth_access hop, length_cons]
          exact ⟨s₁, hstep, hl₁, hdepth.symm ▸ hn, hdepth.symm ▸ hd⟩
    obtain ⟨s₂, hrun, hl₂, hd₂⟩ := ih (m.step op).2 s₁ hl₁ hn₁ hd₁
    exact ⟨s₂, .cons hstep hrun, hl₂, hd₂⟩

-- The two-zone manager is a stack of independent byte arrays: from program start, any
-- properly nested sequence of calls answers as the stack does and leaves every live
-- frame and the last popped child with the stack's bytes, in separate ranges.
theorem evmMem_refines_stack (ops : List MemOp) (hn : nested 0 ops) :
    ∃ s, Stack.Run ⟨[], none⟩ ops (EVMMem.init.run ops).1 s ∧
      Shows (EVMMem.init.run ops).2 s ∧ Separate (EVMMem.init.run ops).2 ∧
      (EVMMem.init.run ops).2.depth ≤ kMaxMemHandles := by
  obtain ⟨s, hrun, hl, hd⟩ :=
    run_refines ops EVMMem.init ⟨[], none⟩ layout_init hn (Nat.zero_le _)
  exact ⟨s, hrun, hl.toShows, hl.separate, hd⟩

-- A child dirties its memory and returns; its sibling, at the same depth, must read zero.
def siblingCalls : List MemOp :=
  [.Create, .Create, .WriteByte 0 255 100, .Destroy, .Create, .ReadBytes 0 1 100, .Destroy]

theorem evmMem_refines_stack_siblingCalls : nested 0 siblingCalls ∧
    ∃ s, Stack.Run ⟨[], none⟩ siblingCalls (EVMMem.init.run siblingCalls).1 s ∧
      Shows (EVMMem.init.run siblingCalls).2 s ∧ Separate (EVMMem.init.run siblingCalls).2 ∧
      (EVMMem.init.run siblingCalls).2.depth ≤ kMaxMemHandles :=
  ⟨by decide, evmMem_refines_stack siblingCalls (by decide)⟩

end Zeg.Memory
