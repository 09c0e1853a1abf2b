import Zeg.Base.Composition
import Zeg.Mpt
import Mathlib.Data.List.Sort

-- The builder makes the nodes of its entries' trie.
namespace Zeg.Mpt

open Base RlpCodec Base.Patricia Base.Composition List

def Precedes : Path → Path → Prop
  | [], _ :: _ => True
  | a :: p, b :: q => a < b ∨ (a = b ∧ Precedes p q)
  | _, [] => False

def Ordered (entries : List PathEntry) : Prop := entries.Pairwise fun a b => Precedes a.path b.path

def Lists (entries : List PathEntry) (m : Entries) : Prop := ∀ p v, m p = some v ↔ ⟨p, v⟩ ∈ entries

variable {c p q : Path}

theorem precedes_append : Precedes (c ++ p) (c ++ q) ↔ Precedes p q := by
  induction c with
  | nil => rfl
  | cons a c ih => simp [Precedes, ih]

theorem not_precedes_nil (p : Path) : ¬Precedes p [] := by
  cases p <;> exact id

theorem not_precedes_self (p : Path) : ¬Precedes p p := by
  have hself := @precedes_append p [] []
  rw [append_nil] at hself
  exact fun h => not_precedes_nil [] (hself.1 h)

theorem Precedes.head_le {a b : Nibble} (h : Precedes (a :: p) (b :: q)) : a ≤ b := by
  obtain hlt | ⟨heq, -⟩ := h
  · exact le_of_lt hlt
  · exact le_of_eq heq

theorem prefix_between {e : Path} (hp : c <+: p) (hq : c <+: q) (hpe : Precedes p e) (heq : Precedes e q) :
    c <+: e := by
  induction c generalizing p e q with
  | nil => exact nil_prefix
  | cons a c ih =>
    obtain ⟨p, rfl⟩ := hp
    obtain ⟨q, rfl⟩ := hq
    cases e with
    | nil => exact absurd hpe (not_precedes_nil _)
    | cons b e =>
      have hba : b = a := le_antisymm heq.head_le hpe.head_le
      subst hba
      have hpe' : Precedes (c ++ p) e := hpe.elim (fun h => absurd h (lt_irrefl _)) And.right
      have heq' : Precedes e (c ++ q) := heq.elim (fun h => absurd h (lt_irrefl _)) And.right
      exact cons_prefix_cons.2 ⟨rfl, ih (prefix_append c p) (prefix_append c q) hpe' heq'⟩

theorem commonPrefix_prefix_path (p q : Path) : commonPrefix p q <+: p ∧ commonPrefix p q <+: q := by
  induction p generalizing q with
  | nil => simp [commonPrefix]
  | cons a p ih =>
    cases q with
    | nil => simp [commonPrefix]
    | cons b q =>
      simp only [commonPrefix]
      split
      · next h =>
        subst h
        exact ⟨cons_prefix_cons.2 ⟨rfl, (ih q).1⟩, cons_prefix_cons.2 ⟨rfl, (ih q).2⟩⟩
      · exact ⟨List.nil_prefix, List.nil_prefix⟩

theorem prefix_commonPrefix (hp : c <+: p) (hq : c <+: q) : c <+: commonPrefix p q := by
  induction c generalizing p q with
  | nil => exact nil_prefix
  | cons a c ih =>
    obtain ⟨p, rfl⟩ := hp
    obtain ⟨q, rfl⟩ := hq
    rw [cons_append, cons_append, commonPrefix, if_pos rfl]
    exact cons_prefix_cons.2 ⟨rfl, ih (prefix_append c p) (prefix_append c q)⟩

def bucketOf (k : Nibble) (entries : List PathEntry) : List PathEntry := entries.filter fun e => e.path.head? = some k

def belowNibble (k : Nibble) (entries : List PathEntry) : List PathEntry := (bucketOf k entries).map (PathEntry.skip 1)

def skipShared (entries : List PathEntry) : List PathEntry :=
  entries.map (PathEntry.skip (sharedPath entries).length)

section

variable {entries : List PathEntry} {m : Entries}

theorem ends_of_several (hsize : 2 ≤ entries.length) :
    ∃ first middle last, entries = first :: (middle ++ [last]) := by
  cases entries with
  | nil => simp at hsize
  | cons first rest =>
    obtain rfl | ⟨middle, last, rfl⟩ := eq_nil_or_concat rest
    · simp at hsize
    · exact ⟨first, middle, last, by simp⟩

theorem sharedPath_ends (first last : PathEntry) (middle : List PathEntry) :
    sharedPath (first :: (middle ++ [last])) = commonPrefix first.path last.path := by
  rw [sharedPath, List.head?_cons, ← cons_append, List.getLast?_concat]

variable {e : PathEntry}

theorem sharedPath_prefix_path (hordered : Ordered entries) (hsize : 2 ≤ entries.length) (he : e ∈ entries)
    : sharedPath entries <+: e.path := by
  obtain ⟨first, middle, last, rfl⟩ := ends_of_several hsize
  obtain ⟨hfirst, hrest⟩ := pairwise_cons.1 hordered
  obtain ⟨-, -, hlast⟩ := pairwise_append.1 hrest
  obtain ⟨hp, hq⟩ := commonPrefix_prefix_path first.path last.path
  rw [sharedPath_ends]
  simp only [mem_cons, mem_append, not_mem_nil, or_false] at he
  obtain rfl | he | rfl := he
  · exact hp
  · exact prefix_between hp hq (hfirst e (by simp [he])) (hlast e he last (by simp))
  · exact hq

theorem prefix_sharedPath (hsize : 2 ≤ entries.length) {c : Path} (hc : ∀ e ∈ entries, c <+: e.path) :
    c <+: sharedPath entries := by
  obtain ⟨first, middle, last, rfl⟩ := ends_of_several hsize
  rw [sharedPath_ends]
  exact prefix_commonPrefix (hc first (by simp)) (hc last (by simp))

theorem skip_append {c : Path} (h : c <+: e.path) : c ++ (e.skip c.length).path = e.path := by
  obtain ⟨rest, hrest⟩ := h
  simp [PathEntry.skip, ← hrest]

theorem Ordered.skipShared (hordered : Ordered entries) (hsize : 2 ≤ entries.length) : Ordered (skipShared entries) := by
  refine pairwise_map.2 (List.Pairwise.imp_of_mem (fun ha hb hab => ?_) hordered)
  rw [← skip_append (sharedPath_prefix_path hordered hsize ha),
    ← skip_append (sharedPath_prefix_path hordered hsize hb)] at hab
  exact precedes_append.1 hab

theorem mem_bucketOf {k : Nibble} (he : e ∈ bucketOf k entries) : e.path = k :: (e.skip 1).path := by
  have hhead : e.path.head? = some k := by simpa using (mem_filter.1 he).2
  obtain ⟨rest, hrest⟩ := List.head?_eq_some_iff.1 hhead
  simp [PathEntry.skip, hrest]

theorem Ordered.belowNibble (hordered : Ordered entries) (k : Nibble) : Ordered (belowNibble k entries) := by
  refine pairwise_map.2 (List.Pairwise.imp_of_mem (fun {a b} ha hb hab => ?_) (hordered.filter _))
  rw [mem_bucketOf ha, mem_bucketOf hb] at hab
  exact (@precedes_append [k] _ _).1 hab

theorem mem_belowNibble {k : Nibble} :
    e ∈ belowNibble k entries ↔ ⟨k :: e.path, e.value⟩ ∈ entries := by
  simp only [belowNibble, mem_map]
  constructor
  · rintro ⟨x, hx, rfl⟩
    rw [← mem_bucketOf hx]
    exact (mem_filter.1 hx).1
  · intro he
    exact ⟨_, mem_filter.2 ⟨he, by simp⟩, rfl⟩

theorem mem_skipShared (hordered : Ordered entries) (hsize : 2 ≤ entries.length) :
    e ∈ skipShared entries ↔ ⟨sharedPath entries ++ e.path, e.value⟩ ∈ entries := by
  simp only [skipShared, mem_map]
  constructor
  · rintro ⟨x, hx, rfl⟩
    rw [skip_append (sharedPath_prefix_path hordered hsize hx)]
    exact hx
  · intro he
    exact ⟨_, he, by simp [PathEntry.skip]⟩

-- The entries and the map they list.

theorem Lists.skipShared (h : Lists entries m) (hordered : Ordered entries) (hsize : 2 ≤ entries.length) :
    Lists (skipShared entries) (after m (sharedPath entries)) :=
  fun p v => (h _ v).trans (mem_skipShared (e := ⟨p, v⟩) hordered hsize).symm

theorem Lists.belowNibble (h : Lists entries m) (k : Nibble) : Lists (belowNibble k entries) (after m [k]) :=
  fun p v => (h (k :: p) v).trans (mem_belowNibble (e := ⟨p, v⟩)).symm

theorem Lists.ne_none (h : Lists entries m) (he : e ∈ entries) : m e.path ≠ none := by
  rw [(h e.path e.value).2 he]
  nofun

theorem Lists.exists_mem (h : Lists entries m) {p : Path} (hp : m p ≠ none) : ∃ e ∈ entries, e.path = p := by
  obtain ⟨v, hv⟩ := Option.ne_none_iff_exists'.1 hp
  exact ⟨⟨p, v⟩, (h p v).1 hv, rfl⟩

theorem Lists.shared (h : Lists entries m) (hordered : Ordered entries) (hsize : 2 ≤ entries.length) :
    Shared m (sharedPath entries) where
  begins := fun p hp => by
    obtain ⟨e, he, rfl⟩ := h.exists_mem hp
    exact sharedPath_prefix_path hordered hsize he
  longest := fun _ hq => prefix_sharedPath hsize fun _ he => hq _ (h.ne_none he)

theorem Lists.length_of_several (h : Lists entries m) (hseveral : Several m) : 2 ≤ entries.length := by
  obtain ⟨p, q, hne, hp, hq⟩ := hseveral
  obtain ⟨a, ha, rfl⟩ := h.exists_mem hp
  obtain ⟨b, hb, rfl⟩ := h.exists_mem hq
  match entries, ha, hb with
  | [e], ha, hb => exact absurd (by rw [mem_singleton.1 ha, mem_singleton.1 hb]) hne
  | _ :: _ :: _, _, _ => exact Nat.le_add_left 2 _

-- Runs.

structure Runs (runs : List (List PathEntry)) : Prop where
  uniform : ∀ run ∈ runs, ∃ slot, run ≠ [] ∧ ∀ e ∈ run, e.path.head? = slot
  apart : runs.Pairwise fun run run' => ∀ e ∈ run, ∀ e' ∈ run', e.path.head? ≠ e'.path.head?

theorem flatten_buckets (entries : List PathEntry) : (buckets entries).flatten = entries := by
  induction entries with
  | nil => rfl
  | cons e rest ih =>
    rw [buckets]
    split
    · next next run others heq =>
      rw [heq] at ih
      split <;> simp [← ih]
    · simp [ih]

theorem Precedes.head_apart {p q r : Path} (hpq : Precedes p q) (hqr : Precedes q r) (hne : p.head? ≠ q.head?) :
    p.head? ≠ r.head? := by
  cases q with
  | nil => exact absurd hpq (not_precedes_nil p)
  | cons b q =>
    cases r with
    | nil => exact absurd hqr (not_precedes_nil _)
    | cons c r =>
      cases p with
      | nil => nofun
      | cons a p =>
        have hab : a < b := lt_of_le_of_ne hpq.head_le fun h => hne (by rw [h]; rfl)
        have hac := lt_of_lt_of_le hab hqr.head_le
        exact fun h => absurd (Option.some.inj h) (ne_of_lt hac)

theorem runs_buckets (hordered : Ordered entries) : Runs (buckets entries) := by
  induction entries with
  | nil => exact ⟨by simp [buckets], by simp [buckets]⟩
  | cons e rest ih =>
    obtain ⟨hfirst, hrest⟩ := pairwise_cons.1 hordered
    have ih := ih hrest
    have hflat := flatten_buckets rest
    rw [buckets]
    split
    · next next run others heq =>
      rw [heq] at ih hflat
      obtain ⟨hfront, hothers⟩ := pairwise_cons.1 ih.apart
      split
      · next hsame =>
        obtain ⟨slot, -, hslot⟩ := ih.uniform _ mem_cons_self
        refine ⟨?_, pairwise_cons.2 ⟨?_, hothers⟩⟩
        · intro r hr
          obtain rfl | hr := mem_cons.1 hr
          · refine ⟨slot, cons_ne_nil _ _, fun x hx => ?_⟩
            obtain rfl | hx := mem_cons.1 hx
            · exact hsame.trans (hslot next mem_cons_self)
            · exact hslot x hx
          · exact ih.uniform r (mem_cons_of_mem _ hr)
        · intro r hr x hx
          obtain rfl | hx := mem_cons.1 hx
          · rw [hsame]
            exact hfront r hr next mem_cons_self
          · exact hfront r hr x hx
      · next hdiff =>
        refine ⟨?_, pairwise_cons.2 ⟨?_, ih.apart⟩⟩
        · intro r hr
          obtain rfl | hr := mem_cons.1 hr
          · exact ⟨e.path.head?, cons_ne_nil _ _, fun x hx => by rw [mem_singleton.1 hx]⟩
          · exact ih.uniform r hr
        · intro r hr x hx y hy
          rw [mem_singleton.1 hx]
          have hy : y ∈ next :: (run ++ others.flatten) := by
            rw [← cons_append, ← flatten_cons]
            exact mem_flatten.2 ⟨r, hr, hy⟩
          rw [flatten_cons, cons_append] at hflat
          rw [← hflat] at hfirst hrest
          obtain rfl | hy := mem_cons.1 hy
          · exact hdiff
          · exact (hfirst next mem_cons_self).head_apart ((pairwise_cons.1 hrest).1 y hy) hdiff
    · next hnot =>
      cases hb : buckets rest with
      | nil => exact ⟨by simp, by simp⟩
      | cons r others =>
        rw [hb] at ih
        obtain ⟨_, hr, -⟩ := ih.uniform r mem_cons_self
        obtain ⟨next, run, rfl⟩ := exists_cons_of_ne_nil hr
        exact absurd hb (hnot next run others)

def endValue (entries : List PathEntry) : Option Bytes :=
  ((entries.filter fun e => e.path = []).getLast?).map PathEntry.value

theorem Lists.endValue_eq (h : Lists entries m) : endValue entries = m [] := by
  rw [endValue]
  cases hlast : (entries.filter fun e => e.path = []).getLast? with
  | none =>
    rw [Option.map_none]
    cases hm : m [] with
    | none => rfl
    | some v =>
      rw [List.getLast?_eq_none_iff, filter_eq_nil_iff] at hlast
      exact absurd (decide_eq_true rfl) (hlast _ ((h [] v).1 hm))
  | some e =>
    have he := mem_of_getLast? hlast
    rw [mem_filter, decide_eq_true_eq] at he
    rw [Option.map_some]
    exact ((h [] e.value).2 (by rw [← he.2]; exact he.1)).symm

-- Placing the runs fills the slot of each nibble with the node of its entries, and the last one with the value
-- of the key that ends here.
theorem place_runs {keccak : Bytes → Bytes32} {build : List PathEntry → Bytes} {runs : List (List PathEntry)}
    (hruns : Runs runs) (slots : Slots) :
    (runs.foldl (place keccak build) slots).value = ((endValue runs.flatten).map encode).getD slots.value ∧
      ∀ k, (runs.foldl (place keccak build) slots).children k =
        if bucketOf k runs.flatten = [] then slots.children k
        else nodeRef keccak (build (belowNibble k runs.flatten)) := by
  induction runs generalizing slots with
  | nil => exact ⟨rfl, fun k => by simp [bucketOf]⟩
  | cons run runs ih =>
    obtain ⟨hapart, hpairs⟩ := pairwise_cons.1 hruns.apart
    obtain ⟨slot, hne, hslot⟩ := hruns.uniform run mem_cons_self
    have hrest : Runs runs := ⟨fun r hr => hruns.uniform r (mem_cons_of_mem _ hr), hpairs⟩
    obtain ⟨hvalue, hchildren⟩ := ih hrest (place keccak build slots run)
    have hlast := List.getLast?_eq_some_getLast hne
    have hhead := hslot _ (getLast_mem hne)
    -- No later run has this one's slot.
    have hlater : ∀ e ∈ runs.flatten, e.path.head? ≠ slot := by
      intro e he
      obtain ⟨r, hr, he⟩ := mem_flatten.1 he
      obtain ⟨x, hx⟩ := exists_mem_of_ne_nil _ hne
      have hxe := hapart r hr x hx e he
      rw [hslot x hx] at hxe
      exact hxe.symm
    have hsplit : ∀ k, bucketOf k (run ++ runs.flatten) = bucketOf k run ++ bucketOf k runs.flatten :=
      fun k => filter_append _ _
    have hends : (run ++ runs.flatten).filter (fun e => e.path = []) =
        run.filter (fun e => e.path = []) ++ runs.flatten.filter fun e => e.path = [] := filter_append _ _
    have hrun : ∀ k, bucketOf k run = if slot = some k then run else [] := by
      intro k
      split
      · next h => exact filter_eq_self.2 fun e he => by simp [hslot e he, h]
      · next h => exact filter_eq_nil_iff.2 fun e he => by simp [hslot e he, h]
    rw [foldl_cons, flatten_cons]
    cases slot with
    | none =>
      have hpath : ∀ e ∈ run, e.path = [] := fun e he => List.head?_eq_none_iff.1 (hslot e he)
      have hplace : place keccak build slots run = { slots with value := encode (run.getLast hne).value } := by
        simp only [place, hlast, hpath _ (getLast_mem hne)]
      have hnone : runs.flatten.filter (fun e => e.path = []) = [] := by
        refine filter_eq_nil_iff.2 fun e he => ?_
        rw [decide_eq_true_eq]
        exact fun hnil => hlater e he (List.head?_eq_none_iff.2 hnil)
      have hall : run.filter (fun e => e.path = []) = run :=
        filter_eq_self.2 fun e he => decide_eq_true (hpath e he)
      refine ⟨?_, fun k => ?_⟩
      · rw [hvalue, hplace, endValue, endValue, hends, hnone, hall, append_nil, hlast]
        rfl
      · have hother : bucketOf k run = [] := (hrun k).trans (if_neg nofun)
        rw [hchildren k, hplace, belowNibble, belowNibble, hsplit, hother, nil_append]
    | some j =>
      obtain ⟨rest, hpath⟩ := List.head?_eq_some_iff.1 hhead
      have hplace : place keccak build slots run = { slots with
          children := Function.update slots.children j (nodeRef keccak (build (run.map (PathEntry.skip 1)))) } := by
        simp only [place, hlast, hpath]
      have hnone : run.filter (fun e => e.path = []) = [] := by
        refine filter_eq_nil_iff.2 fun e he => ?_
        rw [decide_eq_true_eq]
        intro hnil
        have he := hslot e he
        rw [hnil] at he
        cases he
      have hempty : bucketOf j runs.flatten = [] :=
        filter_eq_nil_iff.2 fun e he => by simpa using hlater e he
      refine ⟨?_, fun k => ?_⟩
      · rw [hvalue, hplace, endValue, endValue, hends, hnone, nil_append]
      · rw [hchildren k, hplace, belowNibble, belowNibble, hsplit, hrun k]
        by_cases hk : k = j
        · subst hk
          simp [hempty, hne]
        · have hjk : ¬(some j = some k) := fun h => hk (Option.some.inj h).symm
          simp [hk, hjk]

-- Nodes.

variable {keccak : Bytes → Bytes32}

theorem buildNode_several (hsize : 2 ≤ entries.length) (fuel : Nat) :
    buildNode keccak (fuel + 1) entries =
      if sharedPath entries ≠ [] then
        extensionNode keccak (sharedPath entries) (buildNode keccak fuel (skipShared entries))
      else branchNode ((buckets entries).foldl (place keccak (buildNode keccak fuel)) .init) := by
  match entries, hsize with
  | _ :: _ :: _, _ => rfl

theorem nodeRef_encode (item : Rlp.Item) : nodeRef keccak (Rlp.encode item) = Rlp.encode (cap keccak item) := by
  unfold nodeRef cap
  split
  · rfl
  · rw [encode_eq (by simp), Rlp.encode]

theorem extensionNode_eq {path : Path} (hpath : path ≠ []) (hlen : path.length ≤ 64) (value : Option Bytes)
    (children : Nibble → Tree) :
    extensionNode keccak path ((Tree.Branch [] value children).encoding keccak) =
      (Tree.Branch path value children).encoding keccak := by
  have hhp := length_hexPrefix path false
  have hstr := Rlp.length_encodeStr_le (hexPrefix path false) (by omega)
  have hcap := length_encode_cap keccak ((Tree.Branch [] value children).item keccak)
  have hall : (Rlp.encodeAll
      [.Str (hexPrefix path false), cap keccak ((Tree.Branch [] value children).item keccak)]).length ≤ 100 := by
    simp only [Rlp.encodeAll, Rlp.encode, length_append, length_nil]
    omega
  have hsize := Rlp.length_encode_lst_le _ (Nat.lt_of_le_of_lt hall (by decide))
  rw [Tree.encoding, Tree.encoding, Tree.item_branch hpath, extItem, extensionNode, nodeRef_encode,
    ← encodeList_eq (by omega), encode_eq (by omega)]
  simp [Rlp.encode]

theorem branchNode_eq {room : Nat} (hroom : room + 1000 ≤ 2 ^ 32) (hordered : Ordered entries) (hlists : Lists entries m)
    (hvalue : ∀ v, m [] = some v → v.length ≤ room) {build : List PathEntry → Bytes} {children : Nibble → Tree}
    (hchildren : ∀ k, (bucketOf k entries = [] ∧ children k = .Empty) ∨
      (bucketOf k entries ≠ [] ∧ build (belowNibble k entries) = (children k).encoding keccak)) :
    branchNode ((buckets entries).foldl (place keccak build) .init) =
      (Tree.Branch [] (m []) children).encoding keccak := by
  obtain ⟨hlast, hslots⟩ := @place_runs keccak build _ (runs_buckets hordered) .init
  rw [flatten_buckets] at hslots hlast
  rw [hlists.endValue_eq] at hlast
  have hrefs : ∀ k, ((buckets entries).foldl (place keccak build) .init).children k =
      Rlp.encode (cap keccak ((children k).item keccak)) := by
    intro k
    rw [hslots k]
    obtain ⟨hempty, ht⟩ | ⟨hsome, hbuild⟩ := hchildren k
    · rw [if_pos hempty, ht]
      rfl
    · rw [if_neg hsome, hbuild, Tree.encoding, nodeRef_encode]
  have hslot : ((m []).map encode).getD Slots.init.value = Rlp.encode (.Str ((m []).getD [])) := by
    cases hm : m [] with
    | none => rfl
    | some v =>
      have hv := hvalue v hm
      exact encode_eq (by omega)
  have hnode := length_encoding_valued keccak (by omega) hvalue children
  rw [Tree.encoding, Tree.item_branch_nil, valuedItem] at hnode ⊢
  rw [branchNode, funext hrefs, hlast, hslot, ← encodeList_eq (by omega)]
  simp

theorem buildNode_leaf {path : Path} {value : Bytes} (hordered : Ordered entries) (hlists : Lists entries m)
    (h : (Tree.Leaf path value).Represents m) (fuel : Nat) :
    buildNode keccak (fuel + 1) entries = (Tree.Leaf path value).encoding keccak := by
  have hmem := (hlists path value).1 h.1
  have hlone : ∀ e ∈ entries, e.path = path := fun e he => by_contra fun hne => hlists.ne_none he (h.2 _ hne)
  match entries, hmem, hlone, hordered with
  | [e], hmem, _, _ =>
    rw [← mem_singleton.1 hmem]
    simp [buildNode, leafNode, Tree.encoding, Tree.item, leafItem, Rlp.encode, Rlp.encodeAll]
  | a :: b :: _, _, hlone, hordered =>
    have hab := (pairwise_cons.1 hordered).1 b mem_cons_self
    rw [hlone a (by simp), hlone b (by simp)] at hab
    exact absurd hab (not_precedes_self path)

theorem Lists.bucketOf_eq_nil (hlists : Lists entries m) (k : Nibble) :
    bucketOf k entries = [] ↔ ∀ p, after m [k] p = none := by
  have hbelow := hlists.belowNibble k
  constructor
  · intro hempty p
    cases hp : after m [k] p with
    | none => rfl
    | some v =>
      have hmem := (hbelow p v).1 hp
      rw [Mpt.belowNibble, hempty] at hmem
      cases hmem
  · intro hnone
    refine eq_nil_iff_forall_not_mem.2 fun e he => ?_
    have hmem : e.skip 1 ∈ Mpt.belowNibble k entries := mem_map_of_mem he
    exact hbelow.ne_none hmem (hnone _)

theorem buildNode_eq {len size room : Nat} (hroom : room + 1000 ≤ 2 ^ 32) (hlen : len ≤ 64) (hm : Within len size room m)
    (hordered : Ordered entries) (hlists : Lists entries m) {t : Tree} (ht : t.Represents m) (hne : entries ≠ [])
    {fuel : Nat} (hfuel : len < fuel) : buildNode keccak fuel entries = t.encoding keccak := by
  induction fuel generalizing entries m t len with
  | zero => omega
  | succ fuel ih =>
    cases t with
    | Empty =>
      obtain ⟨e, he⟩ := exists_mem_of_ne_nil entries hne
      exact absurd (ht e.path) (hlists.ne_none he)
    | Leaf path value => exact buildNode_leaf hordered hlists ht fuel
    | Branch path value children =>
      have hinner := ht.inner
      obtain ⟨hseveral, hshared, hvalue, hchildren⟩ := ht
      have htwo := hlists.length_of_several hseveral
      have hlong := hm.length_shared hseveral hshared
      obtain rfl := hshared.unique (hlists.shared hordered htwo)
      rw [buildNode_several htwo]
      by_cases hpath : sharedPath entries = []
      · -- A branch node: each slot from its own bucket.
        rw [if_neg (not_not.2 hpath)]
        rw [hpath] at hshared hvalue hchildren ⊢
        subst hvalue
        refine branchNode_eq hroom hordered hlists (fun v hv => (hm.branch_value hseveral hshared hv).2) fun k => ?_
        by_cases hempty : bucketOf k entries = []
        · have hnone : Tree.Empty.Represents (after m [k]) := (hlists.bucketOf_eq_nil k).1 hempty
          exact .inl ⟨hempty, (hchildren k).unique hnone⟩
        · obtain ⟨e, he⟩ := exists_mem_of_ne_nil _ hempty
          have hkey := hm.length _ _ ((hlists e.path e.value).2 (mem_filter.1 he).1)
          rw [mem_bucketOf he, length_cons] at hkey
          have hbelow : Mpt.belowNibble k entries ≠ [] := fun h => hempty (map_eq_nil_iff.1 h)
          have hbound : Within (len - 1) size room (after m [k]) := hm.below [k]
          exact .inr ⟨hempty, ih (by omega) hbound (hordered.belowNibble k) (hlists.belowNibble k) (hchildren k) hbelow
            (by omega)⟩
      · -- An extension: one call more for the branch node below it.
        have hpos := length_pos_iff.2 hpath
        have hsome : Mpt.skipShared entries ≠ [] := fun h => hne (map_eq_nil_iff.1 h)
        rw [if_pos hpath, ih (by omega) (hm.below _) (hordered.skipShared htwo) (hlists.skipShared hordered htwo) hinner
          hsome (by omega)]
        exact extensionNode_eq hpath (by omega) value children

end

-- Sorting.

theorem pathLe_trans {r : Path} (hpq : pathLe p q = true) (hqr : pathLe q r = true) : pathLe p r = true := by
  induction p generalizing q r with
  | nil => rfl
  | cons a p ih =>
    cases q with
    | nil => cases hpq
    | cons b q =>
      cases r with
      | nil => cases hqr
      | cons c r =>
        simp only [pathLe, Bool.or_eq_true, Bool.and_eq_true, decide_eq_true_eq, beq_iff_eq] at hpq hqr ⊢
        obtain hab | ⟨rfl, hpq⟩ := hpq
        · obtain hbc | ⟨rfl, -⟩ := hqr
          · exact .inl (by omega)
          · exact .inl hab
        · obtain hbc | ⟨rfl, hqr⟩ := hqr
          · exact .inl hbc
          · exact .inr ⟨rfl, ih hpq hqr⟩

theorem pathLe_total (p q : Path) : (pathLe p q || pathLe q p) = true := by
  induction p generalizing q with
  | nil => rfl
  | cons a p ih =>
    cases q with
    | nil => rfl
    | cons b q =>
      simp only [pathLe, Bool.or_eq_true, Bool.and_eq_true, decide_eq_true_eq, beq_iff_eq] at ih ⊢
      obtain hlt | heq | hgt := Nat.lt_trichotomy a.val b.val
      · exact .inl (.inl hlt)
      · have hab := Fin.ext heq
        exact (ih q).imp (fun h => .inr ⟨hab, h⟩) fun h => .inr ⟨hab.symm, h⟩
      · exact .inr (.inl hgt)

theorem precedes_of_le (hne : p ≠ q) (h : pathLe p q = true) : Precedes p q := by
  induction p generalizing q with
  | nil =>
    cases q with
    | nil => exact absurd rfl hne
    | cons b q => trivial
  | cons a p ih =>
    cases q with
    | nil => cases h
    | cons b q =>
      simp only [pathLe, Bool.or_eq_true, Bool.and_eq_true, decide_eq_true_eq, beq_iff_eq] at h
      obtain hlt | ⟨rfl, hle⟩ := h
      · exact .inl hlt
      · exact .inr ⟨rfl, ih (fun heq => hne (by rw [heq])) hle⟩

theorem ordered_sortEntries {entries : List PathEntry} (h : entries.Pairwise fun a b => a.path ≠ b.path) :
    Ordered (sortEntries entries) := by
  have hperm : (sortEntries entries).Perm entries := mergeSort_perm _ _
  have hdistinct := (hperm.pairwise_iff fun hab => Ne.symm hab).2 h
  have hle : (sortEntries entries).Pairwise fun a b => pathLe a.path b.path = true :=
    @List.pairwise_mergeSort _ (fun a b => pathLe a.path b.path) (fun _ _ _ => pathLe_trans)
      (fun a b => pathLe_total a.path b.path) entries
  exact (hdistinct.and hle).imp fun ⟨hne, hle⟩ => precedes_of_le hne hle

theorem le_foldl_max (ns : List Nat) (m : Nat) : m ≤ ns.foldl max m ∧ ∀ n ∈ ns, n ≤ ns.foldl max m := by
  induction ns generalizing m with
  | nil => simp
  | cons n ns ih =>
    obtain ⟨hmax, hrest⟩ := ih (max m n)
    refine ⟨by rw [foldl_cons]; omega, fun k hk => ?_⟩
    obtain rfl | hk := mem_cons.1 hk
    · rw [foldl_cons]
      omega
    · exact hrest k hk

theorem foldl_max_le {ns : List Nat} {m bound : Nat} (hm : m ≤ bound) (h : ∀ n ∈ ns, n ≤ bound) : ns.foldl max m ≤ bound := by
  induction ns generalizing m with
  | nil => exact hm
  | cons n ns ih => exact ih (Nat.max_le.2 ⟨hm, h n (by simp)⟩) fun k hk => h k (by simp [hk])

theorem le_longest {entries : List PathEntry} {e : PathEntry} (he : e ∈ entries) : e.path.length ≤ longest entries :=
  (le_foldl_max _ 0).2 _ (mem_map_of_mem he)

structure Enumerates (entries : List (Bytes × Bytes)) (m : Bytes → Option Bytes) : Prop where
  distinct : (entries.map Prod.fst).Nodup
  mem : ∀ key value, m key = some value ↔ (key, value) ∈ entries

def mapOf (entries : List (Bytes × Bytes)) (key : Bytes) : Option Bytes :=
  (entries.find? fun e => e.1 = key).map Prod.snd

theorem enumerates_mapOf {entries : List (Bytes × Bytes)} (h : (entries.map Prod.fst).Nodup) :
    Enumerates entries (mapOf entries) where
  distinct := h
  mem := by
    intro key value
    rw [mapOf, Option.map_eq_some_iff]
    constructor
    · rintro ⟨⟨k, v⟩, hfind, rfl⟩
      have hkey : k = key := by simpa using List.find?_some hfind
      subst hkey
      exact mem_of_find?_eq_some hfind
    · intro hmem
      cases hfind : entries.find? fun e => e.1 = key with
      | none =>
        rw [List.find?_eq_none] at hfind
        exact absurd (decide_eq_true rfl) (hfind (key, value) hmem)
      | some e =>
        have hkey : e.1 = key := by simpa using List.find?_some hfind
        have heq := inj_on_of_nodup_map h (mem_of_find?_eq_some hfind) hmem hkey
        exact ⟨e, rfl, by rw [heq]⟩

def byPath (m : Bytes → Option Bytes) : Entries :=
  fun p => if nibblesOf (packNibbles p) = p then m (packNibbles p) else none

theorem byPath_nibblesOf (m : Bytes → Option Bytes) (key : Bytes) : byPath m (nibblesOf key) = m key := by
  rw [byPath, packNibbles_nibblesOf, if_pos rfl]

theorem byPath_eq_some {m : Bytes → Option Bytes} {v : Bytes} :
    byPath m p = some v ↔ ∃ key, m key = some v ∧ nibblesOf key = p := by
  constructor
  · intro h
    rw [byPath] at h
    split at h
    · next heven => exact ⟨_, h, heven⟩
    · cases h
  · rintro ⟨key, hkey, rfl⟩
    rw [byPath_nibblesOf, hkey]

section

variable {m : Bytes → Option Bytes} {entries : List (Bytes × Bytes)}

theorem Enumerates.lists (h : Enumerates entries m) :
    Lists (sortEntries (entries.map fun e => ⟨nibblesOf e.1, e.2⟩)) (byPath m) := by
  intro p v
  rw [byPath_eq_some, sortEntries, mem_mergeSort, mem_map]
  constructor
  · rintro ⟨key, hkey, rfl⟩
    exact ⟨(key, v), (h.mem key v).1 hkey, rfl⟩
  · rintro ⟨⟨key, value⟩, hmem, heq⟩
    obtain ⟨rfl, rfl⟩ := PathEntry.mk.inj heq
    exact ⟨key, (h.mem key value).2 hmem, rfl⟩

theorem Enumerates.ordered (h : Enumerates entries m) :
    Ordered (sortEntries (entries.map fun e => ⟨nibblesOf e.1, e.2⟩)) := by
  refine ordered_sortEntries (pairwise_map.2 ?_)
  exact (pairwise_map.1 h.distinct).imp fun hne heq => hne (nibblesOf_injective heq)

theorem rootHash_eq {size room : Nat} (hroom : room + 1000 ≤ 2 ^ 32) (hm : Within 64 size room (byPath m))
    (henum : Enumerates entries m) {t : Tree} (ht : t.Represents (byPath m)) (keccak : Bytes → Bytes32) :
    rootHash keccak entries = t.root keccak := by
  rw [rootHash]
  split
  · next hempty =>
    subst hempty
    have hnone : Tree.Empty.Represents (byPath m) := fun p => by
      cases hp : byPath m p with
      | none => rfl
      | some v =>
        obtain ⟨key, hkey, -⟩ := byPath_eq_some.1 hp
        cases (henum.mem key v).1 hkey
    rw [ht.unique hnone]
    rfl
  · next hne =>
    have hsome : sortEntries (entries.map fun e => ⟨nibblesOf e.1, e.2⟩) ≠ [] := by
      intro h
      have hlen := congrArg List.length h
      rw [sortEntries, length_mergeSort, length_map, length_nil, length_eq_zero_iff] at hlen
      exact hne hlen
    have hwithin :
        Within (longest (sortEntries (entries.map fun e => ⟨nibblesOf e.1, e.2⟩))) size room (byPath m) :=
      ⟨fun p v hp => le_longest ((henum.lists p v).1 hp), hm.size, hm.inner⟩
    have hshort : longest (sortEntries (entries.map fun e => ⟨nibblesOf e.1, e.2⟩)) ≤ 64 := by
      refine foldl_max_le (Nat.zero_le _) fun n hn => ?_
      obtain ⟨e, he, rfl⟩ := mem_map.1 hn
      exact hm.length e.path e.value ((henum.lists e.path e.value).2 he)
    exact congrArg keccak
      (buildNode_eq hroom hshort hwithin henum.ordered henum.lists ht hsome (Nat.lt_succ_self _))

end

end Zeg.Mpt
