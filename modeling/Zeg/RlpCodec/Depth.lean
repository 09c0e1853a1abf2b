import Zeg.RlpCodec

-- Reading an encoding in depth: an item, and the items in the payload of every list below it.
namespace Zeg.RlpCodec

open Base Base.Rlp

-- An item with what its payload was found to be made of.
inductive Visited where
  | Item (item : Item) (inside : List Visited)

def Visited.item : Visited → RlpCodec.Item
  | .Item item _ => item

theorem next_shrinks {remaining rest : Bytes} {item : Item} (h : next remaining = .ok (item, rest)) :
    rest.length < remaining.length ∧ (item.kind = .List → item.payload.length < remaining.length) := by
  obtain ⟨hcanonical, hsplit⟩ := next_ok h
  have hpos := hcanonical.raw_pos
  rw [hsplit, List.length_append]
  refine ⟨by omega, fun hkind => ?_⟩
  have hraw := hcanonical.2
  rw [hkind] at hraw
  have := length_wrap item.payload
  rw [hraw]
  dsimp only
  omega

-- The loop over a payload; a list is gone through before the item behind it is read.
def visitAll (payload : Bytes) : Except String (List Visited) :=
  if payload = [] then .ok []
  else
    match _hnext : next payload with
    | .error e => .error e
    | .ok (item, rest) =>
      (if _hkind : item.kind = .List then visitAll item.payload else .ok []).bind fun inside =>
        (visitAll rest).map (.Item item inside :: ·)
termination_by payload.length
decreasing_by
  · exact (next_shrinks _hnext).2 _hkind
  · exact (next_shrinks _hnext).1

def visitInside (item : Item) : Except String (List Visited) :=
  if item.kind = .List then visitAll item.payload else .ok []

def visit (data : Bytes) : Except String Visited :=
  (decodeItem data).bind fun item => (visitInside item).map (.Item item)

theorem visitAll_nil : visitAll [] = .ok [] := by rw [visitAll, if_pos rfl]

theorem visitAll_next {payload rest : Bytes} {item : Item} (h : next payload = .ok (item, rest)) :
    visitAll payload =
      (visitInside item).bind fun inside => (visitAll rest).map (.Item item inside :: ·) := by
  have hne : payload ≠ [] := by
    rintro rfl
    cases h
  rw [visitAll, if_neg hne]
  split
  · rename_i e herror
    rw [h] at herror
    cases herror
  · rename_i item' rest' hnext
    rw [h] at hnext
    cases hnext
    rfl

theorem visitAll_error {payload : Bytes} {e : String} (hne : payload ≠ []) (h : next payload = .error e) :
    visitAll payload = .error e := by
  rw [visitAll, if_neg hne]
  split
  · rename_i e' herror
    rw [h] at herror
    cases herror
    rfl
  · rename_i item rest hnext
    rw [h] at hnext
    cases hnext

-- What was read, as a nested item.
mutual
def Visited.value : Visited → Rlp.Item
  | .Item item inside =>
    match item.kind with
    | .String => .Str item.payload
    | .List => .Lst (values inside)

def values : List Visited → List Rlp.Item
  | [] => []
  | v :: vs => v.value :: values vs
end

-- The items of a payload are laid end to end, in every list below.
mutual
def Visited.Partitions : Visited → Prop
  | .Item item inside =>
    (match item.kind with
      | .String => inside = []
      | .List => inside.flatMap (fun v => v.item.raw) = item.payload) ∧ AllPartition inside

def AllPartition : List Visited → Prop
  | [] => True
  | v :: vs => v.Partitions ∧ AllPartition vs
end

-- What is accepted

-- A payload that was read is made of the items read, and of the encodings of what they hold.
def Spelled (payload : Bytes) : Prop :=
  ∀ vs, visitAll payload = .ok vs →
    vs.flatMap (fun v => v.item.raw) = payload ∧ AllPartition vs ∧ encodeAll (values vs) = payload

theorem visitInside_ok {item : Item} {inside : List Visited} (hcanonical : item.Canonical)
    (hspelled : item.kind = .List → Spelled item.payload) (h : visitInside item = .ok inside) :
    (Visited.Item item inside).Partitions ∧ Rlp.encode (Visited.Item item inside).value = item.raw := by
  have hraw := hcanonical.2
  rw [visitInside] at h
  rw [Visited.Partitions, Visited.value, hraw]
  cases hkind : item.kind with
  | String =>
    rw [hkind, if_neg (by decide)] at h
    cases h
    exact ⟨⟨rfl, trivial⟩, by rw [Rlp.encode]⟩
  | List =>
    rw [hkind, if_pos rfl] at h
    obtain ⟨hitems, hall, hencode⟩ := hspelled hkind inside h
    exact ⟨⟨hitems, hall⟩, by rw [Rlp.encode, hencode]⟩

theorem visitAll_ok (payload : Bytes) : Spelled payload := by
  induction hlen : payload.length using Nat.strong_induction_on generalizing payload with
  | _ n ih =>
    intro vs h
    by_cases hne : payload = []
    · rw [hne, visitAll_nil] at h
      cases h
      rw [hne]
      exact ⟨rfl, trivial, by rw [values, encodeAll]⟩
    · cases hnext : next payload with
      | error e =>
        rw [visitAll_error hne hnext] at h
        cases h
      | ok pair =>
        obtain ⟨item, rest⟩ := pair
        rw [visitAll_next hnext] at h
        obtain ⟨inside, hinside, hrest⟩ := bind_eq_ok.1 h
        obtain ⟨others, hothers, rfl⟩ := map_eq_ok.1 hrest
        obtain ⟨hcanonical, hsplit⟩ := next_ok hnext
        obtain ⟨hshort, hpayload⟩ := next_shrinks hnext
        obtain ⟨hparts, hencode⟩ :=
          visitInside_ok hcanonical (fun hkind => ih _ (hlen ▸ hpayload hkind) _ rfl) hinside
        obtain ⟨hraws, hall, hothers⟩ := ih _ (hlen ▸ hshort) rest rfl others hothers
        refine ⟨?_, ⟨hparts, hall⟩, ?_⟩
        · rw [List.flatMap_cons, hraws, hsplit]
          rfl
        · rw [values, encodeAll, hencode, hothers, hsplit]

theorem visit_ok {data : Bytes} {v : Visited} (h : visit data = .ok v) :
    v.item.Canonical ∧ v.Partitions ∧ Rlp.encode v.value = v.item.raw ∧ ∃ rest, data = v.item.raw ++ rest := by
  obtain ⟨item, hitem, hmap⟩ := bind_eq_ok.1 h
  obtain ⟨inside, hinside, rfl⟩ := map_eq_ok.1 hmap
  obtain ⟨hcanonical, hrest⟩ := decodeItem_ok hitem
  obtain ⟨hparts, hencode⟩ := visitInside_ok hcanonical (fun _ => visitAll_ok _) hinside
  exact ⟨hcanonical, hparts, hencode, hrest⟩

-- What is written is accepted

def frontItem : Rlp.Item → Item
  | .Str bytes => ⟨.String, encodeStr bytes, bytes⟩
  | .Lst items => ⟨.List, wrap (encodeAll items), encodeAll items⟩

theorem frontItem_raw (x : Rlp.Item) : (frontItem x).raw = Rlp.encode x := by
  cases x with
  | Str bytes => rw [Rlp.encode, frontItem]
  | Lst items => rw [Rlp.encode, frontItem]

theorem canonical_frontItem {x : Rlp.Item} (hlen : (Rlp.encode x).length < 2 ^ 64) : (frontItem x).Canonical := by
  cases x with
  | Str bytes =>
    rw [Rlp.encode] at hlen
    exact ⟨Nat.lt_of_le_of_lt (length_le_encodeStr bytes) hlen, rfl⟩
  | Lst items =>
    rw [Rlp.encode] at hlen
    exact ⟨Nat.lt_trans (length_wrap (encodeAll items)) hlen, rfl⟩

def ReadBack (items : List Rlp.Item) : Prop := ∃ vs, visitAll (encodeAll items) = .ok vs ∧ values vs = items

theorem visitInside_frontItem {x : Rlp.Item} (h : ∀ items, x = .Lst items → ReadBack items) :
    ∃ inside, visitInside (frontItem x) = .ok inside ∧ (Visited.Item (frontItem x) inside).value = x := by
  cases x with
  | Str bytes => exact ⟨[], if_neg (nofun : ItemKind.String ≠ .List), rfl⟩
  | Lst items =>
    obtain ⟨inside, hinside, hvalues⟩ := h items rfl
    refine ⟨inside, (if_pos rfl).trans hinside, ?_⟩
    rw [Visited.value, frontItem, hvalues]

theorem visitAll_encodeAll (items : List Rlp.Item) (hlen : (encodeAll items).length < 2 ^ 64) : ReadBack items := by
  induction hn : (encodeAll items).length using Nat.strong_induction_on generalizing items with
  | _ n ih =>
    cases items with
    | nil => exact ⟨[], by rw [encodeAll, visitAll_nil], by rw [values]⟩
    | cons x items =>
      have hpos := length_encode x
      rw [encodeAll, List.length_append] at hlen hn
      have hnext := next_append (canonical_frontItem (x := x) (by omega)) (encodeAll items)
      rw [frontItem_raw] at hnext
      obtain ⟨inside, hinside, hvalue⟩ := @visitInside_frontItem x (by
        rintro items' rfl
        have := length_wrap (encodeAll items')
        rw [Rlp.encode] at hlen hn
        exact ih _ (by omega) items' (by omega) rfl)
      obtain ⟨others, hothers, hvalues⟩ := ih _ (by omega) items (by omega) rfl
      refine ⟨.Item (frontItem x) inside :: others, ?_, ?_⟩
      · rw [encodeAll, visitAll_next hnext, hinside, hothers]
        rfl
      · rw [values, hvalue, hvalues]

theorem visit_encode {x : Rlp.Item} (hlen : (Rlp.encode x).length < 2 ^ 64) (rest : Bytes) :
    ∃ v, visit (Rlp.encode x ++ rest) = .ok v ∧ v.value = x ∧ v.item.raw = Rlp.encode x := by
  have hitem := decodeItem_append (canonical_frontItem hlen) rest
  rw [frontItem_raw] at hitem
  obtain ⟨inside, hinside, hvalue⟩ := @visitInside_frontItem x (by
    rintro items rfl
    have := length_wrap (encodeAll items)
    rw [Rlp.encode] at hlen
    exact visitAll_encodeAll items (by omega))
  refine ⟨.Item (frontItem x) inside, ?_, hvalue, frontItem_raw x⟩
  rw [visit, hitem]
  show (visitInside (frontItem x)).map _ = _
  rw [hinside]
  rfl

end Zeg.RlpCodec
