import Zeg.InputGen.Handover
import Mathlib.Data.List.Sort

-- The ancestors that the witness delivers, from the generator to the guest.
namespace Zeg.InputGen

open Base Zeg.Stream Fork Ancestors List
open Base.Rlp (beBytes)
open Base.BigEndian (spread toNat_ofBytes readBe_spread)

-- The header's list in the Yellow Paper, and the fields that the forks put behind it.
def Header.strings (h : Header) : List Bytes :=
  [h.parentHash.toList, h.ommersHash.toList, h.beneficiary.toList, h.stateRoot.toList, h.transactionsRoot.toList,
   h.receiptsRoot.toList, h.logsBloom.toList, beBytes h.difficulty.toNat, beBytes h.number.toNat,
   beBytes h.gasLimit.toNat, beBytes h.gasUsed.toNat, beBytes h.timestamp.toNat, h.extraData, h.mixHash.toList,
   h.nonce.toList] ++
  (h.baseFeePerGas.map fun n => beBytes n.toNat).toList ++ (h.withdrawalsRoot.map List.Vector.toList).toList ++
  (h.blobGasUsed.map fun n => beBytes n.toNat).toList ++ (h.excessBlobGas.map fun n => beBytes n.toNat).toList ++
  (h.parentBeaconBlockRoot.map List.Vector.toList).toList ++ (h.requestsHash.map List.Vector.toList).toList ++
  (h.blockAccessListHash.map List.Vector.toList).toList ++ (h.slotNumber.map fun n => beBytes n.toNat).toList

def Header.rlp (h : Header) : Bytes := Rlp.encode (.Lst (h.strings.map .Str))

-- The header as its record shows it: what it lacks is zero.
def Header.shown (h : Header) : Zeg.Header.BlockHeader where
  parentHash := h.parentHash
  ommersHash := h.ommersHash
  coinbase := h.beneficiary
  stateRoot := h.stateRoot
  transactionsRoot := h.transactionsRoot
  receiptsRoot := h.receiptsRoot
  logsBloom := h.logsBloom
  difficulty := h.difficulty
  number := h.number
  gasLimit := h.gasLimit
  gasUsed := h.gasUsed
  timestamp := h.timestamp
  extraData := h.extraData
  prevRandao := h.mixHash
  nonce := h.nonce
  baseFeePerGas := BitVec.ofNat 256 (h.baseFeePerGas.getD 0).toNat
  withdrawalsRoot := h.withdrawalsRoot.getD (.replicate 32 0)
  blobGasUsed := h.blobGasUsed.getD 0
  excessBlobGas := h.excessBlobGas.getD 0
  parentBeaconBlockRoot := h.parentBeaconBlockRoot.getD (.replicate 32 0)
  requestsHash := h.requestsHash.getD (.replicate 32 0)
  blockAccessListHash := h.blockAccessListHash.getD (.replicate 32 0)
  slotNumber := h.slotNumber.getD 0
  forkId := forkFromFieldCount (fieldCount h)

section

variable {h : Header} {fork : ForkId}

theorem toList_map_eq {α β : Type} (x : Option α) (f : α → β) (d : α) :
    (x.map f).toList = if x.isSome then [f (x.getD d)] else [] := by
  cases x <;> rfl

theorem strings_shown (hcarries : h.Carries fork) : Zeg.Header.strings h.shown = h.strings := by
  have hcount : forkFieldCount h.shown.forkId = if fork = .Unknown then 15 else forkFieldCount fork := by
    change forkFieldCount (forkFromFieldCount (fieldCount h)) = _
    rw [fieldCount, hcarries.blockAccessListHash, hcarries.requestsHash, hcarries.parentBeaconBlockRoot,
      hcarries.withdrawalsRoot, hcarries.baseFeePerGas]
    cases fork <;> rfl
  simp only [Header.strings, toList_map_eq _ _ (0 : UInt64), toList_map_eq _ _ (List.Vector.replicate 32 (0 : UInt8)),
    hcarries.baseFeePerGas, hcarries.withdrawalsRoot, hcarries.blobGasUsed, hcarries.excessBlobGas,
    hcarries.parentBeaconBlockRoot, hcarries.requestsHash, hcarries.blockAccessListHash, hcarries.slotNumber]
  have hfee : h.shown.baseFeePerGas.toNat = (h.baseFeePerGas.getD 0).toNat := by
    have := (h.baseFeePerGas.getD 0).toNat_lt
    exact (BitVec.toNat_ofNat _ _).trans (Nat.mod_eq_of_lt (by omega))
  rw [Zeg.Header.strings, Zeg.Header.forkStrings, hcount, hfee]
  cases fork <;> simp +decide [Zeg.Header.headerStrings, Header.shown]

theorem encode_shown (hcarries : h.Carries fork) (hextra : h.extraData.length ≤ 32) :
    Zeg.Header.encodeBlockHeaderRlp h.shown = h.rlp := by
  rw [(Zeg.Header.encodeBlockHeaderRlp_eq hextra).1, strings_shown hcarries, Header.rlp]

-- The record

theorem lens_ancestorFields : (ancestorFields h).map List.length =
    [32, 32, 20, 4, 32, 32, 32, 256, 32, 8, 8, 8, 8, 8, 32, 32, 8, 32, 32, 8, 8, 32, 32, 32, 8] := by
  simp [ancestorFields]

theorem ofBytes_toBytes (w : Word) : Word.ofBytes (Word.toBytes w) = w := by
  have hspread : Word.toBytes w = spread 32 w.toNat := by
    refine map_congr_left fun i _ => ?_
    rw [Nat.shiftRight_eq_div_pow, Nat.pow_mul]
  refine BitVec.eq_of_toNat_eq ?_
  rw [toNat_ofBytes, hspread, readBe_spread w.isLt]
  exact Nat.mod_eq_of_lt w.isLt

theorem fieldCount_le (h : Header) : fieldCount h ≤ 23 := by
  unfold fieldCount
  repeat' split
  all_goals decide

theorem view_write (hextra : h.extraData.length ≤ 32) : view (ancestorFields h).flatten = h.shown := by
  have hlens := @lens_ancestorFields h
  have hhash (k : Nat) {hash : Option Bytes32} (hk : (ancestorFields h)[k]? = some (hashField hash)) :=
    @bytesAt_field _ _ hlens k 32 (hash.getD (.replicate 32 0)) (hk.trans (by cases hash <;> rfl))
  have hword (k : Nat) {w : Word} (hk : (ancestorFields h)[k]? = some (Word.toBytes w)) :=
    (congrArg (fun v : Bytes32 => Word.ofBytes v.toList)
      (@bytesAt_field _ _ hlens k 32 ⟨Word.toBytes w, length_toBytes w⟩ hk)).trans (ofBytes_toBytes w)
  have hlen : (u64At (ancestorFields h).flatten 504).toNat = h.extraData.length := by
    have hfield : u64At (ancestorFields h).flatten 504 = UInt64.ofNat (extraLen h) := u64At_field hlens 13 rfl
    rw [hfield, extraLen, Nat.min_eq_left hextra]
    exact UInt64.toNat_ofNat_of_lt' (Nat.lt_of_le_of_lt hextra (by decide))
  refine Zeg.Header.BlockHeader.ext (bytesAt_field hlens 0 rfl) (bytesAt_field hlens 1 rfl) (bytesAt_field hlens 2 rfl)
    (bytesAt_field hlens 4 rfl) (bytesAt_field hlens 5 rfl) (bytesAt_field hlens 6 rfl) (bytesAt_field hlens 7 rfl)
    (hword 8 rfl) (u64At_value hlens 9 rfl) (u64At_value hlens 10 rfl) (u64At_value hlens 11 rfl)
    (u64At_value hlens 12 rfl) ?_ (bytesAt_field hlens 15 rfl) (bytesAt_field hlens 16 rfl) (hword 17 rfl)
    (hhash 18 rfl) (u64At_value hlens 19 rfl) (u64At_value hlens 20 rfl) (hhash 21 rfl) (hhash 22 rfl) (hhash 23 rfl)
    (u64At_value hlens 24 rfl) ?_
  · have hfield : ((ancestorFields h).flatten.drop 512).take (extraField h).length = extraField h :=
      take_field hlens (k := 14) rfl
    rw [length_extraField] at hfield
    change ((ancestorFields h).flatten.drop 512).take (u64At (ancestorFields h).flatten 504).toNat = h.extraData
    rw [hlen, ← Nat.min_eq_left hextra, ← take_take, hfield]
    simp [extraField, extraLen, Nat.min_eq_left hextra]
  · have hfield : ((ancestorFields h).flatten.drop 84).take 4 = putU32 (fieldCount h) := take_field hlens (k := 3) rfl
    have hcount : u32At (ancestorFields h).flatten 84 = fieldCount h := by
      rw [u32At, hfield, putU32, leNat_bytes]
      exact Nat.mod_eq_of_lt (Nat.lt_of_le_of_lt (fieldCount_le h) (by decide))
    exact congrArg forkFromFieldCount hcount

end

-- The order

def Above (a b : Header) : Prop := b.number < a.number

instance : Trans Above Above Above := ⟨fun hab hbc => UInt64.lt_trans hbc hab⟩

instance : Std.Irrefl Above := ⟨fun a => UInt64.lt_irrefl a.number⟩

instance : Std.Antisymm Above := ⟨fun _ _ hab hba => absurd hab (UInt64.lt_asymm hba)⟩

def Descends (keccak : Bytes → Bytes32) (child parent : Header) : Prop :=
  child.number.toNat = parent.number.toNat + 1 ∧ child.parentHash = keccak parent.rlp

section

variable {keccak : Bytes → Bytes32} {chain : List Header}

theorem above_of_chain (hchain : chain.IsChain (Descends keccak)) : chain.Pairwise Above :=
  (hchain.imp fun _ _ h => UInt64.lt_iff_toNat_lt.mpr (by have := h.1; omega)).pairwise

theorem mem_destutter {l : List Header} {a x : Header} (hx : x ∈ a :: l) :
    ∃ y ∈ l.destutter' (fun a b => a.number ≠ b.number) a, y.number = x.number := by
  induction l generalizing a with
  | nil => exact ⟨a, mem_singleton_self a, by rw [mem_singleton.mp hx]⟩
  | cons b l ih =>
    by_cases hne : a.number ≠ b.number
    · rw [List.destutter'_cons, if_pos hne]
      obtain rfl | hx := mem_cons.mp hx
      · exact ⟨x, mem_cons_self, rfl⟩
      · obtain ⟨y, hy, heq⟩ := ih hx
        exact ⟨y, mem_cons_of_mem _ hy, heq⟩
    · rw [List.destutter'_cons, if_neg hne]
      obtain rfl | hx := mem_cons.mp hx
      · exact ih mem_cons_self
      · obtain rfl | hx := mem_cons.mp hx
        · exact ⟨a, mem_destutter' _ _ a, not_not.mp hne⟩
        · exact ih (mem_cons_of_mem _ hx)

theorem sorted_eq {headers : List Header} (habove : chain.Pairwise Above) (hmem : ∀ h, h ∈ headers ↔ h ∈ chain) :
    (headers.mergeSort fun a b => b.number ≤ a.number).destutter (fun a b => a.number ≠ b.number) = chain := by
  have hsorted : (headers.mergeSort fun a b => b.number ≤ a.number).Pairwise fun a b => b.number ≤ a.number := by
    refine (pairwise_mergeSort (fun a b c hab hbc => ?_) (fun a b => ?_) headers).imp of_decide_eq_true
    · exact decide_eq_true (UInt64.le_trans (of_decide_eq_true hbc) (of_decide_eq_true hab))
    · simpa using UInt64.le_total b.number a.number
  have hmem' (h : Header) : h ∈ (headers.mergeSort fun a b => b.number ≤ a.number) ↔ h ∈ chain := by
    rw [mem_mergeSort, hmem]
  generalize (headers.mergeSort fun a b => b.number ≤ a.number) = sorted at hsorted hmem' ⊢
  have hsub := destutter_sublist (fun a b : Header => a.number ≠ b.number) sorted
  refine List.Pairwise.eq_of_mem_iff (r := Above) ?_ habove fun x => ⟨fun hx => (hmem' x).mp (hsub.subset hx), fun hx => ?_⟩
  · have hne := isChain_destutter (fun a b : Header => a.number ≠ b.number) sorted
    have hle := (hsorted.sublist hsub).isChain
    refine (isChain_iff_getElem.mpr fun i hi => ?_ : List.IsChain Above _).pairwise
    exact UInt64.lt_of_le_of_ne (hle.getElem i hi) (hne.getElem i hi).symm
  · have hx' := (hmem' x).mpr hx
    cases sorted with
    | nil => cases hx'
    | cons a l =>
      obtain ⟨y, hy, heq⟩ := mem_destutter hx'
      have hin := (hmem' y).mp (hsub.subset hy)
      have hone : y = x := by
        by_contra hne
        have : Std.Symm fun a b : Header => a.number ≠ b.number := ⟨fun _ _ h => h.symm⟩
        have hdiffer : chain.Pairwise fun a b => a.number ≠ b.number := habove.imp fun h => (UInt64.ne_of_lt h).symm
        exact hdiffer.forall hin hx hne heq
      exact hone ▸ hy

theorem buildAncestors_eq {decode : Bytes → Option Header} {headers : List Bytes} {parent : Header}
    (hchain : (parent :: chain).IsChain (Descends keccak)) (hdecode : ∀ h ∈ parent :: chain, decode h.rlp = some h)
    (hheaders : ∀ raw, raw ∈ headers ↔ ∃ h ∈ parent :: chain, raw = h.rlp) :
    buildAncestorsFromWitness decode headers parent = parent :: chain := by
  have habove := above_of_chain hchain
  have hmem (h : Header) : h ∈ headers.filterMap decode ↔ h ∈ parent :: chain := by
    rw [mem_filterMap]
    constructor
    · rintro ⟨raw, hraw, hsome⟩
      obtain ⟨h', hh', rfl⟩ := (hheaders raw).mp hraw
      cases (hdecode h' hh').symm.trans hsome
      exact hh'
    · exact fun hh => ⟨h.rlp, (hheaders _).mpr ⟨h, hh, rfl⟩, hdecode h hh⟩
  rw [buildAncestorsFromWitness, sorted_eq habove hmem, filter_cons_of_neg (by simp), filter_eq_self.mpr]
  exact fun h hh => decide_eq_true (UInt64.ne_of_lt ((pairwise_cons.mp habove).1 h hh))

-- The records

theorem readViews_write {rest : Bytes} (hextra : ∀ h ∈ chain, h.extraData.length ≤ 32) :
    readViews chain.length ((chain.map fun h => (ancestorFields h).flatten).flatten ++ rest) =
      .ok (chain.map Header.shown) := by
  induction chain with
  | nil => rfl
  | cons h chain ih =>
    have hlens := @lens_ancestorFields h
    have hlen : (ancestorFields h).flatten.length = kRecordSize := length_of_lens hlens
    have hview := view_write (hextra h mem_cons_self)
    have hread : readView (ancestorFields h).flatten = .ok h.shown := by
      have hfield : u64At (ancestorFields h).flatten 504 = UInt64.ofNat (extraLen h) := u64At_field hlens 13 rfl
      have hle : extraLen h ≤ 32 := Nat.min_le_right _ _
      rw [readView, if_neg, hview]
      rw [hfield, UInt64.not_lt, UInt64.le_iff_toNat_le, UInt64.toNat_ofNat_of_lt' (Nat.lt_of_le_of_lt hle (by decide))]
      exact hle
    rw [map_cons, flatten_cons, append_assoc, length_cons, readViews, take_left' hlen,
      drop_left' hlen, hread, ih fun h hh => hextra h (mem_cons_of_mem _ hh)]
    rfl

theorem checkChain_write (hchain : chain.IsChain (Descends keccak)) :
    checkChain (chain.map Header.shown) (chain.map fun h => keccak h.rlp) = .ok () := by
  induction hchain with
  | nil => rfl
  | singleton => rfl
  | @cons_cons child parent rest hlink _ ih =>
    have hnumber : child.number = parent.number + 1 := by
      refine UInt64.toNat_inj.mp ?_
      rw [UInt64.toNat_add, hlink.1]
      exact (Nat.mod_eq_of_lt (hlink.1 ▸ child.number.toNat_lt)).symm
    exact (if_neg (not_not.mpr hnumber)).trans ((if_neg (not_not.mpr hlink.2)).trans ih)

end

-- The witness delivers a chain of headers in any order: the guest takes the newest 256 of them, the parent first,
-- and finds for each the hash of its own encoding.
theorem ancestors_handed_over (keccak : Bytes → Bytes32) (decode : Bytes → Option Header) (parent : Header)
    (chain : List Header) (headers : List Bytes) (rest : Bytes)
    (hchain : (parent :: chain).IsChain (Descends keccak))
    (hextra : ∀ h ∈ parent :: chain, h.extraData.length ≤ 32) (hforks : ∀ h ∈ parent :: chain, ∃ fork, h.Carries fork)
    (hdecode : ∀ h ∈ parent :: chain, decode h.rlp = some h)
    (hheaders : ∀ raw, raw ∈ headers ↔ ∃ h ∈ parent :: chain, raw = h.rlp) :
    readPreviousBlocks keccak (writePreviousBlocks (buildAncestorsFromWitness decode headers parent) ++ rest) =
      .ok (⟨((parent :: chain).take 256).map Header.shown,
        ((parent :: chain).take 256).map fun h => keccak h.rlp⟩, rest) := by
  rw [buildAncestors_eq hchain hdecode hheaders, writePreviousBlocks, maxAncestors]
  have hcount : ((parent :: chain).take 256).length ≤ 256 := by
    rw [List.length_take]
    exact Nat.min_le_left _ _
  have hmem : ∀ h ∈ (parent :: chain).take 256, h ∈ parent :: chain := fun h hh => List.mem_of_mem_take hh
  have hlinked := hchain.take 256
  generalize (parent :: chain).take 256 = taken at hcount hmem hlinked ⊢
  have hlen : ((taken.map fun h => (ancestorFields h).flatten).flatten).length = taken.length * kRecordSize :=
    length_records (fun h => length_of_lens (@lens_ancestorFields h)) taken
  have hhashes : (taken.map Header.shown).map (Zeg.Header.computeBlockHeaderHash keccak) =
      taken.map fun h => keccak h.rlp := by
    rw [List.map_map]
    refine List.map_congr_left fun h hh => ?_
    obtain ⟨fork, hcarries⟩ := hforks h (hmem h hh)
    exact congrArg keccak (encode_shown hcarries (hextra h (hmem h hh)))
  have hread : readU64 (putU64 taken.length ++ ((taken.map fun h => (ancestorFields h).flatten).flatten ++ rest)) =
      .ok (taken.length, (taken.map fun h => (ancestorFields h).flatten).flatten ++ rest) := by
    rw [readU64, if_neg (by simp), List.take_left' (length_putU64 _), List.drop_left' (length_putU64 _), putU64,
      leNat_bytes, Nat.mod_eq_of_lt (Nat.lt_of_le_of_lt hcount (by decide))]
  rw [readPreviousBlocks, List.append_assoc]
  refine bind_eq_ok.2 ⟨_, hread, ?_⟩
  change (if _ then _ else if _ then _ else _) = _
  rw [if_neg, if_neg (Nat.not_lt.mpr hcount)]
  · refine bind_eq_ok.2 ⟨_, readViews_write fun h hh => hextra h (hmem h hh), ?_⟩
    rw [hhashes, advanceChecked, if_neg (by rw [List.length_append, hlen]; omega), List.drop_left' hlen]
    exact bind_eq_ok.2 ⟨_, rfl, bind_eq_ok.2 ⟨_, checkChain_write hlinked, rfl⟩⟩
  · rw [List.length_append, hlen, Nat.not_lt, Nat.le_div_iff_mul_le (by decide)]
    omega

-- Two ancestors, one of them twice, under a hash that is the same for every header.
theorem two_ancestors_handed_over :
    let older := pragueHeader 5 0
    let parent := pragueHeader 6 12
    let decode := fun raw => if raw = parent.rlp then some parent else some older
    ∃ p, readPreviousBlocks (fun _ => .replicate 32 0)
      (writePreviousBlocks (buildAncestorsFromWitness decode [older.rlp, parent.rlp, older.rlp] parent) ++ []) =
        .ok (p, []) ∧ p.views.map (fun v => v.number) = [6, 5] := by
  intro older parent decode
  have hcarries (n t : UInt64) : ∃ fork, (pragueHeader n t).Carries fork := ⟨.Prague, rfl, rfl, rfl, rfl, rfl, rfl, rfl, rfl⟩
  refine ⟨_, ancestors_handed_over _ decode parent [older] _ [] ?_ ?_ ?_ ?_ ?_, rfl⟩
  · exact .cons_cons ⟨rfl, rfl⟩ (.singleton _)
  · exact List.forall_mem_cons.mpr ⟨Nat.zero_le _, List.forall_mem_singleton.mpr (Nat.zero_le _)⟩
  · simp [parent, older, hcarries]
  · have hne : older.rlp ≠ parent.rlp := by decide +kernel
    exact List.forall_mem_cons.mpr ⟨if_pos rfl, List.forall_mem_singleton.mpr (if_neg hne)⟩
  · intro raw
    simp only [List.mem_cons, List.not_mem_nil, or_false, exists_eq_or_imp, exists_eq_left]
    rw [or_comm, or_assoc, or_self]

end Zeg.InputGen
