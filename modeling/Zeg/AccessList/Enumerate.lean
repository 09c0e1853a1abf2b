import Zeg.AccessList.Hash

-- The walk along the sorted links meets every row once and in order, or it halts.
namespace Zeg.AccessList

open Base Base.Links StateRoot List Function

def BlockAccessList.closed (b : BlockAccessList) (now : Assignment) (accounts slots : List Nat) : BlockAccessList :=
  { b with
    accounts := fun row =>
      let fields := now.accounts row
      if row ∈ accounts then (b.accounts row).close fields.balance fields.nonce fields.codeHash
      else b.accounts row
    slots := fun row =>
      (b.slots row).map fun s => if row ∈ slots then { s with track := s.track.close (now.storages row) } else s }

section Closed

variable {b : BlockAccessList} {now : Assignment} {accounts slots : List Nat}

theorem closed_nil : b.closed now [] [] = b := by simp [BlockAccessList.closed]

theorem Track.close_close {α : Type} [DecidableEq α] (t : Track α) (c : α) : (t.close c).close c = t.close c := by
  simp [Track.close]

theorem AccountRecord.close_close (r : AccountRecord) (balance : Word) (nonce : UInt64) (codeHash : Bytes32) :
    (r.close balance nonce codeHash).close balance nonce codeHash = r.close balance nonce codeHash := by
  unfold AccountRecord.close
  by_cases hr : r.period = kNone <;> simp [hr]

theorem AccountRecord.accessed_close (r : AccountRecord) (balance : Word) (nonce : UInt64) (codeHash : Bytes32) :
    (r.close balance nonce codeHash).accessed = r.accessed := by
  unfold AccountRecord.close
  split <;> rfl

theorem closeSlot_closed (row : Nat) :
    (b.closed now accounts slots).closeSlot row (now.storages row) = b.closed now accounts (slots ++ [row]) := by
  have hslots : ∀ i, Function.update (b.closed now accounts slots).slots row
      (((b.closed now accounts slots).slots row).map fun s =>
        { s with track := s.track.close (now.storages row) }) i =
      (b.closed now accounts (slots ++ [row])).slots i := by
    intro i
    by_cases hi : i = row
    · subst hi
      simp only [update_self, BlockAccessList.closed, Option.map_map]
      congr 1
      funext s
      by_cases hmem : i ∈ slots <;> simp [hmem, Track.close_close]
    · simp [BlockAccessList.closed, hi]
  unfold BlockAccessList.closeSlot
  rw [funext hslots]
  rfl

theorem closeAccount_closed (row : Nat) :
    (b.closed now accounts slots).closeAccount row (now.accounts row) =
      b.closed now (accounts ++ [row]) slots := by
  have haccounts : ∀ i, Function.update (b.closed now accounts slots).accounts row
      (((b.closed now accounts slots).accounts row).close (now.accounts row).balance (now.accounts row).nonce
        (now.accounts row).codeHash) i = (b.closed now (accounts ++ [row]) slots).accounts i := by
    intro i
    by_cases hi : i = row
    · subst hi
      by_cases hmem : i ∈ accounts <;> simp [BlockAccessList.closed, hmem, AccountRecord.close_close]
    · simp [BlockAccessList.closed, hi]
  unfold BlockAccessList.closeAccount
  rw [funext haccounts]
  rfl

@[simp]
theorem accessed_closed (row : Nat) :
    ((b.closed now accounts slots).accounts row).accessed = (b.accounts row).accessed := by
  simp only [BlockAccessList.closed]
  split
  · exact AccountRecord.accessed_close _ _ _ _
  · rfl

@[simp]
theorem slotAccessed_closed (row : Nat) :
    (b.closed now accounts slots).slotAccessed row = b.slotAccessed row := by
  simp only [BlockAccessList.slotAccessed, BlockAccessList.closed, Option.any_map]
  congr 1
  funext s
  by_cases hmem : row ∈ slots <;> simp [hmem]

end Closed

theorem follows_iff {prev : Option Bytes} {key : Bytes} : follows prev key = true ↔ ∀ p ∈ prev, p < key := by
  cases prev <;> simp [follows]

section Slots

def picked (b : BlockAccessList) (slots : List (StorageRow × Nat)) : List (Bytes32 × Nat) :=
  (slots.filter fun slot => b.slotAccessed slot.2).map fun slot => (slot.1.position, slot.2)

def InOrder (owner : Address) (prev : Option Bytes) (slots : List (StorageRow × Nat)) : Prop :=
  (∀ slot ∈ slots, slot.1.address = owner) ∧ Ascending prev (slots.map fun slot => slot.1.position.toList)

variable {b : BlockAccessList} {now : Assignment} {owner : Address} {accounts : List Nat}

theorem inOrder_cons {prev : Option Bytes} {slot : StorageRow × Nat} {slots : List (StorageRow × Nat)} :
    InOrder owner prev (slot :: slots) ↔
      slot.1.address = owner ∧ follows prev slot.1.position.toList = true ∧
        InOrder owner (some slot.1.position.toList) slots := by
  simp only [InOrder, forall_mem_cons, map_cons, ascending_cons, follows_iff]
  tauto

theorem visitSlot_of_follows {st : SlotWalk} {slot : StorageRow × Nat} {closed : List Nat}
    (hbal : st.bal = b.closed now accounts closed) (howner : slot.1.address = owner)
    (hkey : follows st.prevKey slot.1.position.toList = true) :
    visitSlot now owner st slot = .ok
      ⟨b.closed now accounts (closed ++ (picked b [slot]).map Prod.snd), some slot.1.position.toList,
        st.slots ++ picked b [slot]⟩ := by
  unfold visitSlot
  rw [if_neg (by simp [howner]), if_neg (by simp [hkey])]
  by_cases hacc : b.slotAccessed slot.2 = true
  · simp [hbal, picked, hacc, closeSlot_closed]
  · simp [hbal, picked, hacc]

theorem visitSlots_ok {slots : List (StorageRow × Nat)} {st : SlotWalk} {closed : List Nat}
    (hbal : st.bal = b.closed now accounts closed) (hslots : InOrder owner st.prevKey slots) :
    ∃ prev, slots.foldlM (visitSlot now owner) st = .ok
      ⟨b.closed now accounts (closed ++ (picked b slots).map Prod.snd), prev, st.slots ++ picked b slots⟩ := by
  induction slots generalizing st closed with
  | nil =>
    refine ⟨st.prevKey, ?_⟩
    simp only [picked, filter_nil, map_nil, append_nil, ← hbal]
    rfl
  | cons slot slots ih =>
    obtain ⟨howner, hkey, hslots⟩ := inOrder_cons.1 hslots
    have hvisit := visitSlot_of_follows hbal howner hkey
    obtain ⟨prev, hfold⟩ :=
      @ih ⟨_, some slot.1.position.toList, st.slots ++ picked b [slot]⟩ _ rfl hslots
    refine ⟨prev, ?_⟩
    have hpicked : picked b (slot :: slots) = picked b [slot] ++ picked b slots := by
      simp only [picked, ← map_append, ← filter_append, singleton_append]
    rw [foldlM_cons, hvisit, hpicked, map_append, ← append_assoc, ← append_assoc]
    exact hfold

theorem inOrder_of_visitSlots {slots : List (StorageRow × Nat)} {st st' : SlotWalk}
    (h : slots.foldlM (visitSlot now owner) st = .ok st') : InOrder owner st.prevKey slots := by
  induction slots generalizing st with
  | nil => exact ⟨nofun, ascending_nil _⟩
  | cons slot slots ih =>
    obtain ⟨st1, hvisit, h⟩ := bind_eq_ok.1 h
    have hrest := ih h
    unfold visitSlot at hvisit
    split at hvisit
    · cases hvisit
    · rename_i howner
      split at hvisit
      · cases hvisit
      · rename_i hkey
        have hprev : st1.prevKey = some slot.1.position.toList := by
          dsimp only at hvisit
          split at hvisit <;> cases hvisit <;> rfl
        rw [hprev] at hrest
        exact inOrder_cons.2 ⟨by simpa using howner, by simpa using hkey, hrest⟩

end Slots

section Accounts

variable {t : Tables} {b : BlockAccessList} {now : Assignment}

-- The rows the links below an account meet, as the walk accepts them.
def Walked (t : Tables) (account : AccountRow) (slots : List (StorageRow × Nat)) : Prop :=
  Follows t.storages (fun slot => slot.nextSorted.toNat) kNoLink account.firstSortedStorage.toNat slots ∧
    InOrder account.address none slots

theorem walkSlots_of_walked {account : AccountRow} {slots : List (StorageRow × Nat)} {accounts closed : List Nat}
    {unseen : Nat} (hslots : Walked t account slots) (hlen : slots.length ≤ unseen) :
    ∃ prev, walkSlots t now account (b.closed now accounts closed) unseen = .ok
      (unseen - slots.length,
        ⟨b.closed now accounts (closed ++ (picked b slots).map Prod.snd), prev, picked b slots⟩) := by
  obtain ⟨hfollows, horder⟩ := hslots
  obtain ⟨prev, hfold⟩ := @visitSlots_ok b now account.address accounts slots
    ⟨b.closed now accounts closed, none, []⟩ closed rfl horder
  refine ⟨prev, ?_⟩
  rw [walkSlots, walk_of_follows hfollows hlen, hfold]
  rfl

theorem walked_of_walkSlots {account : AccountRow} {bal : BlockAccessList} {unseen left : Nat} {w : SlotWalk}
    (h : walkSlots t now account bal unseen = .ok (left, w)) :
    ∃ slots, Walked t account slots ∧ slots.length + left = unseen := by
  obtain ⟨slots, hfollows, hlen, hfold⟩ := follows_of_walk h
  exact ⟨slots, ⟨hfollows, inOrder_of_visitSlots hfold⟩, hlen⟩

abbrev Visit := (AccountRow × Nat) × List (StorageRow × Nat)

def Visit.attributed (b : BlockAccessList) (visit : Visit) : Bool :=
  (b.accounts visit.1.2).accessed || (picked b visit.2).isEmpty

def Visit.entries (b : BlockAccessList) (visit : Visit) : List Entry :=
  if (b.accounts visit.1.2).accessed then [⟨visit.1.1.address, visit.1.2, picked b visit.2⟩] else []

-- Where the walk stands after some visits.
structure Stands (b : BlockAccessList) (now : Assignment) (prev : Option Bytes) (unseen : Nat)
    (visits : List Visit) (st : AccountWalk) : Prop where
  bal : st.bal = b.closed now ((visits.flatMap (Visit.entries b)).map Entry.row)
    ((visits.flatMap fun visit => picked b visit.2).map Prod.snd)
  prevAddr : st.prevAddr = prev
  unseenStorages : st.unseenStorages = unseen
  slots : st.slots = visits.flatMap fun visit => picked b visit.2
  entries : st.entries = visits.flatMap (Visit.entries b)

theorem visitAccount_of_walked {prev : Option Bytes} {unseen : Nat} {visits : List Visit} {visit : Visit}
    {st : AccountWalk} (hst : Stands b now prev unseen visits st)
    (haddr : follows prev visit.1.1.address.toList = true) (hslots : Walked t visit.1.1 visit.2)
    (hlen : visit.2.length ≤ unseen) :
    if visit.attributed b then
      ∃ st', visitAccount t now st visit.1 = .ok st' ∧
        Stands b now (some visit.1.1.address.toList) (unseen - visit.2.length) (visits ++ [visit]) st'
    else visitAccount t now st visit.1 = .error "BAL: slot accessed without its account" := by
  obtain ⟨⟨account, row⟩, slots⟩ := visit
  obtain ⟨prevKey, hwalk⟩ := @walkSlots_of_walked t b now account slots
    ((visits.flatMap (Visit.entries b)).map Entry.row)
    ((visits.flatMap fun visit => picked b visit.2).map Prod.snd) unseen hslots hlen
  rw [← hst.bal, ← hst.unseenStorages] at hwalk
  simp only [visitAccount, hst.prevAddr, haddr, hwalk, Bool.not_true, Bool.false_eq_true, if_false]
  simp only [bind, Except.bind, accessed_closed, Visit.attributed]
  cases hacc : (b.accounts row).accessed with
  | true =>
    refine ⟨_, rfl, ?_, rfl, by rw [hst.unseenStorages], ?_, ?_⟩
    · simp [closeAccount_closed, Visit.entries, hacc]
    · simp [hst.slots]
    · simp [hst.entries, Visit.entries, hacc]
  | false =>
    cases hnone : picked b slots with
    | cons slot rest => simp
    | nil =>
      refine ⟨_, rfl, ?_, rfl, by rw [hst.unseenStorages], ?_, ?_⟩
      · simp [Visit.entries, hacc, hnone]
      · simp [hst.slots, hnone]
      · simp [hst.entries, Visit.entries, hacc]

theorem visitAccounts_of_walked {prev : Option Bytes} {unseen : Nat} (past visits : List Visit) {st : AccountWalk}
    (hst : Stands b now prev unseen past st)
    (haddr : Ascending prev (visits.map fun visit => visit.1.1.address.toList))
    (hslots : ∀ visit ∈ visits, Walked t visit.1.1 visit.2) (hlen : (visits.flatMap Prod.snd).length ≤ unseen) :
    if visits.all (Visit.attributed b) then
      ∃ st' prev, (visits.map Prod.fst).foldlM (visitAccount t now) st = .ok st' ∧
        Stands b now prev (unseen - (visits.flatMap Prod.snd).length) (past ++ visits) st'
    else
      (visits.map Prod.fst).foldlM (visitAccount t now) st =
        .error "BAL: slot accessed without its account" := by
  induction visits generalizing prev unseen past st with
  | nil => exact ⟨st, prev, rfl, by simpa using hst⟩
  | cons visit visits ih =>
    rw [map_cons, ascending_cons, ← follows_iff] at haddr
    rw [flatMap_cons, length_append] at hlen
    have hvisit := visitAccount_of_walked hst haddr.1 (hslots visit (by simp)) (by omega)
    rw [all_cons, map_cons, foldlM_cons]
    cases hattr : visit.attributed b with
    | false =>
      simp only [hattr, Bool.false_eq_true, if_false] at hvisit
      simp only [Bool.false_and, Bool.false_eq_true, if_false, hvisit]
      rfl
    | true =>
      simp only [hattr, if_true] at hvisit
      obtain ⟨st', hvisit, hst'⟩ := hvisit
      have hrest := ih (past ++ [visit]) hst' haddr.2 (fun v hv => hslots v (by simp [hv])) (by omega)
      simp only [Bool.true_and, hvisit, flatMap_cons, length_append, ← Nat.sub_sub, bind, Except.bind]
      simpa using hrest

theorem walked_of_visitAccount {st st' : AccountWalk} {account : AccountRow × Nat}
    (h : visitAccount t now st account = .ok st') :
    follows st.prevAddr account.1.address.toList = true ∧ st'.prevAddr = some account.1.address.toList ∧
      ∃ slots, Walked t account.1 slots ∧ slots.length + st'.unseenStorages = st.unseenStorages := by
  unfold visitAccount at h
  split at h
  · cases h
  · rename_i haddr
    obtain ⟨⟨left, w⟩, hwalk, h⟩ := bind_eq_ok.1 h
    obtain ⟨slots, hslots, hlen⟩ := walked_of_walkSlots hwalk
    have hst : st'.prevAddr = some account.1.address.toList ∧ st'.unseenStorages = left := by
      dsimp only at h
      split at h
      · split at h
        · cases h
        · cases h
          exact ⟨rfl, rfl⟩
      · cases h
        exact ⟨rfl, rfl⟩
    exact ⟨by simpa using haddr, hst.1, slots, hslots, by rw [hst.2, hlen]⟩

theorem walked_of_visitAccounts {met : List (AccountRow × Nat)} {st st' : AccountWalk}
    (h : met.foldlM (visitAccount t now) st = .ok st') :
    ∃ visits : List Visit, visits.map Prod.fst = met ∧
      Ascending st.prevAddr (visits.map fun visit => visit.1.1.address.toList) ∧
      (∀ visit ∈ visits, Walked t visit.1.1 visit.2) ∧
      (visits.flatMap Prod.snd).length + st'.unseenStorages = st.unseenStorages := by
  induction met generalizing st with
  | nil =>
    cases h
    exact ⟨[], rfl, ascending_nil _, nofun, by simp⟩
  | cons account met ih =>
    obtain ⟨st1, hvisit, h⟩ := bind_eq_ok.1 h
    obtain ⟨haddr, hprev, slots, hslots, hlen⟩ := walked_of_visitAccount hvisit
    obtain ⟨visits, rfl, hasc, hall, hsum⟩ := ih h
    rw [hprev] at hasc
    refine ⟨(account, slots) :: visits, rfl, ascending_cons.2 ⟨follows_iff.1 haddr, hasc⟩, ?_, ?_⟩
    · intro v hv
      rcases mem_cons.1 hv with rfl | hv
      · exact hslots
      · exact hall v hv
    · simp only [flatMap_cons, length_append]
      omega

end Accounts

-- The links meet every account row once and by address, and below each account its own slot rows
-- once and by position.
def Enumerated (t : Tables) : Prop :=
  ∃ met, Follows t.accounts (fun account => account.nextSorted.toNat) kNoLink t.firstSorted.toNat met ∧
    met.Perm t.accounts.zipIdx ∧ (met.Pairwise fun a b => a.1.address.toList < b.1.address.toList) ∧
    ∀ account ∈ t.accounts, ∃ slots,
      Follows t.storages (fun slot => slot.nextSorted.toNat) kNoLink account.firstSortedStorage.toNat slots ∧
      slots.Perm (t.storages.zipIdx.filter fun slot => slot.1.address = account.address) ∧
      slots.Pairwise fun a b => a.1.position.toList < b.1.position.toList

section Complete

variable {t : Tables} {visits : List Visit}

structure Complete (t : Tables) (visits : List Visit) : Prop where
  follows : Follows t.accounts (fun account => account.nextSorted.toNat) kNoLink t.firstSorted.toNat
    (visits.map Prod.fst)
  ascending : visits.Pairwise fun a b => a.1.1.address.toList < b.1.1.address.toList
  walked : ∀ visit ∈ visits, Walked t visit.1.1 visit.2
  accounts : (visits.map Prod.fst).Perm t.accounts.zipIdx
  storages : (visits.flatMap Prod.snd).Perm t.storages.zipIdx

theorem nodup_of_keys {α : Type} (key : α → Bytes) {rows : List α}
    (h : rows.Pairwise fun a b => key a < key b) : (rows.map key).Nodup := by
  rw [List.Nodup, pairwise_map]
  refine h.imp fun {a b} hlt heq => ?_
  rw [heq] at hlt
  exact List.lt_irrefl _ hlt

theorem Walked.pairwise {account : AccountRow} {slots : List (StorageRow × Nat)} (h : Walked t account slots) :
    slots.Pairwise fun a b => a.1.position.toList < b.1.position.toList := by
  simpa [pairwise_map] using ascending_none.1 h.2.2

theorem Walked.owner {account : AccountRow} {slots : List (StorageRow × Nat)} (h : Walked t account slots)
    {slot : StorageRow × Nat} (hslot : slot ∈ slots) : slot.1.address = account.address := h.2.1 slot hslot

theorem Walked.nodup {account : AccountRow} {slots : List (StorageRow × Nat)} (h : Walked t account slots) :
    slots.Nodup := .of_map _ (nodup_of_keys (fun slot => slot.1.position.toList) h.pairwise)

-- Slots met below different accounts differ, since their owners do.
theorem nodup_flatMap (hasc : visits.Pairwise fun a b => a.1.1.address.toList < b.1.1.address.toList)
    (hwalked : ∀ visit ∈ visits, Walked t visit.1.1 visit.2) : (visits.flatMap Prod.snd).Nodup := by
  rw [List.nodup_flatMap]
  refine ⟨fun v hv => (hwalked v hv).nodup, ?_⟩
  refine hasc.imp_of_mem fun {a b} ha hb hlt => ?_
  intro slot hslota hslotb
  have haddr : a.1.1.address = b.1.1.address :=
    ((hwalked a ha).owner hslota).symm.trans ((hwalked b hb).owner hslotb)
  exact List.lt_irrefl _ (haddr ▸ hlt)

theorem complete_of_lengths
    (hfollows : Follows t.accounts (fun account => account.nextSorted.toNat) kNoLink t.firstSorted.toNat
      (visits.map Prod.fst))
    (hasc : visits.Pairwise fun a b => a.1.1.address.toList < b.1.1.address.toList)
    (hwalked : ∀ visit ∈ visits, Walked t visit.1.1 visit.2)
    (haccounts : (visits.map Prod.fst).length = t.accounts.length)
    (hstorages : (visits.flatMap Prod.snd).length = t.storages.length) : Complete t visits where
  follows := hfollows
  ascending := hasc
  walked := hwalked
  accounts := by
    have hnodup : ((visits.map Prod.fst).map fun account => account.1.address.toList).Nodup := by
      rw [map_map]
      exact nodup_of_keys (fun visit : Visit => visit.1.1.address.toList) hasc
    exact perm_rows (.of_map _ hnodup) (fun v hv => hfollows.mem_rows hv) haccounts
  storages := by
    refine perm_rows (nodup_flatMap hasc hwalked) (fun slot hslot => ?_) hstorages
    obtain ⟨v, hv, hslot⟩ := mem_flatMap.1 hslot
    exact (hwalked v hv).1.mem_rows hslot

theorem Complete.eq_of_address (h : Complete t visits) {v v' : Visit} (hv : v ∈ visits) (hv' : v' ∈ visits)
    (haddr : v.1.1.address = v'.1.1.address) : v = v' :=
  inj_on_of_nodup_map (nodup_of_keys (fun visit : Visit => visit.1.1.address.toList) h.ascending) hv hv'
    (congrArg _ haddr)

theorem Complete.slots (h : Complete t visits) {v : Visit} (hv : v ∈ visits) :
    v.2.Perm (t.storages.zipIdx.filter fun slot => slot.1.address = v.1.1.address) := by
  refine (perm_ext_iff_of_nodup (h.walked v hv).nodup (nodup_rows.filter _)).2 fun slot => ?_
  rw [mem_filter, ← h.storages.mem_iff, mem_flatMap, decide_eq_true_iff]
  constructor
  · intro hslot
    exact ⟨⟨v, hv, hslot⟩, (h.walked v hv).owner hslot⟩
  · rintro ⟨⟨v', hv', hslot⟩, haddr⟩
    have heq : v' = v := h.eq_of_address hv' hv (((h.walked v' hv').owner hslot).symm.trans haddr)
    exact heq ▸ hslot

theorem Complete.exists_visit (h : Complete t visits) {account : AccountRow} (haccount : account ∈ t.accounts) :
    ∃ v ∈ visits, v.1.1 = account := by
  obtain ⟨i, hi⟩ := mem_iff_getElem?.1 haccount
  have hmem : (account, i) ∈ visits.map Prod.fst := h.accounts.mem_iff.2 (mem_zipIdx_iff_getElem?.2 hi)
  obtain ⟨v, hv, heq⟩ := mem_map.1 hmem
  exact ⟨v, hv, congrArg Prod.fst heq⟩

theorem Complete.enumerated (h : Complete t visits) : Enumerated t := by
  refine ⟨_, h.follows, h.accounts, pairwise_map.2 h.ascending, fun account haccount => ?_⟩
  obtain ⟨v, hv, rfl⟩ := h.exists_visit haccount
  exact ⟨v.2, (h.walked v hv).1, h.slots hv, (h.walked v hv).pairwise⟩

theorem Enumerated.complete (h : Enumerated t) : ∃ visits, Complete t visits := by
  obtain ⟨met, hfollows, hperm, hasc, hslots⟩ := h
  choose! slots hslots using hslots
  have hmem : ∀ account ∈ met, account.1 ∈ t.accounts := fun account haccount =>
    mem_of_getElem? (mem_zipIdx_iff_getElem?.1 (hperm.mem_iff.1 haccount))
  let visits : List Visit := met.map fun account => (account, slots account.1)
  have hfst : visits.map Prod.fst = met := by simp [visits, comp_def]
  have hasc' : visits.Pairwise fun a b => a.1.1.address.toList < b.1.1.address.toList :=
    pairwise_map.2 hasc
  have hwalked : ∀ visit ∈ visits, Walked t visit.1.1 visit.2 := by
    intro visit hvisit
    obtain ⟨account, haccount, rfl⟩ := mem_map.1 hvisit
    obtain ⟨hf, hp, hpos⟩ := hslots account.1 (hmem account haccount)
    refine ⟨hf, fun slot hslot => ?_, ascending_none.2 (pairwise_map.2 hpos)⟩
    simpa using (mem_filter.1 (hp.mem_iff.1 hslot)).2
  refine ⟨visits, hfst.symm ▸ hfollows, hasc', hwalked, hfst.symm ▸ hperm, ?_⟩
  refine (perm_ext_iff_of_nodup (nodup_flatMap hasc' hwalked) nodup_rows).2 fun slot => ?_
  rw [mem_flatMap]
  constructor
  · rintro ⟨visit, hvisit, hslot⟩
    exact (hwalked visit hvisit).1.mem_rows hslot
  · intro hslot
    -- the slot's owner has a row, and the links below that row meet the slot
    obtain ⟨account, haccount, haddr⟩ :=
      t.owned slot.1 (mem_of_getElem? (mem_zipIdx_iff_getElem?.1 hslot))
    obtain ⟨i, hi⟩ := mem_iff_getElem?.1 haccount
    have hmet : (account, i) ∈ met := hperm.mem_iff.2 (mem_zipIdx_iff_getElem?.2 hi)
    refine ⟨_, mem_map.2 ⟨_, hmet, rfl⟩, ?_⟩
    rw [(hslots account haccount).2.1.mem_iff]
    exact mem_filter.2 ⟨hslot, by simp [haddr]⟩

end Complete

def Attributed (t : Tables) (b : BlockAccessList) : Prop :=
  ∀ slot ∈ t.storages.zipIdx, b.slotAccessed slot.2 = true →
    ∀ account ∈ t.accounts.zipIdx, account.1.address = slot.1.address → (b.accounts account.2).accessed = true

-- The accessed accounts by address, each with its accessed slots by position, and their records closed.
structure Listed (t : Tables) (now : Assignment) (b closed : BlockAccessList) (entries : List Entry) : Prop where
  sorted : entries.Pairwise fun a b => a.address.toList < b.address.toList
  accounts : ∀ address row, (∃ entry ∈ entries, entry.address = address ∧ entry.row = row) ↔
    (t.accounts[row]?.map AccountRow.address) = some address ∧ (b.accounts row).accessed = true
  slotsSorted : ∀ entry ∈ entries, entry.slots.Pairwise fun a b => a.1.toList < b.1.toList
  slots : ∀ entry ∈ entries, ∀ position row, (position, row) ∈ entry.slots ↔
    (t.storages[row]?.map fun slot => (slot.address, slot.position)) = some (entry.address, position) ∧
      b.slotAccessed row = true
  closed : closed = b.closed now (entries.map Entry.row) ((entries.flatMap Entry.slots).map Prod.snd)

section Listed

variable {t : Tables} {now : Assignment} {b : BlockAccessList} {visits : List Visit}

theorem Complete.attributed_iff (h : Complete t visits) :
    visits.all (Visit.attributed b) = true ↔ Attributed t b := by
  rw [all_eq_true]
  constructor
  · intro hall slot hslot hacc account haccount haddr
    obtain ⟨v, hv, rfl⟩ := mem_map.1 (h.accounts.mem_iff.2 haccount)
    have hmem : slot ∈ v.2 := (h.slots hv).mem_iff.2 (mem_filter.2 ⟨hslot, by simp [haddr]⟩)
    have hpicked : (slot.1.position, slot.2) ∈ picked b v.2 :=
      mem_map.2 ⟨slot, mem_filter.2 ⟨hmem, hacc⟩, rfl⟩
    rcases Bool.or_eq_true_iff.1 (hall v hv) with hv | hv
    · exact hv
    · rw [isEmpty_iff.1 hv] at hpicked
      cases hpicked
  · intro hattr v hv
    rw [Visit.attributed, Bool.or_eq_true_iff]
    rcases hpicked : picked b v.2 with _ | ⟨pick, rest⟩
    · exact .inr rfl
    · have hmem : pick ∈ picked b v.2 := by simp [hpicked]
      obtain ⟨slot, hslot, rfl⟩ := mem_map.1 hmem
      obtain ⟨hslot, hacc⟩ := mem_filter.1 hslot
      refine .inl (hattr slot ((h.walked v hv).1.mem_rows hslot) hacc v.1 ?_ ((h.walked v hv).owner hslot).symm)
      exact h.accounts.mem_iff.1 (mem_map_of_mem hv)

theorem mem_entries {entry : Entry} : entry ∈ visits.flatMap (Visit.entries b) ↔
    ∃ v ∈ visits, (b.accounts v.1.2).accessed = true ∧ entry = ⟨v.1.1.address, v.1.2, picked b v.2⟩ := by
  rw [mem_flatMap]
  refine exists_congr fun v => and_congr_right fun _ => ?_
  unfold Visit.entries
  split <;> simp_all

-- An account without slots of its own in the list contributes none to the closed ones.
theorem flatMap_entries_slots (hattr : visits.all (Visit.attributed b) = true) :
    (visits.flatMap (Visit.entries b)).flatMap Entry.slots = visits.flatMap fun visit => picked b visit.2 := by
  rw [flatMap_assoc]
  refine flatMap_congr fun v hv => ?_
  have hv := all_eq_true.1 hattr v hv
  unfold Visit.attributed at hv
  unfold Visit.entries
  cases hacc : (b.accounts v.1.2).accessed with
  | true => simp
  | false =>
    rw [hacc, Bool.false_or, List.isEmpty_iff] at hv
    rw [hv]
    rfl

theorem Complete.listed (h : Complete t visits) (hattr : visits.all (Visit.attributed b) = true)
    {closed : BlockAccessList}
    (hclosed : closed = b.closed now ((visits.flatMap (Visit.entries b)).map Entry.row)
      ((visits.flatMap fun visit => picked b visit.2).map Prod.snd)) :
    Listed t now b closed (visits.flatMap (Visit.entries b)) where
  sorted := by
    rw [pairwise_flatMap]
    constructor
    · intro v _
      unfold Visit.entries
      split <;> simp
    · refine h.ascending.imp fun {v v'} hlt a ha b' hb' => ?_
      unfold Visit.entries at ha hb'
      split at ha <;> split at hb' <;> simp_all
  accounts := by
    intro address row
    constructor
    · rintro ⟨entry, hentry, rfl, rfl⟩
      obtain ⟨v, hv, hacc, rfl⟩ := mem_entries.1 hentry
      have hrow := mem_zipIdx_iff_getElem?.1 (h.accounts.mem_iff.1 (mem_map_of_mem hv))
      exact ⟨by simp [hrow], hacc⟩
    · rintro ⟨hrow, hacc⟩
      obtain ⟨account, haccount, rfl⟩ := Option.map_eq_some_iff.1 hrow
      have hmem : (account, row) ∈ visits.map Prod.fst :=
        h.accounts.mem_iff.2 (mem_zipIdx_iff_getElem?.2 haccount)
      obtain ⟨v, hv, heq⟩ := mem_map.1 hmem
      refine ⟨_, mem_entries.2 ⟨v, hv, ?_, rfl⟩, ?_, ?_⟩
      · rw [heq]
        exact hacc
      · rw [heq]
      · rw [heq]
  slotsSorted := by
    intro entry hentry
    obtain ⟨v, hv, _, rfl⟩ := mem_entries.1 hentry
    exact pairwise_map.2 ((h.walked v hv).pairwise.filter _)
  slots := by
    intro entry hentry position row
    obtain ⟨v, hv, _, rfl⟩ := mem_entries.1 hentry
    constructor
    · intro hmem
      obtain ⟨slot, hslot, heq⟩ := mem_map.1 hmem
      cases heq
      obtain ⟨hslot, hacc⟩ := mem_filter.1 hslot
      have hrow := mem_zipIdx_iff_getElem?.1 ((h.walked v hv).1.mem_rows hslot)
      refine ⟨?_, hacc⟩
      simp [hrow, (h.walked v hv).owner hslot]
    · rintro ⟨hrow, hacc⟩
      obtain ⟨slot, hslot, heq⟩ := Option.map_eq_some_iff.1 hrow
      obtain ⟨haddr, hpos⟩ := Prod.mk.inj heq
      refine mem_map.2 ⟨(slot, row), mem_filter.2 ⟨?_, hacc⟩, by rw [hpos]⟩
      rw [(h.slots hv).mem_iff]
      exact mem_filter.2 ⟨mem_zipIdx_iff_getElem?.2 hslot, by simp [haddr]⟩
  closed := by rw [flatMap_entries_slots hattr, hclosed]

end Listed

section Counts

theorem countP_set {f g : Nat → Bool} {row n : Nat} (hrow : row < n) (hset : g row = true)
    (hother : ∀ i, i ≠ row → g i = f i) :
    (List.range n).countP g = if f row then (List.range n).countP f else (List.range n).countP f + 1 := by
  induction n with
  | zero => omega
  | succ n ih =>
    simp only [range_succ, countP_append, countP_singleton]
    by_cases hn : row = n
    · subst hn
      have hsame : (List.range row).countP g = (List.range row).countP f :=
        countP_congr fun i hi => by rw [hother i (Nat.ne_of_lt (mem_range.1 hi))]
      rw [hsame, hset]
      cases f row <;> simp
    · rw [ih (by omega), hother n (Ne.symm hn)]
      split <;> omega

structure Counted.Exact (t : Tables) (c : Counted) : Prop where
  accounts : c.accessedAccounts = (List.range t.accounts.length).countP fun row => (c.accounts row).accessed
  slots : c.accessedSlots = (List.range t.storages.length).countP c.slotAccessed

theorem exact_init (t : Tables) : Counted.init.Exact t where
  accounts := by simp [Counted.init, BlockAccessList.init, AccountRecord.init]
  slots := by
    refine (countP_eq_zero.2 fun row _ => ?_).symm
    simp [Counted.init, BlockAccessList.init, BlockAccessList.slotAccessed]

variable {t : Tables} {c : Counted}

theorem Counted.Exact.mark (h : c.Exact t) {m : Mark} (hm : m.InRange t) : (c.mark m).Exact t := by
  cases m with
  | AccessAccount row =>
    refine ⟨?_, h.slots⟩
    rw [countP_set hm (f := fun row => (c.accounts row).accessed)]
    · exact if_congr Iff.rfl h.accounts (congrArg (· + 1) h.accounts)
    · simp [Counted.mark, Counted.accessAccount, BlockAccessList.accessAccount]
    · intro i hi
      simp [Counted.mark, Counted.accessAccount, BlockAccessList.accessAccount, hi]
  | BeforeWrite row balance nonce codeHash =>
    refine ⟨?_, h.slots⟩
    rw [countP_set hm (f := fun row => (c.accounts row).accessed)]
    · exact if_congr Iff.rfl h.accounts (congrArg (· + 1) h.accounts)
    · simp only [Counted.mark, Counted.beforeWrite, BlockAccessList.beforeWrite, update_self]
      split
      · rfl
      · exact AccountRecord.accessed_close _ _ _ _
    · intro i hi
      simp [Counted.mark, Counted.beforeWrite, BlockAccessList.beforeWrite, hi]
  | LoadSlot row =>
    refine ⟨h.accounts, ?_⟩
    rw [countP_set hm (f := c.slotAccessed)]
    · exact if_congr Iff.rfl h.slots (congrArg (· + 1) h.slots)
    · simp [Counted.mark, Counted.loadSlot, BlockAccessList.loadSlot, BlockAccessList.slotAccessed]
    · intro i hi
      simp [Counted.mark, Counted.loadSlot, BlockAccessList.loadSlot, BlockAccessList.slotAccessed, hi]
  | OpenSlot row current =>
    refine ⟨h.accounts, h.slots.trans (countP_congr fun i _ => ?_)⟩
    by_cases hi : i = row
    · subst hi
      simp [Counted.mark, Counted.openSlot, BlockAccessList.openSlot, BlockAccessList.slotAccessed,
        Option.any_map]
    · simp [Counted.mark, Counted.openSlot, BlockAccessList.openSlot, BlockAccessList.slotAccessed, hi]
  | SetIndex index => exact ⟨h.accounts, h.slots⟩

theorem exact_marks {marks : List Mark} (hmarks : ∀ m ∈ marks, m.InRange t) (hc : c.Exact t) :
    (marks.foldl Counted.mark c).Exact t := by
  induction marks generalizing c with
  | nil => exact hc
  | cons m marks ih =>
    exact ih (fun m hm => hmarks m (by simp [hm])) (hc.mark (hmarks m (by simp)))

theorem countP_zipIdx {ρ : Type} (rows : List ρ) (flag : Nat → Bool) :
    rows.zipIdx.countP (fun v => flag v.2) = (List.range rows.length).countP flag := by
  rw [range_eq_range', ← zipIdx_map_snd 0 rows, countP_map]
  rfl

variable {visits : List Visit}

theorem Complete.length_entries (h : Complete t visits) (hc : c.Exact t) :
    (visits.flatMap (Visit.entries c.toBlockAccessList)).length = c.accessedAccounts := by
  rw [hc.accounts, ← countP_zipIdx t.accounts, ← h.accounts.countP_eq, countP_map]
  clear h
  induction visits with
  | nil => rfl
  | cons v visits ih =>
    rw [flatMap_cons, length_append, ih, countP_cons]
    unfold Visit.entries
    dsimp only [comp_def]
    split
    · rw [length_singleton, Nat.add_comm]
    · simp

theorem Complete.length_slots (h : Complete t visits) (hc : c.Exact t) :
    (visits.flatMap fun visit => picked c.toBlockAccessList visit.2).length = c.accessedSlots := by
  rw [hc.slots, ← countP_zipIdx t.storages, ← h.storages.countP_eq]
  simp only [picked, countP_eq_length_filter, filter_flatMap, length_flatMap, length_map]

end Counts

section Halts

def linkHalts : List String :=
  ["BAL: bad account link", "BAL: account links not strictly increasing", "BAL: bad storage link",
    "BAL: storage link leaves its account", "BAL: storage links not strictly increasing",
    "BAL: sorted links don't cover every row"]

variable {t : Tables} {now : Assignment} {b : BlockAccessList}

theorem visitSlot_error {owner : Address} {st : SlotWalk} {slot : StorageRow × Nat} {m : String}
    (h : visitSlot now owner st slot = .error m) : m ∈ linkHalts := by
  unfold visitSlot at h
  split at h
  · cases h
    decide
  · split at h
    · cases h
      decide
    · dsimp only at h
      split at h <;> cases h

theorem walkSlots_error {account : AccountRow} {bal : BlockAccessList} {unseen : Nat} {m : String}
    (h : walkSlots t now account bal unseen = .error m) : m ∈ linkHalts := by
  obtain rfl | ⟨st, slot, _, _, hvisit⟩ := walk_eq_error (I := fun _ => True) (fun _ _ _ _ _ => trivial) trivial h
  · decide
  · exact visitSlot_error hvisit

-- The walk closes periods only, so the flags it reads are those it started with.
def Closing (b : BlockAccessList) (now : Assignment) (st : AccountWalk) : Prop :=
  ∃ accounts slots, st.bal = b.closed now accounts slots

theorem walkSlots_closing {account : AccountRow} {accounts closed : List Nat} {unseen left : Nat} {w : SlotWalk}
    (h : walkSlots t now account (b.closed now accounts closed) unseen = .ok (left, w)) :
    ∃ slots, Walked t account slots ∧ w.slots = picked b slots ∧
      w.bal = b.closed now accounts (closed ++ (picked b slots).map Prod.snd) := by
  obtain ⟨slots, hslots, hlen⟩ := walked_of_walkSlots h
  obtain ⟨prev, hwalk⟩ := @walkSlots_of_walked t b now account slots accounts closed unseen hslots (by omega)
  rw [hwalk] at h
  cases h
  exact ⟨slots, hslots, rfl, rfl⟩

theorem visitAccount_closing {st st' : AccountWalk} {account : AccountRow × Nat} (hst : Closing b now st)
    (h : visitAccount t now st account = .ok st') : Closing b now st' := by
  obtain ⟨accounts, closed, hbal⟩ := hst
  unfold visitAccount at h
  split at h
  · cases h
  · obtain ⟨⟨left, w⟩, hwalk, h⟩ := bind_eq_ok.1 h
    rw [hbal] at hwalk
    obtain ⟨slots, _, _, hw⟩ := walkSlots_closing hwalk
    dsimp only at h
    split at h
    · split at h
      · cases h
      · cases h
        exact ⟨_, _, hw⟩
    · cases h
      exact ⟨_, _, by rw [hw, closeAccount_closed]⟩

theorem visitAccount_error {st : AccountWalk} {account : AccountRow × Nat} {m : String} (hst : Closing b now st)
    (haccount : account ∈ t.accounts.zipIdx) (h : visitAccount t now st account = .error m) :
    m ∈ linkHalts ∨ m = "BAL: slot accessed without its account" ∧ ¬ Attributed t b := by
  obtain ⟨accounts, closed, hbal⟩ := hst
  unfold visitAccount at h
  split at h
  · cases h
    exact .inl (by decide)
  · rw [hbal] at h
    cases hwalk : walkSlots t now account.1 (b.closed now accounts closed) st.unseenStorages with
    | error m' =>
      rw [hwalk] at h
      cases h
      exact .inl (walkSlots_error hwalk)
    | ok r =>
      obtain ⟨slots, hslots, hpicked, hw⟩ := walkSlots_closing hwalk
      simp only [hwalk, bind, Except.bind] at h
      split at h
      · rename_i hacc
        split at h
        · rename_i hsome
          cases h
          refine .inr ⟨rfl, fun hattr => ?_⟩
          obtain ⟨pick, hpick⟩ := exists_mem_of_ne_nil _ hsome
          rw [hpicked] at hpick
          obtain ⟨slot, hslot, rfl⟩ := mem_map.1 hpick
          obtain ⟨hslot, hslotAcc⟩ := mem_filter.1 hslot
          have := hattr slot (hslots.1.mem_rows hslot) hslotAcc account haccount (hslots.owner hslot).symm
          simp [hw, this] at hacc
        · cases h
      · cases h

end Halts

theorem collectEntries_of_complete {t : Tables} {now : Assignment} {gasLimit : Nat} {c : Counted}
    {visits : List Visit} (hc : c.Exact t)
    (hlimit : c.accessedAccounts + c.accessedSlots ≤ gasLimit / kBalItemCost) (h : Complete t visits) :
    if visits.all (Visit.attributed c.toBlockAccessList) then
      ∃ closed, Listed t now c.toBlockAccessList closed (visits.flatMap (Visit.entries c.toBlockAccessList)) ∧
        collectEntries t now gasLimit c = .ok (closed, visits.flatMap (Visit.entries c.toBlockAccessList))
    else collectEntries t now gasLimit c = .error "BAL: slot accessed without its account" := by
  have haccounts : (visits.map Prod.fst).length = t.accounts.length := by simpa using h.accounts.length_eq
  have hstorages : (visits.flatMap Prod.snd).length = t.storages.length := by
    simpa only [length_zipIdx] using h.storages.length_eq
  have hstart : Stands c.toBlockAccessList now none t.storages.length []
      ⟨c.toBlockAccessList, none, t.storages.length, [], []⟩ := ⟨closed_nil.symm, rfl, rfl, rfl, rfl⟩
  have hfold := visitAccounts_of_walked [] visits hstart
    (ascending_none.2 (pairwise_map.2 h.ascending)) h.walked hstorages.le
  have hwalk := @walk_of_follows _ _ _ _ _ _ "BAL: bad account link" (visitAccount t now) _ _ _ h.follows
    haccounts.le ⟨c.toBlockAccessList, none, t.storages.length, [], []⟩
  unfold collectEntries
  rw [if_neg (Nat.not_lt.2 hlimit), hwalk]
  split at hfold
  · rename_i hattr
    obtain ⟨st, prev, hfold, hst⟩ := hfold
    rw [nil_append] at hst
    rw [if_pos hattr, hfold]
    refine ⟨st.bal, h.listed hattr hst.bal, ?_⟩
    simp only [Except.map, bind, Except.bind]
    rw [if_neg, if_neg, hst.entries]
    · simp [hst.entries, hst.slots, h.length_entries hc, h.length_slots hc]
    · simp [hst.unseenStorages, haccounts, hstorages]
  · rename_i hattr
    rw [if_neg hattr, hfold]
    rfl

theorem complete_of_walk {t : Tables} {now : Assignment} {b : BlockAccessList} {st : AccountWalk}
    (h : walk t.accounts (fun account => account.nextSorted.toNat) kNoLink "BAL: bad account link"
      (visitAccount t now) t.accounts.length t.firstSorted.toNat ⟨b, none, t.storages.length, [], []⟩ =
        .ok (0, st)) (hst : st.unseenStorages = 0) : ∃ visits, Complete t visits := by
  obtain ⟨met, hfollows, hlen, hfold⟩ := follows_of_walk h
  obtain ⟨visits, rfl, hasc, hwalked, hsum⟩ := walked_of_visitAccounts hfold
  refine ⟨visits, complete_of_lengths hfollows ?_ hwalked hlen ?_⟩
  · simpa [pairwise_map] using ascending_none.1 hasc
  · rw [hst] at hsum
    exact hsum

theorem collectEntries_error {t : Tables} {now : Assignment} {gasLimit : Nat} {c : Counted}
    (hlimit : c.accessedAccounts + c.accessedSlots ≤ gasLimit / kBalItemCost) (h : ¬ Enumerated t) :
    ∃ m, collectEntries t now gasLimit c = .error m ∧ (m ∈ linkHalts ∨
      m = "BAL: slot accessed without its account" ∧ ¬ Attributed t c.toBlockAccessList) := by
  unfold collectEntries
  rw [if_neg (Nat.not_lt.2 hlimit)]
  cases hwalk : walk t.accounts (fun account => account.nextSorted.toNat) kNoLink "BAL: bad account link"
      (visitAccount t now) t.accounts.length t.firstSorted.toNat
      ⟨c.toBlockAccessList, none, t.storages.length, [], []⟩ with
  | error m =>
    refine ⟨m, rfl, ?_⟩
    obtain rfl | ⟨st, account, hst, haccount, hvisit⟩ :=
      walk_eq_error (I := Closing c.toBlockAccessList now) (fun _ _ _ hst h => visitAccount_closing hst h)
        ⟨[], [], closed_nil.symm⟩ hwalk
    · exact .inl (by decide)
    · exact visitAccount_error hst haccount hvisit
  | ok r =>
    obtain ⟨left, st⟩ := r
    refine ⟨"BAL: sorted links don't cover every row", ?_, .inl (by decide)⟩
    simp only [bind, Except.bind]
    rw [if_pos]
    by_contra hcover
    obtain ⟨hleft, hunseen⟩ := not_or.1 hcover
    rw [not_not.1 hleft] at hwalk
    obtain ⟨visits, hvisits⟩ := complete_of_walk hwalk (not_not.1 hunseen)
    exact h hvisits.enumerated

-- The walk ends on every assignment of links: with the hash of the accessed rows in order when the
-- links enumerate the tables, at a link otherwise. A slot marked without its account halts it too.
theorem sorted_links_exact (codeOf : Bytes32 → Except String Bytes) (keccak : Bytes → Bytes32) (t : Tables)
    (now : Assignment) (gasLimit : Nat) (marks : List Mark) (hmarks : ∀ m ∈ marks, m.InRange t) :
    let bal := marks.foldl Counted.mark .init
    let hash := buildBlockAccessListHash codeOf keccak t now gasLimit bal
    if gasLimit / kBalItemCost < bal.accessedAccounts + bal.accessedSlots then
      hash = .error "block access list exceeds the gas limit (BLOCK_ACCESS_LIST_GAS_LIMIT_EXCEEDED)"
    else
      (Enumerated t → Attributed t bal.toBlockAccessList →
        ∃ closed entries, Listed t now bal.toBlockAccessList closed entries ∧
          hash = (encodeEntries codeOf closed entries).map keccak) ∧
      (Enumerated t → ¬ Attributed t bal.toBlockAccessList →
        hash = .error "BAL: slot accessed without its account") ∧
      (¬ Enumerated t → ∃ m, hash = .error m ∧ (m ∈ linkHalts ∨
        m = "BAL: slot accessed without its account" ∧ ¬ Attributed t bal.toBlockAccessList)) := by
  intro bal hash
  have hexact : bal.Exact t := exact_marks hmarks (exact_init t)
  have hhash : hash = buildBlockAccessListHash codeOf keccak t now gasLimit bal := rfl
  rw [buildBlockAccessListHash] at hhash
  split
  · rename_i hlimit
    rw [hhash, collectEntries, if_pos hlimit]
    rfl
  · rename_i hlimit
    have hlimit := Nat.not_lt.1 hlimit
    refine ⟨?_, ?_, ?_⟩
    · intro henum hattr
      obtain ⟨visits, hvisits⟩ := henum.complete
      have hcollect := @collectEntries_of_complete t now gasLimit bal visits hexact hlimit hvisits
      rw [if_pos (hvisits.attributed_iff.2 hattr)] at hcollect
      obtain ⟨closed, hlisted, hcollect⟩ := hcollect
      refine ⟨closed, _, hlisted, ?_⟩
      rw [hhash, hcollect]
      rfl
    · intro henum hattr
      obtain ⟨visits, hvisits⟩ := henum.complete
      have hcollect := @collectEntries_of_complete t now gasLimit bal visits hexact hlimit hvisits
      rw [if_neg fun hall => hattr (hvisits.attributed_iff.1 hall)] at hcollect
      rw [hhash, hcollect]
      rfl
    · intro henum
      obtain ⟨m, hcollect, hm⟩ := @collectEntries_error t now gasLimit bal hlimit henum
      refine ⟨m, ?_, hm⟩
      rw [hhash, hcollect]
      rfl

-- Two accounts read in the reverse of their order, and one slot.
def twoRows : Tables where
  accounts :=
    [⟨addressOf 2, ⟨0, 0, kEmptyCodeHash⟩, UInt64.ofNat kNoLink, 0⟩,
      ⟨addressOf 1, ⟨0, 0, kEmptyCodeHash⟩, 0, UInt64.ofNat kNoLink⟩]
  storages := [⟨addressOf 2, digestOf 7, 0, UInt64.ofNat kNoLink⟩]
  firstSorted := 1
  owned := by simp

def twoMarks : List Mark := [.AccessAccount 0, .LoadSlot 0]

theorem enumerated_twoRows : Enumerated twoRows := by
  refine ⟨_, .Step (by decide) rfl (.Step (by decide) rfl .Stop), List.Perm.swap _ _ _, ?_, ?_⟩
  · decide
  · intro account haccount
    simp only [twoRows, mem_cons, not_mem_nil, or_false] at haccount
    obtain rfl | rfl := haccount
    · exact ⟨_, .Step (by decide) rfl .Stop, .refl _, pairwise_singleton _ _⟩
    · exact ⟨_, .Stop, .refl _, .nil⟩

theorem sorted_links_exact_twoRows :
    (∀ m ∈ twoMarks, m.InRange twoRows) ∧
      ∃ closed entries, Listed twoRows ⟨fun _ => ⟨0, 0, kEmptyCodeHash⟩, fun _ => 0⟩
          (twoMarks.foldl Counted.mark .init).toBlockAccessList closed entries ∧
        buildBlockAccessListHash (fun _ => .ok []) (fun _ => digestOf 0) twoRows
          ⟨fun _ => ⟨0, 0, kEmptyCodeHash⟩, fun _ => 0⟩ 4000 (twoMarks.foldl Counted.mark .init) =
            (encodeEntries (fun _ => .ok []) closed entries).map fun _ => digestOf 0 := by
  have hmarks : ∀ m ∈ twoMarks, m.InRange twoRows := by simp [twoMarks, twoRows, Mark.InRange]
  have hattr : Attributed twoRows (twoMarks.foldl Counted.mark .init).toBlockAccessList := by
    intro slot hslot _ account haccount haddr
    simp only [twoRows, List.zipIdx_cons, List.zipIdx_nil, List.mem_cons, List.not_mem_nil, or_false] at hslot haccount
    subst hslot
    obtain rfl | rfl := haccount
    · rfl
    · exact absurd haddr (by decide)
  exact ⟨hmarks, (sorted_links_exact (fun _ => .ok []) (fun _ => digestOf 0) twoRows
    ⟨fun _ => ⟨0, 0, kEmptyCodeHash⟩, fun _ => 0⟩ 4000 twoMarks hmarks).1 enumerated_twoRows hattr⟩

end Zeg.AccessList
