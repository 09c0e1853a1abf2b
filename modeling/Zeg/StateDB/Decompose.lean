import Zeg.Base.Except
import Zeg.StateDB.Acts

namespace Zeg.StateDB

open Base AccessList List

def Act.Quiet : Act → Prop
  | .SetTransient _ _ | .InsertPending _ | .AppendLog _ | .Create _ => True
  | .BalAccount _ | .BalPending _ => True
  | _ => False

def Act.Common : Act → Prop
  | .Write _ _ _ | .Warm _ => True
  | a => a.Quiet

theorem allows_of_quiet {w : Witness} (op : Op) (a : Act) (ha : a.Quiet) : op.Allows w a := by
  cases a <;> first | exact ha.elim | trivial

variable {op : Op}

theorem allows_of_common {w : Witness} (hop : op.logs) (a : Act) (ha : a.Common) :
    op.Allows w a := by
  cases a <;> first | exact hop | exact allows_of_quiet op _ ha

theorem common_of_quiet (a : Act) (ha : a.Quiet) : a.Common := by
  cases a <;> trivial

variable {w : Witness} {h h' : Host} {P : Act → Prop}

variable {a : Address} {idx : Nat}

theorem accountRow_eq_ok (hr : w.accountRow a = .ok idx) :
    w.findAccount a = some idx := by
  unfold Witness.accountRow at hr
  split at hr
  · simp_all
  · cases hr

variable {key : SlotKey}

theorem storageRow_eq_ok (hr : w.storageRow key = .ok idx) :
    w.findSlot key = some idx := by
  unfold Witness.storageRow at hr
  split at hr
  · simp_all
  · cases hr

theorem last_account (hr : w.accountRow a = .ok idx) :
    w.last (.Account a) = .Account idx := by
  simp [Witness.last, accountRow_eq_ok hr]

theorem last_slot (hr : w.storageRow key = .ok idx) :
    w.last (.Slot key) = .Slot idx := by
  simp [Witness.last, storageRow_eq_ok hr]

theorem accountRow_inj {b : Address} (ha : w.accountRow a = .ok idx) (hb : w.accountRow b = .ok idx) : a = b := by
  have ha' := of_findIdx?_eq_some (accountRow_eq_ok ha)
  have hb' := of_findIdx?_eq_some (accountRow_eq_ok hb)
  split at ha' <;> simp_all

theorem last_inj {x y : Key} (hxy : w.last x = w.last y) : x = y := by
  cases x with
  | Account a =>
    cases y with
    | Account b =>
      cases ha : w.findAccount a <;> cases hb : w.findAccount b <;>
        simp only [Witness.last, ha, hb] at hxy <;> cases hxy
      · rfl
      · have h₁ := of_findIdx?_eq_some ha
        have h₂ := of_findIdx?_eq_some hb
        split at h₁ <;> simp_all
    | Slot key =>
      cases ha : w.findAccount a <;> cases hb : w.findSlot key <;>
        simp only [Witness.last, ha, hb] at hxy <;> cases hxy
  | Slot key =>
    cases y with
    | Account b =>
      cases ha : w.findSlot key <;> cases hb : w.findAccount b <;>
        simp only [Witness.last, ha, hb] at hxy <;> cases hxy
    | Slot key' =>
      cases ha : w.findSlot key <;> cases hb : w.findSlot key' <;>
        simp only [Witness.last, ha, hb] at hxy <;> cases hxy
      · rfl
      · have h₁ := of_findIdx?_eq_some ha
        have h₂ := of_findIdx?_eq_some hb
        split at h₁ <;> simp_all

variable {K : List Last}

theorem does_of_quiet (op : Op) (hd : Does w Act.Quiet K h h') :
    Does w (op.Allows w) K h h' := hd.mono (allows_of_quiet op)

theorem does_of_common (hop : op.logs) (hd : Does w Act.Common K h h') :
    Does w (op.Allows w) K h h' := hd.mono (allows_of_common hop)

theorem common_of_does (hd : Does w Act.Quiet K h h') :
    Does w Act.Common K h h' := hd.mono common_of_quiet

theorem commit_does (hc : h.balCommitPending = .ok h') :
    Does w Act.Quiet [] h h' ∧ ∃ bal p, h' = { h with bal := bal, balPending := p } := by
  unfold Host.balCommitPending at hc
  split at hc
  · cases hc
    exact ⟨Does.refl, h.bal, h.balPending, rfl⟩
  · cases hc
  · cases hc
    refine ⟨?_, _, _, rfl⟩
    exact (Does.act (a := .BalAccount _) trivial trivial).trans
      (Does.act (a := .BalPending .None) trivial trivial)

theorem setBalPending_does (p : Pending) : Does w Act.Quiet [] h (h.setBalPending p) := by
  unfold Host.setBalPending
  split
  · exact Does.act (a := .BalPending p) trivial trivial
  · exact Does.refl

theorem accountExists_does {b : Bool} (hc : h.accountExists w a = .ok (h', b)) :
    Does w Act.Quiet [] h h' ∧ ∃ bal p idx, h' = { h with bal := bal, balPending := p } ∧
      w.accountRow a = .ok idx ∧ b = h.nonEmpty idx := by
  simp only [Host.accountExists, bind_eq_ok] at hc
  obtain ⟨h₁, hcommit, idx, hrow, hret⟩ := hc
  cases hret
  obtain ⟨hd, bal, p, rfl⟩ := commit_does (w := w) hcommit
  refine ⟨hd.trans (Does.act (a := .BalAccount idx) trivial trivial), _, _, idx, rfl, hrow, rfl⟩

theorem loadAccount_does (op : Op) {r : Account} (ht : .Account a ∈ op.touched) (hc : h.loadAccount w a = .ok (h', r)) :
    Does w (op.Allows w) [w.last (.Account a)] h h' := by
  simp only [Host.loadAccount, bind_eq_ok] at hc
  obtain ⟨idx, hrow, hret⟩ := hc
  cases hret
  rw [last_account hrow]
  refine Does.trans (.act (a := .Touch (.Account idx)) ?_ trivial)
    (.act (a := .BalAccount idx) trivial trivial)
  exact ⟨_, ht, last_account hrow⟩

variable {v : Word}

theorem getBalance_does (hc : h.getBalance w a = .ok (h', v)) :
    Does w ((Op.GetBalance a).Allows w) [w.last (.Account a)] h h' := by
  simp only [Host.getBalance, bind_eq_ok] at hc
  obtain ⟨h₁, hcommit, ⟨h₂, r⟩, hload, hret⟩ := hc
  cases hret
  exact (does_of_quiet _ (commit_does hcommit).1).trans
    (loadAccount_does _ (by simp [Op.touched]) hload)

theorem getNonce_does {v : UInt64} (hc : h.getNonce w a = .ok (h', v)) :
    Does w ((Op.GetNonce a).Allows w) [w.last (.Account a)] h h' := by
  simp only [Host.getNonce, bind_eq_ok] at hc
  obtain ⟨⟨h₁, r⟩, hload, hret⟩ := hc
  cases hret
  exact loadAccount_does _ (by simp [Op.touched]) hload

theorem copyCode_does {v : Bytes32} (hc : h.copyCode w a = .ok (h', v)) :
    Does w ((Op.CopyCode a).Allows w) [w.last (.Account a)] h h' := by
  simp only [Host.copyCode, bind_eq_ok] at hc
  obtain ⟨h₁, hcommit, ⟨h₂, r⟩, hload, hret⟩ := hc
  cases hret
  exact (does_of_quiet _ (commit_does hcommit).1).trans
    (loadAccount_does _ (by simp [Op.touched]) hload)

theorem codeAndEntry_does {v : Bytes32} (hc : h.codeAndEntry w a = .ok (h', v)) :
    Does w ((Op.EntryCode a).Allows w) [w.last (.Account a)] h h' := by
  simp only [Host.codeAndEntry, bind_eq_ok] at hc
  obtain ⟨⟨h₁, r⟩, hload, hret⟩ := hc
  cases hret
  exact loadAccount_does _ (by simp [Op.touched]) hload

theorem getCodeHash_does {v : Bytes32} (hc : h.getCodeHash w a = .ok (h', v)) :
    Does w ((Op.GetCodeHash a).Allows w) (((Op.GetCodeHash a).keys w h).map w.last) h h' := by
  simp only [Host.getCodeHash, bind_eq_ok] at hc
  obtain ⟨h₁, hcommit, ⟨h₂, found⟩, hexists, hret⟩ := hc
  obtain ⟨hd₁, bal, p, rfl⟩ := commit_does (w := w) hcommit
  obtain ⟨hd₂, bal', p', idx, rfl, hrow, rfl⟩ := accountExists_does hexists
  have hd := does_of_quiet (.GetCodeHash a) (hd₁.trans hd₂)
  have hkeys : (w.findAccount a).any h.nonEmpty = h.nonEmpty idx := by
    simp [accountRow_eq_ok hrow]
  change (if h.nonEmpty idx then _ else _) = _ at hret
  rw [Op.keys, hkeys]
  split at hret
  case isTrue hfound =>
    simp only [bind_eq_ok] at hret
    obtain ⟨⟨h₃, r⟩, hload, hret⟩ := hret
    cases hret
    rw [if_pos hfound]
    exact hd.trans (loadAccount_does _ (by simp [Op.touched]) hload)
  case isFalse hfound =>
    cases hret
    rw [if_neg hfound]
    exact hd

theorem getStorage_does (hc : h.getStorage w key = .ok (h', v)) :
    Does w ((Op.GetStorage key).Allows w) [w.last (.Slot key)] h h' := by
  simp only [Host.getStorage, bind_eq_ok] at hc
  obtain ⟨h₁, hcommit, idx, hrow, hret⟩ := hc
  cases hret
  rw [last_slot hrow]
  refine (does_of_quiet _ (commit_does hcommit).1).trans (.trans (.act (a := .BalSlot idx) ?_ trivial)
    (.act (a := .Touch (.Slot idx)) ?_ trivial))
  · exact ⟨key, storageRow_eq_ok hrow, .inl rfl⟩
  · exact ⟨_, by simp [Op.touched], last_slot hrow⟩

theorem setStorage_does {status : StorageStatus} (hc : h.setStorage w key v = .ok (h', status)) :
    Does w ((Op.SetStorage key v).Allows w) [w.last (.Slot key)] h h' := by
  simp only [Host.setStorage, bind_eq_ok] at hc
  obtain ⟨h₁, hcommit, idx, hrow, hret⟩ := hc
  cases hret
  rw [last_slot hrow]
  refine (does_of_quiet _ (commit_does hcommit).1).trans (.trans (.act (a := .BalSlot idx) ?_ trivial)
    (.act (a := .Store idx v) ?_ ?_))
  · exact ⟨key, storageRow_eq_ok hrow, .inr ⟨v, rfl⟩⟩
  · exact ⟨key, rfl, storageRow_eq_ok hrow⟩
  · intro b hb
    obtain ⟨b', hb', rfl⟩ := Option.map_eq_some_iff.mp hb
    simp [BlockAccessList.loadSlot]

theorem emitLog_does {entry : LogEntry} (hc : h.emitLog entry = .ok h') :
    Does w Act.Quiet [] h h' := by
  simp only [Host.emitLog, bind_eq_ok] at hc
  obtain ⟨h₁, hcommit, hret⟩ := hc
  cases hret
  refine (commit_does hcommit).1.trans (L := []) ?_
  split
  · exact Does.refl
  · exact Does.act (a := .AppendLog entry) trivial trivial

variable {dst src : Address}

theorem emitTransferLog_does (hc : h.emitTransferLog w src dst v = .ok h') : Does w Act.Quiet [] h h' := by
  unfold Host.emitTransferLog at hc
  split at hc
  · cases hc
    exact Does.refl
  · exact emitLog_does hc

theorem transferValue_does (hc : h.transferValue w src dst v = .ok h') :
    Does w Act.Common (((Op.TransferValue src dst v).keys w h).map w.last) h h' := by
  simp only [Host.transferValue, bind_eq_ok] at hc
  obtain ⟨i, hi, j, hj, hret⟩ := hc
  by_cases hij : i = j
  · subst hij
    rw [if_pos rfl] at hret
    cases hret
    rw [Op.keys, if_pos (accountRow_inj hi hj)]
    exact Does.refl
  · rw [if_neg hij] at hret
    have hne : src ≠ dst := by
      rintro rfl
      exact hij (Except.ok.inj (hi.symm.trans hj))
    let ws : List (Nat × Field) := [(i, .Balance ((h.accounts i).balance - v)),
      (j, .Balance ((h.accounts j).balance + v))]
    have hw : Does w Act.Common [.Account i, .Account j] h (h.act (.Write ws ws fun _ => .rfl)) :=
      Does.act (a := .Write ws ws _) trivial trivial
    rw [Op.keys, if_neg hne]
    simp only [map_cons, map_nil, last_account hi, last_account hj]
    exact hw.trans (L := []) (common_of_does (emitTransferLog_does hret))

theorem setTransientStorage_does (hc : h.setTransientStorage key v = .ok h') : Does w Act.Quiet [] h h' := by
  simp only [Host.setTransientStorage, bind_eq_ok] at hc
  obtain ⟨h₁, hcommit, hret⟩ := hc
  cases hret
  exact (commit_does hcommit).1.trans (L := []) (.act (a := .SetTransient key v) trivial trivial)

theorem writeField_does (idx : Nat) (f : Field) :
    Does w Act.Common [.Account idx] h
      ((h.logFields [(idx, f)]).setFieldAt idx f h.txCounter) :=
  Does.act (a := .Write [(idx, f)] [(idx, f)] fun _ => .rfl) trivial trivial

theorem insertPending_does (hd : h.shouldDestroy w idx) :
    Does w Act.Quiet [] h (h.insertPending idx).1 :=
  Does.act (a := .InsertPending idx) trivial hd

theorem emitTransferLog_frame (hc : h.emitTransferLog w src dst v = .ok h') :
    h'.createdThisTx = h.createdThisTx ∧ h'.storages = h.storages := by
  unfold Host.emitTransferLog Host.emitLog at hc
  split at hc
  · cases hc
    exact ⟨rfl, rfl⟩
  · simp only [bind_eq_ok] at hc
    obtain ⟨h₁, hcommit, hret⟩ := hc
    cases hret
    obtain ⟨-, bal, p, rfl⟩ := commit_does (w := w) hcommit
    unfold Host.setLogs
    split
    · exact ⟨rfl, rfl⟩
    · split <;> exact ⟨rfl, rfl⟩

theorem selfdestruct_does {b : Address} {inserted : Bool} (hc : h.selfdestruct w a b = .ok (h', inserted)) :
    Does w Act.Common (((Op.Selfdestruct a b).keys w h).map w.last) h h' := by
  simp only [Host.selfdestruct, bind_eq_ok] at hc
  obtain ⟨h₁, hcommit, i, hi, hret⟩ := hc
  obtain ⟨hd, bal, p, rfl⟩ := commit_does (w := w) hcommit
  refine (common_of_does hd).trans (K := []) ?_
  clear hd hcommit
  have hdestroy : (w.findAccount a).any (h.shouldDestroy w) = h.shouldDestroy w i := by
    simp [accountRow_eq_ok hi]
  change (if a = b then (if h.shouldDestroy w i then _ else _) else _) = _ at hret
  rw [Op.keys]
  by_cases hab : a = b
  · rw [if_pos hab] at hret
    rw [if_neg (not_not.mpr hab), hdestroy]
    by_cases hs : h.shouldDestroy w i
    · rw [if_pos hs] at hret
      by_cases ham : w.isAmsterdamOrLater
      · rw [if_pos ham] at hret
        cases hret
        rw [if_neg (by simp [ham])]
        exact common_of_does (insertPending_does hs)
      · rw [if_neg ham] at hret
        cases hret
        rw [if_pos ⟨by simpa using ham, hs⟩]
        simp only [map_cons, map_nil, last_account hi]
        exact (writeField_does i (.Balance 0)).trans (common_of_does (insertPending_does hs))
    · rw [if_neg hs] at hret
      cases hret
      rw [if_neg (by simp [hs])]
      exact Does.refl
  · rw [if_neg hab] at hret
    simp only [bind_eq_ok] at hret
    obtain ⟨j, hj, h₂, hemit, hret⟩ := hret
    rw [if_pos hab]
    simp only [map_cons, map_nil, last_account hi, last_account hj]
    let src : Nat × Field := (i, .Balance 0)
    let dst : Nat × Field := (j, .Balance ((h.accounts j).balance + (h.accounts i).balance))
    have hw : Does w Act.Common [.Account j, .Account i]
        { h with bal := bal, balPending := p }
        (Host.act { h with bal := bal, balPending := p }
          (.Write [src, dst] [dst, src] (by simp [or_comm]))) :=
      Does.act (a := .Write _ _ _) trivial trivial
    have hmoved := (hw.congr (L := [.Account i, .Account j]) (by simp [or_comm])).trans
      (common_of_does (emitTransferLog_does hemit))
    split at hret
    case isTrue hs =>
      cases hret
      refine hmoved.trans (L := []) (common_of_does (insertPending_does ?_))
      unfold Host.shouldDestroy at hs ⊢
      rw [(emitTransferLog_frame hemit).1]
      exact hs
    case isFalse =>
      cases hret
      exact hmoved

theorem warm_of_eq {l : Last} (hl : h.last l = h.txCounter) : h.warm l = h := if_pos hl

theorem warm_of_ne {l : Last} (hl : h.last l ≠ h.txCounter) :
    h.warm l = (h.log (l.entry (h.last l))).touch l := if_neg hl

-- Logging the cold-to-warm transition and touching the row, as the source spells it.
theorem warm_account (idx : Nat) :
    (if (h.accounts idx).lastTx = h.txCounter then h
      else h.log (.AccountWarm idx (h.accounts idx).lastTx)).markTouchedAt idx h.txCounter =
      h.warm (.Account idx) := by
  by_cases hw : (h.accounts idx).lastTx = h.txCounter
  · rw [if_pos hw, warm_of_eq (l := .Account idx) hw, Host.markTouchedAt, if_neg (by omega)]
  · rw [if_neg hw, warm_of_ne (l := .Account idx) hw]
    rfl

theorem warm_slot (idx : Nat) :
    (if (h.storages idx).lastTx = h.txCounter then h
      else h.log (.StorageWarm idx (h.storages idx).lastTx)).markSlotTouchedAt idx h.txCounter =
      h.warm (.Slot idx) := by
  by_cases hw : (h.storages idx).lastTx = h.txCounter
  · rw [if_pos hw, warm_of_eq (l := .Slot idx) hw, Host.markSlotTouchedAt]
    exact if_neg (by omega)
  · rw [if_neg hw, warm_of_ne (l := .Slot idx) hw]
    rfl

theorem warm_does (l : Last) : Does w Act.Common [l] h (h.warm l) :=
  Does.act (a := .Warm l) trivial trivial

-- The answer, besides the actions: cold exactly when the key's last transaction is not this one.
theorem accessAccount_does {status : AccessStatus} (hc : h.accessAccount w a = .ok (h', status)) :
    Does w Act.Common (((Op.AccessAccount a).keys w h).map w.last) h h' ∧
      (status = .Cold ↔ w.isPrecompile a = false ∧
        h.last (w.last (.Account a)) ≠ h.txCounter) := by
  simp only [Host.accessAccount, bind_eq_ok] at hc
  obtain ⟨h₁, hcommit, hret⟩ := hc
  obtain ⟨hd, bal, p, rfl⟩ := commit_does (w := w) hcommit
  replace hd := common_of_does hd
  have hpend := fun {h : Host} (p : Pending) => common_of_does (setBalPending_does (w := w) (h := h) p)
  rw [Op.keys]
  split at hret
  case isTrue hpre =>
    cases hret
    rw [if_pos hpre]
    exact ⟨hd.trans (hpend _), by simp [hpre]⟩
  case isFalse hpre =>
    rw [if_neg hpre]
    simp only [map_cons, map_nil, Witness.last]
    cases hfind : w.findAccount a with
    | none =>
      rw [hfind] at hret
      have hwarm := (hd.trans (warm_does (.AccountKey a))).trans (hpend .MissingRow)
      change (if h.warmAccounts a = h.txCounter then _ else _) = _ at hret
      split at hret
      case isTrue heq =>
        cases hret
        rw [warm_of_eq (h := { h with bal := bal, balPending := p }) (l := .AccountKey a) heq] at hwarm
        exact ⟨hwarm, by simp [Host.last, heq]⟩
      case isFalse hne =>
        cases hret
        rw [warm_of_ne (h := { h with bal := bal, balPending := p }) (l := .AccountKey a) hne] at hwarm
        exact ⟨hwarm, by simp [Host.last, hne, hpre]⟩
    | some idx =>
      rw [hfind] at hret
      have hwarm := (hd.trans (warm_does (.Account idx))).trans (hpend (.Row idx))
      rw [← warm_account idx] at hwarm
      cases hret
      refine ⟨hwarm, ?_⟩
      by_cases heq : (h.accounts idx).lastTx = h.txCounter <;> simp [Host.last, heq, hpre]

theorem accessStorage_does {status : AccessStatus} (hc : h.accessStorage w key = .ok (h', status)) :
    Does w Act.Common [w.last (.Slot key)] h h' ∧
      (status = .Cold ↔ h.last (w.last (.Slot key)) ≠ h.txCounter) := by
  simp only [Host.accessStorage, bind_eq_ok] at hc
  obtain ⟨h₁, hcommit, hret⟩ := hc
  obtain ⟨hd, bal, p, rfl⟩ := commit_does (w := w) hcommit
  replace hd := common_of_does hd
  simp only [Witness.last]
  cases hfind : w.findSlot key with
  | none =>
    rw [hfind] at hret
    have hwarm := hd.trans (warm_does (.SlotKey key))
    change (if h.warmSlots key = h.txCounter then _ else _) = _ at hret
    split at hret
    case isTrue heq =>
      cases hret
      rw [warm_of_eq (h := { h with bal := bal, balPending := p }) (l := .SlotKey key) heq] at hwarm
      exact ⟨hwarm, by simp [Host.last, heq]⟩
    case isFalse hne =>
      cases hret
      rw [warm_of_ne (h := { h with bal := bal, balPending := p }) (l := .SlotKey key) hne] at hwarm
      exact ⟨hwarm, by simp [Host.last, hne]⟩
  | some idx =>
    rw [hfind] at hret
    have hwarm := hd.trans (warm_does (.Slot idx))
    rw [← warm_slot idx] at hwarm
    cases hret
    refine ⟨hwarm, ?_⟩
    by_cases heq : (h.storages idx).lastTx = h.txCounter <;> simp [Host.last, heq]

theorem bumpNonce_does {bumped : Bool} (hc : h.bumpNonce w a = .ok (h', bumped)) :
    Does w Act.Common (((Op.BumpNonce a).keys w h).map w.last) h h' := by
  simp only [Host.bumpNonce, bind_eq_ok] at hc
  obtain ⟨idx, hrow, hret⟩ := hc
  have hmax : (w.findAccount a).any (fun idx => (h.accounts idx).nonce = 0xffffffffffffffff) =
      decide ((h.accounts idx).nonce = 0xffffffffffffffff) := by
    simp [accountRow_eq_ok hrow]
  rw [Op.keys, hmax]
  split at hret
  case isTrue hn =>
    cases hret
    rw [if_pos (by simpa using hn)]
    exact Does.refl
  case isFalse hn =>
    cases hret
    rw [if_neg (by simpa using hn)]
    simp only [map_cons, map_nil, last_account hrow]
    exact writeField_does idx (.Nonce _)

theorem warmNew_does (hc : h.warmNew w a = .ok h') :
    Does w Act.Common [w.last (.Account a)] h h' := by
  simp only [Host.warmNew, bind_eq_ok] at hc
  obtain ⟨idx, hrow, hret⟩ := hc
  cases hret
  rw [last_account hrow]
  have hwarm := warm_does (w := w) (h := h.balAccessAt idx) (.Account idx)
  rw [← warm_account idx] at hwarm
  exact Does.trans (.act (a := .BalAccount idx) trivial trivial) hwarm

theorem transferValue_storages (hc : h.transferValue w src dst v = .ok h') : h'.storages = h.storages := by
  simp only [Host.transferValue, bind_eq_ok] at hc
  obtain ⟨i, hi, j, hj, hret⟩ := hc
  split at hret
  · cases hret
    rfl
  · exact (emitTransferLog_frame hret).2

theorem slots_zero_of_not_collides (hn : ¬ h.collides w idx) :
    ∀ i ∈ w.slotsOf idx, (h.storages i).value = 0 := by
  intro i hi
  by_contra hv
  apply hn
  have : h.addressHasStorage w idx = true := any_eq_true.mpr ⟨i, hi, by simpa using hv⟩
  simp [Host.collides, this]

theorem initCreateAccount_does {sender : Address} {created : Bool}
    (hc : h.initCreateAccount w sender a v = .ok (h', created)) :
    Does w Act.Common (((Op.InitCreateAccount sender a v).keys w h).map w.last) h h' := by
  simp only [Host.initCreateAccount, bind_eq_ok] at hc
  obtain ⟨idx, hrow, hret⟩ := hc
  have hcol : (w.findAccount a).any (h.collides w) = h.collides w idx := by
    simp [accountRow_eq_ok hrow]
  rw [Op.keys, hcol]
  split at hret
  case isTrue hn =>
    cases hret
    rw [if_pos hn]
    exact Does.refl
  case isFalse hn =>
    rw [if_neg hn]
    obtain ⟨h₁, hmove, hret⟩ := map_eq_ok.mp hret
    cases hret
    have hzero := slots_zero_of_not_collides hn
    have hnonce := writeField_does (w := w) (h := h) idx (.Nonce 1)
    by_cases hv : v = 0
    · rw [if_pos hv] at hmove
      cases hmove
      rw [if_pos (.inl hv)]
      simp only [map_cons, map_nil, last_account hrow]
      exact hnonce.trans (L := []) (.act (a := .Create idx) trivial hzero)
    · rw [if_neg hv] at hmove
      have hcreate : Does w Act.Common [] h₁
          { h₁ with createdThisTx := h₁.createdThisTx.insert idx } := by
        refine Does.act (a := .Create idx) trivial ?_
        intro i hi
        rw [transferValue_storages hmove]
        exact hzero i hi
      refine ((hnonce.trans (transferValue_does hmove)).trans hcreate).congr ?_
      intro l
      by_cases hsa : sender = a
      · simp [Op.keys, hsa, last_account hrow]
      · rw [if_neg (not_or.mpr ⟨hv, hsa⟩)]
        simp [Op.keys, hsa, last_account hrow, or_comm]

variable {hash : Bytes32}

theorem registerDeployedCode_does (hc : h.registerDeployedCode w a hash = .ok h') :
    Does w Act.Common [w.last (.Account a)] h h' := by
  simp only [Host.registerDeployedCode, bind_eq_ok] at hc
  obtain ⟨idx, hrow, hret⟩ := hc
  cases hret
  rw [last_account hrow]
  exact writeField_does idx (.CodeHash hash)

-- An authorization first touches the signer's row; all it does then is in that row.
theorem authorize_split {nonce : UInt64} {isDelegation afford : Bool}
    (hc : h.authorize w a nonce hash isDelegation afford = .ok h') :
    ∃ idx, w.accountRow a = .ok idx ∧ ∃ K, (∀ l ∈ K, l = .Account idx) ∧
      Does w ((Op.Authorize a nonce hash isDelegation afford).Allows w) K
        ((h.balAccessAt idx).touch (.Account idx)) h' := by
  simp only [Host.authorize, bind_eq_ok] at hc
  obtain ⟨idx, hrow, hret⟩ := hc
  refine ⟨idx, hrow, ?_⟩
  let op := Op.Authorize a nonce hash isDelegation afford
  change ∃ K, _ ∧ Does w (op.Allows w) K _ _
  generalize hg : (h.balAccessAt idx).touch (.Account idx) = g
  rw [show (h.balAccessAt idx).markTouchedAt idx h.txCounter = g from hg] at hret
  split at hret
  · cases hret
    exact ⟨[], by simp, Does.refl⟩
  · split at hret
    · cases hret
      exact ⟨[], by simp, Does.refl⟩
    · split at hret
      case isTrue ham =>
        simp only [bind_eq_ok] at hret
        obtain ⟨⟨h₁, b⟩, hexists, hret⟩ := hret
        obtain ⟨hd, -⟩ := accountExists_does hexists
        replace hd := does_of_quiet op hd
        split at hret
        · cases hret
          let ws : List (Nat × Field) := [(idx, .Nonce (nonce + 1)), (idx, .CodeHash hash)]
          exact ⟨_, by simp [Act.lasts, ws],
            hd.trans (.act (a := .Write ws ws fun _ => .rfl) rfl trivial)⟩
        · cases hret
          exact ⟨[], by simp, hd⟩
      case isFalse ham =>
        cases hret
        have hraw : op.WritesRaw w := by simpa [op, Op.WritesRaw] using ham
        exact ⟨_, by simp [Act.lasts],
          .trans (.act (a := .RawWrite idx (.Nonce (nonce + 1))) hraw trivial)
            (.act (a := .RawWrite idx (.CodeHash hash)) hraw trivial)⟩

theorem authorize_does {nonce : UInt64} {isDelegation afford : Bool}
    (hc : h.authorize w a nonce hash isDelegation afford = .ok h') :
    Does w ((Op.Authorize a nonce hash isDelegation afford).Allows w) [w.last (.Account a)] h h' := by
  obtain ⟨idx, hrow, K, hK, hd⟩ := authorize_split hc
  rw [last_account hrow]
  have htouch : (Op.Authorize a nonce hash isDelegation afford).Allows w (.Touch (.Account idx)) :=
    ⟨.Account a, by simp [Op.touched], last_account hrow⟩
  refine (Does.trans (.act (a := .BalAccount idx) trivial trivial)
    (.trans (.act (a := .Touch (.Account idx)) htouch trivial) hd)).congr ?_
  intro l
  simp only [Act.lasts, nil_append, cons_append, mem_cons, not_mem_nil, or_false]
  exact ⟨fun hl => hl.elim id (hK l), .inl⟩

theorem endFrame_does {halted : Bool} (hc : h.endFrame halted = .ok h') :
    Does w Act.Quiet [] h h' := by
  obtain ⟨h₁, hcommit, hret⟩ := map_eq_ok.mp hc
  cases hret
  have hclear : Does w Act.Quiet [] h₁ { h₁ with balPending := .None } :=
    .act (a := .BalPending .None) trivial trivial
  split at hcommit
  · cases hcommit
    exact hclear
  · exact (commit_does hcommit).1.trans hclear

theorem getTransientStorage_does (hc : h.getTransientStorage key = .ok (h', v)) : Does w Act.Quiet [] h h' := by
  simp only [Host.getTransientStorage, bind_eq_ok] at hc
  obtain ⟨h₁, hcommit, hret⟩ := hc
  cases hret
  exact (commit_does hcommit).1

theorem balLoad_does (hc : h.balLoad w a = .ok h') : Does w Act.Quiet [] h h' := by
  simp only [Host.balLoad, bind_eq_ok] at hc
  obtain ⟨idx, hrow, hret⟩ := hc
  cases hret
  exact Does.act (a := .BalAccount idx) trivial trivial

theorem setField_does {f : Field} (hc : h.setField w a f = .ok h') :
    Does w ((Op.SetField a f).Allows w) [w.last (.Account a)] h h' := by
  simp only [Host.setField, bind_eq_ok] at hc
  obtain ⟨idx, hrow, hret⟩ := hc
  cases hret
  rw [last_account hrow]
  exact Does.act (a := .RawWrite idx f) trivial trivial

theorem warmAddr_does (a : Address) :
    Does w ((Op.WarmAddr a).Allows w) (((Op.WarmAddr a).keys w h).map w.last) h
      (h.warmAddr w a) := by
  unfold Host.warmAddr
  rw [Op.keys]
  split
  · exact Does.refl
  · have htouch : (Op.WarmAddr a).Allows w (.Touch (w.last (.Account a))) :=
      ⟨_, mem_singleton_self _, rfl⟩
    simp only [map_cons, map_nil, Witness.last] at htouch ⊢
    cases hfind : w.findAccount a with
    | some idx =>
      rw [hfind] at htouch
      exact Does.act (a := .Touch (.Account idx)) htouch trivial
    | none =>
      rw [hfind] at htouch
      exact Does.act (a := .Touch (.AccountKey a)) htouch trivial

theorem warmSlot_does (key : SlotKey) :
    Does w ((Op.WarmSlot key).Allows w) [w.last (.Slot key)] h (h.warmSlot w key) := by
  unfold Host.warmSlot
  have htouch : (Op.WarmSlot key).Allows w (.Touch (w.last (.Slot key))) :=
    ⟨_, mem_singleton_self _, rfl⟩
  simp only [Witness.last] at htouch ⊢
  cases hfind : w.findSlot key with
  | some idx =>
    rw [hfind] at htouch
    exact Does.act (a := .Touch (.Slot idx)) htouch trivial
  | none =>
    rw [hfind] at htouch
    exact Does.act (a := .Touch (.SlotKey key)) htouch trivial

theorem does_of_map {α : Type} {x : Except String α} {f : α → Host × Answer} {answer : Answer}
    (hc : x.map f = .ok (h', answer)) (hx : ∀ a, x = .ok a → Does w P K h (f a).1) : Does w P K h h' := by
  obtain ⟨a, ha, hret⟩ := map_eq_ok.mp hc
  have hd := hx a ha
  rwa [hret] at hd

-- Every operation is a sequence of actions it is allowed, touching exactly its keys.
theorem call_does {answer : Answer} (hc : h.call w op = .ok (h', answer)) :
    Does w (op.Allows w) ((op.keys w h).map w.last) h h' := by
  have hq := fun {h'} (hd : Does w Act.Quiet [] h h') => does_of_quiet op hd
  cases op with
  | AccessAccount a => exact does_of_map hc fun _ hx => does_of_common rfl (accessAccount_does hx).1
  | AccessStorage key => exact does_of_map hc fun _ hx => does_of_common rfl (accessStorage_does hx).1
  | AccountExists a => exact does_of_map hc fun _ hx => hq (accountExists_does hx).1
  | GetBalance a => exact does_of_map hc fun _ hx => getBalance_does hx
  | GetNonce a => exact does_of_map hc fun _ hx => getNonce_does hx
  | GetCodeHash a => exact does_of_map hc fun _ hx => getCodeHash_does hx
  | CopyCode a => exact does_of_map hc fun _ hx => copyCode_does hx
  | GetStorage key => exact does_of_map hc fun _ hx => getStorage_does hx
  | SetStorage key v => exact does_of_map hc fun _ hx => setStorage_does hx
  | GetTransientStorage key => exact does_of_map hc fun _ hx => hq (getTransientStorage_does hx)
  | SetTransientStorage key v => exact does_of_map hc fun _ hx => hq (setTransientStorage_does hx)
  | EmitLog entry => exact does_of_map hc fun _ hx => hq (emitLog_does hx)
  | Selfdestruct a b => exact does_of_map hc fun _ hx => does_of_common rfl (selfdestruct_does hx)
  | TransferValue src dst v => exact does_of_map hc fun _ hx => does_of_common rfl (transferValue_does hx)
  | BumpNonce a => exact does_of_map hc fun _ hx => does_of_common rfl (bumpNonce_does hx)
  | WarmNew a => exact does_of_map hc fun _ hx => does_of_common rfl (warmNew_does hx)
  | InitCreateAccount sender a v =>
    exact does_of_map hc fun _ hx => does_of_common rfl (initCreateAccount_does hx)
  | RegisterDeployedCode a hash =>
    exact does_of_map hc fun _ hx => does_of_common rfl (registerDeployedCode_does hx)
  | BalLoad a => exact does_of_map hc fun _ hx => hq (balLoad_does hx)
  | EndFrame halted => exact does_of_map hc fun _ hx => hq (endFrame_does hx)
  | EntryCode a => exact does_of_map hc fun _ hx => codeAndEntry_does hx
  | Authorize a nonce hash isDelegation afford =>
    exact does_of_map hc fun _ hx => authorize_does hx
  | SetField a f => exact does_of_map hc fun _ hx => setField_does hx
  | WarmAddr a =>
    cases hc
    exact warmAddr_does a
  | WarmSlot key =>
    cases hc
    exact warmSlot_does key
  | Checkpoint | Commit | Rollback _ =>
    cases hc
    exact Does.refl

theorem clearAccount_induction {I : Host → Prop}
    (hfield : ∀ g f, I g → I (g.act (.Write [(idx, f)] [(idx, f)] fun _ => .rfl)))
    (hslot : ∀ g, ∀ i ∈ w.slotsOf idx, (g.storages i).value ≠ 0 → I g → I (g.act (.Store i 0)))
    (hwipe : ∀ g, I g → I { g with storageWiped := g.storageWiped.insert idx }) (hi : I h) :
    I (h.clearAccountForSelfdestruct w idx) := by
  have hslots : ∀ (slots : List Nat), (∀ i ∈ slots, i ∈ w.slotsOf idx) → ∀ g, I g →
      I (slots.foldl Host.clearSlot g) := by
    intro slots
    induction slots with
    | nil => exact fun _ _ => id
    | cons i slots ih =>
      intro hmem g hg
      rw [forall_mem_cons] at hmem
      refine ih hmem.2 _ ?_
      unfold Host.clearSlot
      dsimp only
      split
      · exact hg
      · rename_i hv
        exact hslot g i hmem.1 hv hg
  unfold Host.clearAccountForSelfdestruct
  apply hwipe
  by_cases ham : w.isAmsterdamOrLater
  · simp only [ham, if_true]
    exact hslots _ (fun _ => id) _ (hfield _ (.CodeHash _) (hfield h (.Nonce 0) hi))
  · simp only [ham]
    exact hslots _ (fun _ => id) _
      (hfield _ (.CodeHash _) (hfield _ (.Nonce 0) (hfield h (.Balance 0) hi)))

end Zeg.StateDB
