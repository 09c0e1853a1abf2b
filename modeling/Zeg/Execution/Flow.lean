import Zeg.StateDB.Content
import Zeg.StateDB.Stamps

-- What the host's tables go through while frames run: operations under the guards that the VM and
-- call() give them, and frames, each kept or rolled back.
namespace Zeg.Execution

open Base StateDB List Function

-- What holds of the tables where an operation is asked for. A row is read only while it is warm, a
-- transfer is covered, and nothing is written in static mode.
def Guard (w : Witness) (isStatic : Bool) (h : Host) : Op → Prop
  | .GetBalance a | .GetNonce a | .GetCodeHash a | .CopyCode a | .EntryCode a => h.isWarm w (.Account a) = true
  | .GetStorage key => h.isWarm w (.Slot key) = true
  | .SetStorage key _ => isStatic = false ∧ h.isWarm w (.Slot key) = true
  | .TransferValue src _ v =>
    isStatic = false ∧ ∀ idx, w.accountRow src = .ok idx → v ≤ (h.accounts idx).balance
  | .InitCreateAccount sender _ v =>
    isStatic = false ∧ ∀ idx, w.accountRow sender = .ok idx → v ≤ (h.accounts idx).balance
  | .SetTransientStorage _ _ | .EmitLog _ | .Selfdestruct _ _ => isStatic = false
  | .BumpNonce _ | .WarmNew _ | .RegisterDeployedCode _ _ => isStatic = false
  | .AccessAccount _ | .AccessStorage _ | .AccountExists _ | .GetTransientStorage _ => True
  | .BalLoad _ | .EndFrame _ => True
  | .Checkpoint | .Commit | .Rollback _ | .Authorize _ _ _ _ _ | .WarmAddr _ | .WarmSlot _ | .SetField _ _ => False

inductive Flow (w : Witness) : Bool → Host → Host → Prop where
  | Refl {isStatic : Bool} {h : Host} : Flow w isStatic h h
  | Ask {isStatic : Bool} {h h₁ h' : Host} {op : Op} {answer : Answer} (guard : Guard w isStatic h op)
      (asked : h.call w op = .ok (h₁, answer)) (rest : Flow w isStatic h₁ h') : Flow w isStatic h h'
  | Frame {isStatic inner : Bool} {h h₁ h₂ h' : Host} (static : isStatic = true → inner = true)
      (body : Flow w inner h.checkpoint.1 h₁) (closed : h₂ = h₁ ∨ h₁.rollback h.checkpoint.2 = .ok h₂)
      (rest : Flow w isStatic h₂ h') : Flow w isStatic h h'

variable {w : Witness} {isStatic : Bool} {h h₁ h₂ h' : Host}

theorem Flow.trans (hx : Flow w isStatic h h₁) (hy : Flow w isStatic h₁ h₂) : Flow w isStatic h h₂ := by
  induction hx with
  | Refl => exact hy
  | Ask guard asked _ ih => exact .Ask guard asked (ih hy)
  | Frame static body closed _ _ ih => exact .Frame static body closed (ih hy)

variable {answer : Answer}

theorem Flow.single (op : Op) (guard : Guard w isStatic h op) (asked : h.call w op = .ok (h', answer))
    : Flow w isStatic h h' :=
  .Ask guard asked .Refl

variable {op : Op}

theorem guard_loosen {inner : Bool} (hs : isStatic = true → inner = true) (guard : Guard w inner h op) :
    Guard w isStatic h op := by
  cases isStatic with
  | true =>
    rw [hs rfl] at guard
    exact guard
  | false =>
    cases op with
    | SetStorage | TransferValue | InitCreateAccount => exact ⟨rfl, guard.2⟩
    | SetTransientStorage | EmitLog | Selfdestruct | BumpNonce | WarmNew | RegisterDeployedCode => rfl
    | _ => exact guard

theorem Flow.loosen {inner : Bool} (hflow : Flow w inner h h') (hs : isStatic = true → inner = true) :
    Flow w isStatic h h' := by
  induction hflow with
  | Refl => exact .Refl
  | Ask guard asked _ ih => exact .Ask (guard_loosen hs guard) asked (ih hs)
  | Frame static body closed _ _ ih => exact .Frame (fun h => static (hs h)) body closed (ih hs)

-- The precompiles count as warm whatever the stamp of their row.
def Inherent (w : Witness) : Key → Prop
  | .Account a => w.isPrecompile a = true
  | .Slot _ => False

-- The stamps that a read may set without a log entry.
def Unlogged (w : Witness) (l : Last) : Prop := ∃ key, Inherent w key ∧ w.last key = l

variable {l : Last}

theorem touch_of_eq (hl : h.last l = h.txCounter) : h.touch l = h := by
  cases l with
  | Account idx =>
    have hl : (h.accounts idx).lastTx = h.txCounter := hl
    show h.markTouchedAt idx h.txCounter = h
    rw [Host.markTouchedAt, if_neg (by omega)]
  | Slot idx =>
    have hl : (h.storages idx).lastTx = h.txCounter := hl
    show h.markSlotTouchedAt idx h.txCounter = h
    rw [Host.markSlotTouchedAt, if_neg (by omega)]
  | AccountKey a =>
    have hsame : Function.update h.warmAccounts a h.txCounter = h.warmAccounts := by
      rw [← hl]
      exact update_eq_self a h.warmAccounts
    show h.setWarmAccount a h.txCounter = h
    rw [Host.setWarmAccount, hsame]
  | SlotKey key =>
    have hsame : Function.update h.warmSlots key h.txCounter = h.warmSlots := by
      rw [← hl]
      exact update_eq_self key h.warmSlots
    show h.setWarmSlot key h.txCounter = h
    rw [Host.setWarmSlot, hsame]

variable {key : Key}

theorem warm_cases (hw : h.isWarm w key = true) :
    Inherent w key ∨ h.last (w.last key) = h.txCounter := by
  cases key with
  | Account a =>
    simp only [Host.isWarm, Bool.or_eq_true, beq_iff_eq] at hw
    exact hw
  | Slot key =>
    simp only [Host.isWarm, beq_iff_eq] at hw
    exact .inr hw

theorem guard_touched (guard : Guard w isStatic h op) (hkey : key ∈ op.touched) :
    h.isWarm w key = true := by
  cases op with
  | GetBalance a | GetNonce a | GetCodeHash a | CopyCode a | EntryCode a | GetStorage key =>
    rw [Op.touched, mem_singleton] at hkey
    rw [hkey]
    exact guard
  | Authorize | WarmAddr | WarmSlot => exact guard.elim
  | _ => simp [Op.touched] at hkey

theorem guard_raw (guard : Guard w isStatic h op) : ¬ op.WritesRaw w := by
  intro hraw
  cases op with
  | Authorize | SetField => exact guard
  | _ => exact hraw

-- A stamp of the transaction stays until a rollback.

theorem touch_stamp {l₀ : Last} (hl : h.last l = h.txCounter) : (h.touch l₀).last l = h.txCounter := by
  obtain hcell | hcell := cell_touch (h := h) l₀
  · exact (congrFun hcell (.Last l)).trans hl
  · have hlast : (h.touch l₀).last l = restore [⟨.Last l₀, h.txCounter⟩] h.cell (.Last l) := congrFun hcell (.Last l)
    rw [hlast]
    by_cases heq : l = l₀
    · subst heq
      exact update_self ..
    · rw [restore_of_not_mem _ (by simpa using Ne.symm heq)]
      exact hl

theorem act_stamp (a : Act) (hl : h.last l = h.txCounter) : (h.act a).last l = h.txCounter := by
  cases a with
  | Write logs sets hs =>
    refine (last_setFields (h := h.logFields logs) sets l).trans ?_
    split
    · rfl
    · exact hl
  | Store idx v =>
    refine (last_setValueAt (h := (h.balOpenSlot idx _).logStorage idx) idx v h.txCounter l).trans ?_
    split
    · rfl
    · exact hl
  | Warm l₀ =>
    show (h.warm l₀).last l = _
    rw [Host.warm]
    split
    · exact hl
    · exact touch_stamp (h := h.log (l₀.entry (h.last l₀))) hl
  | AppendLog entry => exact (congrFun (h.setLogs_cell _) (.Last l)).trans hl
  | Touch l₀ => exact touch_stamp hl
  | RawWrite idx f =>
    refine (last_setFieldAt idx f h.txCounter l).trans ?_
    split
    · rfl
    · exact hl
  | SetTransient key v => exact hl
  | InsertPending idx => exact hl
  | Create idx | BalAccount idx | BalSlot idx | BalPending p => exact hl

theorem isWarm_of_stamps (hcounter : h'.txCounter = h.txCounter)
    (hstamp : ∀ l, h.last l = h.txCounter → h'.last l = h.txCounter) (hw : h.isWarm w key = true) :
    h'.isWarm w key = true := by
  cases key with
  | Account a =>
    simp only [Host.isWarm, Bool.or_eq_true, beq_iff_eq, hcounter] at hw ⊢
    exact hw.imp id (hstamp _)
  | Slot key =>
    simp only [Host.isWarm, beq_iff_eq, hcounter] at hw ⊢
    exact hstamp _ hw

theorem act_warm (a : Act) (hw : h.isWarm w key = true) : (h.act a).isWarm w key = true :=
  isWarm_of_stamps (act_txCounter a) (fun _ => act_stamp a) hw

theorem call_warm (hc : h.call w op = .ok (h', answer)) (hw : h.isWarm w key = true) : h'.isWarm w key = true := by
  obtain ⟨acts, hruns, -, -⟩ := call_does hc
  clear hc
  induction acts generalizing h with
  | nil =>
    cases hruns
    exact hw
  | cons a acts ih => exact ih (act_warm a hw) hruns.2

variable {cps : List Checkpoint}

theorem since_allowed {base : Host} {a : Act} (hraw : ¬ op.WritesRaw w)
    (hwarm : ∀ key ∈ op.touched, h.isWarm w key = true) (ha : op.Allows w a) (hs : Since (Unlogged w) base ⟨h, cps⟩)
    : Since (Unlogged w) base ⟨h.act a, cps⟩ := by
  by_cases hidle : h.act a = h
  · rw [hidle]
    exact hs
  · apply since_act hs
    · rintro idx f rfl
      exact hraw ha
    · rintro l rfl
      obtain ⟨key, hkey, rfl⟩ := ha
      obtain hin | hstamp := warm_cases (hwarm key hkey)
      · exact ⟨key, hin, rfl⟩
      · exact absurd (touch_of_eq hstamp) hidle

-- An operation under its guard leaves behind no touch but of a precompile's row.
theorem since_ask {base : Host} (guard : Guard w isStatic h op) (asked : h.call w op = .ok (h', answer))
    (hs : Since (Unlogged w) base ⟨h, cps⟩) :
    Since (Unlogged w) base ⟨h', cps⟩ := by
  obtain ⟨acts, hruns, hallowed, -⟩ := call_does asked
  have hwarm : ∀ key ∈ op.touched, h.isWarm w key = true := fun key => guard_touched guard
  have hraw := guard_raw guard
  clear asked guard
  induction acts generalizing h with
  | nil =>
    cases hruns
    exact hs
  | cons a acts ih =>
    rw [forall_mem_cons] at hallowed
    refine ih (since_allowed hraw hwarm hallowed.1 hs) hruns.2 hallowed.2 ?_
    exact fun key hkey => act_warm a (hwarm key hkey)

theorem rollback_ok {cp : Checkpoint} (hback : h.rollback cp = .ok h') : h' = h.rolledBack cp := by
  rw [Host.rollback_eq] at hback
  split at hback
  · cases hback
    rfl
  · cases hback

theorem flow_since (hflow : Flow w isStatic h h') : ∀ {base : Host} {cps : List Checkpoint},
    Since (Unlogged w) base ⟨h, cps⟩ → Since (Unlogged w) base ⟨h', cps⟩ := by
  induction hflow with
  | Refl => exact id
  | Ask guard asked _ ih => exact fun hs => ih (since_ask guard asked hs)
  | Frame _ _ closed _ ihbody ihrest =>
    intro base cps hs
    have hbody := ihbody (since_checkpoint hs)
    apply ihrest
    obtain rfl | hback := closed
    · exact { hbody with frames := hbody.frames.tail }
    · rw [rollback_ok hback]
      exact since_rollback (i := 0) hbody rfl

theorem restored_inherent (hr : Restored w (Inherent w) h h') : Restored w (fun _ => False) h h' where
  __ := hr
  warm key := by
    obtain hsame | ⟨hin, hw⟩ := hr.warm key
    · exact .inl hsame
    · left
      cases key with
      | Account a => rw [hw, Host.isWarm, show w.isPrecompile a = true from hin, Bool.true_or]
      | Slot key => exact hin.elim

theorem since_restored (hs : Since (Unlogged w) h.checkpoint.1 ⟨h₁, cps⟩) (hback : h₁.rollback h.checkpoint.2 = .ok h₂)
    : Restored w (fun _ => False) h h₂ := by
  rw [rollback_ok hback]
  exact restored_inherent (restored_of_since hs)

theorem frame_restored (body : Flow w isStatic h.checkpoint.1 h₁) (hback : h₁.rollback h.checkpoint.2 = .ok h₂) :
    Restored w (fun _ => False) h h₂ := since_restored (flow_since body (since_start h.checkpoint.1)) hback

theorem Restored.keepsWarm (hr : Restored w (fun _ => False) h h') (hw : h.isWarm w key = true) :
    h'.isWarm w key = true := by
  obtain hsame | ⟨hno, -⟩ := hr.warm key
  · rw [hsame, hw]
  · exact hno.elim

-- No stamp runs ahead of the transaction.

theorem call_bounded (hc : h.call w op = .ok (h', answer)) (hb : Bounded h) :
    Bounded h' := by
  obtain ⟨acts, hruns, -, -⟩ := call_does hc
  clear hc
  induction acts generalizing h with
  | nil =>
    cases hruns
    exact hb
  | cons a acts ih => exact ih (bounded_act hb a) hruns.2

theorem call_stamps (key : Key) (hc : h.call w op = .ok (h', answer)) (hb : Bounded h) (hkey : key ∈ op.keys w h)
    : h'.last (w.last key) = h'.txCounter := by
  obtain ⟨acts, hruns, -, hlasts⟩ := call_does hc
  have hmem : w.last key ∈ acts.flatMap Act.lasts := (hlasts _).mpr (mem_map_of_mem hkey)
  clear hc hlasts hkey
  generalize w.last key = l at hmem
  have hruns' : ∀ {acts : List Act} {g : Host}, g.Runs w acts h' → g.last l = g.txCounter →
      h'.last l = h'.txCounter := by
    intro acts
    induction acts with
    | nil =>
      intro g hr hl
      cases hr
      exact hl
    | cons a acts ih => exact fun hr hl => ih hr.2 ((act_stamp a hl).trans (act_txCounter a).symm)
  induction acts generalizing h with
  | nil => cases hmem
  | cons a acts ih =>
    by_cases ha : l ∈ a.lasts
    · refine hruns' hruns.2 ?_
      rw [last_act hb, if_pos ha, act_txCounter]
    · refine ih (bounded_act hb a) hruns.2 ?_
      rw [flatMap_cons, mem_append] at hmem
      exact hmem.resolve_left ha

theorem call_last (hc : h.call w op = .ok (h', answer)) (hb : Bounded h) (hl : l ∉ (op.keys w h).map w.last)
    : h'.last l = h.last l := by
  obtain ⟨acts, hruns, -, hlasts⟩ := call_does hc
  have hnot : l ∉ acts.flatMap Act.lasts := mt (hlasts l).mp hl
  clear hc hlasts hl
  induction acts generalizing h with
  | nil =>
    cases hruns
    rfl
  | cons a acts ih =>
    rw [flatMap_cons, mem_append, not_or] at hnot
    rw [ih (bounded_act hb a) hruns.2 hnot.2, last_act hb, if_neg hnot.1]

theorem access_warm {a : Address} (hc : h.call w (.AccessAccount a) = .ok (h', answer)) (hb : Bounded h)
    : h'.isWarm w (.Account a) = true := by
  rw [Host.isWarm, Bool.or_eq_true, beq_iff_eq]
  by_cases hp : w.isPrecompile a = true
  · exact .inl hp
  · refine .inr (call_stamps (.Account a) hc hb ?_)
    rw [Op.keys, if_neg hp]
    exact mem_singleton_self _

theorem accessSlot_warm {key : SlotKey} (hc : h.call w (.AccessStorage key) = .ok (h', answer)) (hb : Bounded h)
    : h'.isWarm w (.Slot key) = true := by
  rw [Host.isWarm, beq_iff_eq]
  exact call_stamps (.Slot key) hc hb (mem_singleton_self _)

theorem frame_bounded (body : Flow w isStatic h.checkpoint.1 h₁) (hback : h₁.rollback h.checkpoint.2 = .ok h₂)
    (hb : Bounded h) : Bounded h₂ := by
  have hs := flow_since body (since_start h.checkpoint.1)
  have hcounter : (h₁.rolledBack h.checkpoint.2).txCounter = h.txCounter := by
    rw [Host.rolledBack_txCounter]
    exact hs.counter
  intro l
  rw [rollback_ok hback, hcounter]
  obtain hsame | ⟨-, hval⟩ := (cells_of_since hs).2 (.Last l)
  · rw [show (h₁.rolledBack h.checkpoint.2).last l = h.last l from hsame]
    exact hb l
  · exact Nat.le_of_eq hval

theorem flow_bounded (hflow : Flow w isStatic h h') : Bounded h → Bounded h' := by
  induction hflow with
  | Refl => exact id
  | Ask _ asked _ ih => exact fun hb => ih (call_bounded asked hb)
  | Frame _ body closed _ ihbody ihrest =>
    intro hb
    apply ihrest
    obtain rfl | hback := closed
    · exact ihbody hb
    · exact frame_bounded body hback hb

theorem flow_warm (hflow : Flow w isStatic h h') : h.isWarm w key = true → h'.isWarm w key = true := by
  induction hflow with
  | Refl => exact id
  | Ask _ asked _ ih => exact fun hw => ih (call_warm asked hw)
  | Frame _ body closed _ ihbody ihrest =>
    intro hw
    apply ihrest
    obtain rfl | hback := closed
    · exact ihbody hw
    · exact Restored.keepsWarm (frame_restored body hback) hw

-- A nonce only grows.

variable {c : Content} {idx : Nat}

theorem write_of_ne {i : Nat} {f : Field} (hi : i ≠ idx) : (c.write idx f).fields i = c.fields i :=
  update_of_ne hi ..

theorem write_self {f : Field} : (c.write idx f).fields idx = f.set (c.fields idx) :=
  update_self ..

theorem nonce_balance (c : Content) (idx i : Nat) (v : Word) :
    ((c.write idx (.Balance v)).fields i).nonce = (c.fields i).nonce := by
  by_cases hi : i = idx
  · rw [hi, write_self]
    rfl
  · rw [write_of_ne hi]

theorem nonce_codeHash (c : Content) (idx i : Nat) (v : Bytes32) :
    ((c.write idx (.CodeHash v)).fields i).nonce = (c.fields i).nonce := by
  by_cases hi : i = idx
  · rw [hi, write_self]
    rfl
  · rw [write_of_ne hi]

theorem nonce_move (c : Content) (i j k : Nat) (v : Word) : ((c.move i j v).fields k).nonce = (c.fields k).nonce := by
  unfold Content.move
  split
  · rfl
  · rw [nonce_balance, nonce_balance]

theorem nonce_bequeath (c : Content) (i j k : Nat) (burns : Bool) :
    ((c.bequeath i j burns).fields k).nonce = (c.fields k).nonce := by
  unfold Content.bequeath
  split
  · split
    · rw [nonce_balance]
    · rfl
  · rw [nonce_move]

theorem nonce_of_not_collides {j : Nat} (hn : h.collides w j = false) : (h.content.fields j).nonce = 0 := by
  have hnot : ¬ h.collides w j = true := by rw [hn]; exact nofun
  by_contra hne
  refine hnot ?_
  exact decide_eq_true (.inl hne)

theorem write_nonce_le {i : Nat} {v : UInt64} (hv : (c.fields idx).nonce.toNat ≤ v.toNat) :
    (c.fields i).nonce.toNat ≤ ((c.write idx (.Nonce v)).fields i).nonce.toNat := by
  by_cases hi : i = idx
  · rw [hi, write_self]
    exact hv
  · rw [write_of_ne hi]

theorem nonce_succ {n : UInt64} (hn : n ≠ 0xffffffffffffffff) : (n + 1).toNat = n.toNat + 1 := by
  have hne : n.toNat ≠ 2 ^ 64 - 1 := fun heq => hn (UInt64.toNat_inj.mp heq)
  have hlt := n.toNat_lt
  rw [UInt64.toNat_add, UInt64.toNat_one, Nat.mod_eq_of_lt (by omega)]

theorem call_nonce (guard : Guard w isStatic h op) (hc : h.call w op = .ok (h', answer)) (i : Nat)
    : (h.content.fields i).nonce.toNat ≤ (h'.content.fields i).nonce.toNat := by
  by_cases hop : op.inert = true
  · rw [content_inert hop hc]
  cases op with
  | SetStorage key v =>
    obtain ⟨r, hx, hret⟩ := map_eq_ok.mp hc
    cases hret
    obtain ⟨idx, -, hcontent⟩ := content_setStorage hx
    rw [hcontent]
  | SetTransientStorage key v =>
    obtain ⟨r, hx, hret⟩ := map_eq_ok.mp hc
    cases hret
    rw [content_setTransientStorage hx]
  | EmitLog entry =>
    obtain ⟨r, hx, hret⟩ := map_eq_ok.mp hc
    cases hret
    obtain ⟨logs, hcontent⟩ := content_emitLog hx
    rw [hcontent]
  | Selfdestruct a b =>
    obtain ⟨r, hx, hret⟩ := map_eq_ok.mp hc
    cases hret
    obtain ⟨k, j, -, -, logs, hcontent⟩ := content_selfdestruct hx
    rw [hcontent]
    exact Nat.le_of_eq (congrArg _ (nonce_bequeath ..).symm)
  | TransferValue src dst v =>
    obtain ⟨r, hx, hret⟩ := map_eq_ok.mp hc
    cases hret
    obtain ⟨k, j, -, -, logs, hcontent⟩ := content_transferValue hx
    rw [hcontent]
    exact Nat.le_of_eq (congrArg _ (nonce_move ..).symm)
  | BumpNonce sender =>
    obtain ⟨⟨h₁, bumped⟩, hx, hret⟩ := map_eq_ok.mp hc
    cases hret
    obtain ⟨k, -, ⟨-, -, rfl⟩ | ⟨hmax, -, hcontent⟩⟩ := content_bumpNonce hx
    · exact Nat.le_refl _
    · rw [hcontent]
      exact write_nonce_le (by rw [nonce_succ hmax]; omega)
  | InitCreateAccount sender a v =>
    obtain ⟨⟨h₁, fresh⟩, hx, hret⟩ := map_eq_ok.mp hc
    cases hret
    obtain ⟨j, -, ⟨-, -, rfl⟩ | ⟨hnot, -, c, logs, hcontent, hc'⟩⟩ := content_initCreateAccount hx
    · exact Nat.le_refl _
    · have hle : (h.content.fields i).nonce.toNat ≤ ((h.content.write j (.Nonce 1)).fields i).nonce.toNat :=
        write_nonce_le (by rw [nonce_of_not_collides hnot]; decide)
      rw [hcontent]
      obtain ⟨-, rfl⟩ | ⟨-, k, -, rfl⟩ := hc'
      · exact hle
      · exact Nat.le_trans hle (Nat.le_of_eq (congrArg _ (nonce_move ..).symm))
  | RegisterDeployedCode a hash =>
    obtain ⟨r, hx, hret⟩ := map_eq_ok.mp hc
    cases hret
    obtain ⟨j, -, hcontent⟩ := content_registerDeployedCode hx
    rw [hcontent, nonce_codeHash]
  | Authorize | SetField => exact guard.elim
  | _ => exact absurd rfl hop

theorem flow_nonce (hflow : Flow w isStatic h h') (i : Nat) :
    (h.content.fields i).nonce.toNat ≤ (h'.content.fields i).nonce.toNat := by
  induction hflow with
  | Refl => exact Nat.le_refl _
  | Ask guard asked _ ih => exact Nat.le_trans (call_nonce guard asked i) ih
  | Frame _ body closed _ ihbody ihrest =>
    refine Nat.le_trans ?_ ihrest
    obtain rfl | hback := closed
    · exact ihbody
    · rw [content_restored (frame_restored body hback)]

end Zeg.Execution
