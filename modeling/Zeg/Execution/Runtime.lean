import Zeg.Execution.Transaction
import Zeg.Gas.Theorems
import Zeg.StateDB.Content
import Mathlib.Data.BitVec
import Mathlib.Tactic.Ring

-- The runtime phase of a transaction: it is undone as a whole when its charges run out of gas, and
-- charges each authority once.
namespace Zeg.Execution

open Base StateDB Zevm Transactions List
open Gas (Purse BlockGas)

variable {S : Setting} {B : BlockInfo} {tx : View} {h h₁ h' : Host} {m m' : World} {x x' : Authorizing} {w : Witness}

def AnyTouch (w : Witness) (l : Last) : Prop := ∃ key : Key, True ∧ w.last key = l

def Undoable (w : Witness) (h h' : Host) : Prop :=
  ∀ base frames, Since (AnyTouch w) base ⟨h, frames⟩ → Since (AnyTouch w) base ⟨h', frames⟩

theorem Undoable.trans (hx : Undoable w h h₁) (hy : Undoable w h₁ h') : Undoable w h h' :=
  fun base frames hs => hy base frames (hx base frames hs)

theorem undoable_call (op : Op) (hraw : ¬ op.WritesRaw w) (hc : (h.call w op).map Prod.fst = .ok h') :
    Undoable w h h' := by
  obtain ⟨⟨h', answer⟩, hcall, rfl⟩ := map_eq_ok.mp hc
  exact fun _ _ hs => since_call hs hraw (fun key _ => ⟨key, trivial, rfl⟩) hcall

theorem undoable_exists {a : Address} {found : Bool} (hc : h.accountExists w a = .ok (h', found)) :
    Undoable w h h' := by
  refine undoable_call (.AccountExists a) id ?_
  rw [Host.call, hc]
  rfl

theorem undoable_entry {a : Address} {hash : Bytes32} (hc : h.codeAndEntry w a = .ok (h', hash)) :
    Undoable w h h' := by
  refine undoable_call (.EntryCode a) id ?_
  rw [Host.call, hc]
  rfl

theorem undoable_access {a : Address} {status : AccessStatus} (hc : h.accessAccount w a = .ok (h', status)) :
    Undoable w h h' := by
  refine undoable_call (.AccessAccount a) id ?_
  rw [Host.call, hc]
  rfl

theorem undoable_drop : Undoable w h { h with balPending := .None } :=
  undoable_call (.EndFrame true) id rfl

theorem undoable_commit (hc : h.balCommitPending = .ok h') : Undoable w h h' := by
  refine undoable_call (.GetTransientStorage (addressOf 0, 0)) id ?_
  rw [Host.call, Host.getTransientStorage, hc]
  rfl

theorem undoable_authorize {signer : Address} {nonce : UInt64} {hash : Bytes32} {isDelegation applied : Bool}
    (hw : w.isAmsterdamOrLater = true) (hc : h.authorize w signer nonce hash isDelegation applied = .ok h') :
    Undoable w h h' := by
  refine undoable_call (.Authorize signer nonce hash isDelegation applied) ?_ ?_
  · intro hraw
    rw [Op.WritesRaw, hw] at hraw
    cases hraw
  · rw [Host.call, hc]
    rfl

-- The authorizations.

theorem applyAuthorization_db {a : Authorization} {signer : Address} {idx : Nat} {isDelegation applied : Bool}
    (hc : applyAuthorization S a signer idx isDelegation applied m = .ok m') :
    m.db.authorize S.witness signer a.nonce (delegationHash S a.delegate) isDelegation applied = .ok m'.db := by
  simp only [applyAuthorization, bind_eq_ok] at hc
  obtain ⟨db, hdb, hret⟩ := hc
  cases hret
  exact hdb

theorem applyAuthorization_tx {a : Authorization} {signer : Address} {idx : Nat} {isDelegation applied : Bool}
    (hc : applyAuthorization S a signer idx isDelegation applied m = .ok m') : m'.tx = m.tx := by
  simp only [applyAuthorization, bind_eq_ok] at hc
  obtain ⟨db, -, hret⟩ := hc
  cases hret
  rfl

theorem codeOfRow_none {idx : Nat} (hc : m.codeOfRow idx = .ok none) :
    (m.db.accounts idx).codeHash = kEmptyCodeHash := by
  simp only [World.codeOfRow] at hc
  split at hc
  · assumption
  · obtain ⟨_, -, hsome⟩ := map_eq_ok.mp hc
    cases hsome

theorem authorizeRow_cases {a : Authorization} {signer : Address} {idx : Nat}
    (hc : authorizeRow S a signer idx x m = .ok (x', m')) : ∃ (found : Authority) (valid isDelegation applied : Bool),
      m.db.authorize S.witness signer a.nonce (delegationHash S a.delegate) isDelegation applied = .ok m'.db ∧
      m'.tx = m.tx ∧ x.settle found valid = (x', applied) ∧ found.idx = idx ∧ found.alive = m.db.nonEmpty idx ∧
      (valid = true → (m.db.accounts idx).nonce = a.nonce ∧
        ((m.db.accounts idx).codeHash = kEmptyCodeHash ∨ isDelegation = true)) := by
  simp only [authorizeRow, bind_eq_ok] at hc
  obtain ⟨code, hcode, m₁, happly, hret⟩ := hc
  cases hret
  refine ⟨_, _, _, _, applyAuthorization_db happly, applyAuthorization_tx happly, rfl, rfl, rfl, fun hvalid => ?_⟩
  rw [Bool.and_eq_true, Bool.or_eq_true, decide_eq_true_eq] at hvalid
  refine ⟨hvalid.2, hvalid.1.imp_left fun hnone => ?_⟩
  rw [Option.isNone_iff_eq_none] at hnone
  exact codeOfRow_none (hnone ▸ hcode)

theorem processSingleAuthorization_cases {chainId : Nat} {a : Authorization}
    (hc : processSingleAuthorization S chainId a x m = .ok (x', m')) :
    (x' = x ∧ m' = m) ∨ ∃ signer idx, authSigner S chainId a = some signer ∧ S.witness.accountRow signer = .ok idx ∧
      authorizeRow S a signer idx x m = .ok (x', m') := by
  simp only [processSingleAuthorization] at hc
  split at hc
  · cases hc
    exact .inl ⟨rfl, rfl⟩
  · next signer hsigner =>
    obtain ⟨idx, hidx, hrow⟩ := bind_eq_ok.mp hc
    exact .inr ⟨signer, idx, hsigner, hidx, hrow⟩

-- The induction over the list: what one authorization keeps, all of them keep.
theorem authorizationLoop_keeps {chainId : Nat} {auths : List Authorization} (P : Authorizing → World → Prop)
    (hstep : ∀ a x m x' m', x.gas.runtimeOog = false → P x m →
      processSingleAuthorization S chainId a x m = .ok (x', m') → P x' m')
    (hgas : x.gas.runtimeOog = false) (hstart : P x m) (hc : authorizationLoop S chainId auths x m = .ok (x', m')) : P x' m' := by
  induction auths generalizing x m with
  | nil =>
    cases hc
    exact hstart
  | cons a auths ih =>
    obtain ⟨⟨x₁, m₁⟩, hfirst, hrest⟩ := bind_eq_ok.mp hc
    have hkept := hstep a x m x₁ m₁ hgas hstart hfirst
    dsimp only at hrest
    split at hrest
    · cases hrest
      exact hkept
    · next hgas₁ => exact ih (Bool.eq_false_iff.mpr hgas₁) hkept hrest

theorem authorizationLoop_undoable {chainId : Nat} {auths : List Authorization}
    (hw : S.witness.isAmsterdamOrLater = true) (hgas : x.gas.runtimeOog = false)
    (hc : authorizationLoop S chainId auths x m = .ok (x', m')) :
    Undoable S.witness m.db m'.db ∧ m'.tx = m.tx := by
  let P : Authorizing → World → Prop := fun _ m' => Undoable S.witness m.db m'.db ∧ m'.tx = m.tx
  refine authorizationLoop_keeps P ?_ hgas ⟨fun _ _ hs => hs, rfl⟩ hc
  intro a x m₁ x₁ m₂ _ hkept hfirst
  obtain ⟨-, rfl⟩ | ⟨signer, idx, -, -, hrow⟩ := processSingleAuthorization_cases hfirst
  · exact hkept
  · obtain ⟨_, _, _, _, hauth, htx, -⟩ := authorizeRow_cases hrow
    exact ⟨hkept.1.trans (undoable_authorize hw hauth), htx.trans hkept.2⟩

-- The charges.

def Charge.cost : Charge → Int
  | .NewAccount => Gas.NEW_ACCOUNT_STATE_GAS
  | .AccountWrite => Gas.ACCOUNT_WRITE
  | .DelegationBytes => Gas.DELEGATION_BYTES_STATE_GAS

-- Regular gas and reservoir.
def total (p : Purse) : Int := p.gas + p.left

theorem total_take {p q : Purse} {c : Charge} (hc : c.take p = some q) : total q = total p - c.cost := by
  cases c with
  | AccountWrite =>
    simp only [Charge.take, Purse.spend] at hc
    split at hc
    · cases hc
    · cases hc
      simp only [total, Charge.cost]
      omega
  | NewAccount | DelegationBytes =>
    simp only [Charge.take, Purse.charge] at hc
    split at hc
    · cases hc
      simp only [total, Charge.cost]
      omega
    · split at hc
      · cases hc
      · cases hc
        simp only [total, Charge.cost]
        omega

theorem total_takeAll {p q : Purse} {cs : List Charge} (hc : takeAll p cs = .ok q) :
    total q = total p - (cs.map Charge.cost).sum := by
  induction cs generalizing p with
  | nil =>
    cases hc
    simp
  | cons c cs ih =>
    simp only [takeAll] at hc
    split at hc
    · cases hc
    · next p₁ htake =>
      rw [ih hc, total_take htake, map_cons, sum_cons]
      omega

section Dues

variable {c : AuthCharges} {a : Authority}

theorem newAccount_mem_dues : .NewAccount ∈ c.dues a ↔ a.alive = false := by
  simp [AuthCharges.dues]

theorem accountWrite_mem_dues : .AccountWrite ∈ c.dues a ↔ a.idx ∉ c.written := by
  simp [AuthCharges.dues]

theorem delegationBytes_mem_dues (hd : .DelegationBytes ∈ c.dues a) : a.idx ∉ c.bytesCharged := by
  simp [AuthCharges.dues] at hd
  exact hd.2.2.2

theorem nodup_dues : (c.dues a).Nodup := by
  unfold AuthCharges.dues
  split <;> split <;> split <;> simp

end Dues

-- What holds between two authorizations: no charge has been made twice, and one that was made is
-- remembered, the new account's by the nonce that the authorization gave it.
structure Charged (start : Int) (x : Authorizing) (h : Host) (c : AuthCharges) : Prop where
  charges : x.charges = some c
  refund : x.refund = 0
  once : c.paid.Nodup
  written : ∀ i, (i, .AccountWrite) ∈ c.paid → i ∈ c.written
  bytes : ∀ i, (i, .DelegationBytes) ∈ c.paid → i ∈ c.bytesCharged
  alive : ∀ i, (i, .NewAccount) ∈ c.paid → (h.content.fields i).nonce ≠ 0
  spent : x.gas.runtimeOog = false → total x.gas.purse = start - (c.paid.map fun p => p.2.cost).sum

section Charged

variable {start : Int} {c : AuthCharges} {a : Authority}

theorem Charged.note (hx : Charged start x h c) (i : Nat) (d : Bool) :
    Charged start { x with charges := x.charges.map (·.noteStart i d) } h (c.noteStart i d) := by
  have hsame : (c.noteStart i d).paid = c.paid ∧ (c.noteStart i d).written = c.written ∧
      (c.noteStart i d).bytesCharged = c.bytesCharged := by
    unfold AuthCharges.noteStart
    split <;> exact ⟨rfl, rfl, rfl⟩
  obtain ⟨hpaid, hwritten, hbytes⟩ := hsame
  constructor
  · simp only [hx.charges, Option.map_some]
  · exact hx.refund
  · exact hpaid ▸ hx.once
  · exact hpaid ▸ hwritten ▸ hx.written
  · exact hpaid ▸ hbytes ▸ hx.bytes
  · exact hpaid ▸ hx.alive
  · exact hpaid ▸ hx.spent

theorem Charged.move (hx : Charged start x h c)
    (hnonce : ∀ i, (h.content.fields i).nonce ≠ 0 → (h'.content.fields i).nonce ≠ 0) : Charged start x h' c :=
  { hx with alive := fun i hi => hnonce i (hx.alive i hi) }

theorem disjoint_dues (hx : Charged start x h c) (halive : a.alive = h.nonEmpty a.idx) :
    ∀ k ∈ c.dues a, (a.idx, k) ∉ c.paid := by
  intro k hk hpaid
  cases k with
  | NewAccount =>
    rw [newAccount_mem_dues, halive] at hk
    have hnonce : (h.accounts a.idx).nonce ≠ 0 := hx.alive a.idx hpaid
    simp [Host.nonEmpty, hnonce] at hk
  | AccountWrite => exact accountWrite_mem_dues.mp hk (hx.written a.idx hpaid)
  | DelegationBytes => exact delegationBytes_mem_dues hk (hx.bytes a.idx hpaid)

theorem Charged.record (hx : Charged start x h c) (halive : a.alive = h.nonEmpty a.idx)
    (hoog : x.gas.runtimeOog = false) {p : Purse} (htake : takeAll x.gas.purse (c.dues a) = .ok p)
    (hnonce : ∀ i, (h.content.fields i).nonce ≠ 0 → (h'.content.fields i).nonce ≠ 0)
    (hsigner : (h'.content.fields a.idx).nonce ≠ 0) :
    Charged start { x with gas := ⟨p, false⟩, charges := some (c.record a.idx (c.dues a)) } h'
      (c.record a.idx (c.dues a)) := by
  have hmem : ∀ {i k}, (i, k) ∈ (c.record a.idx (c.dues a)).paid → (i, k) ∈ c.paid ∨ i = a.idx ∧ k ∈ c.dues a := by
    intro i k hik
    simp only [AuthCharges.record, mem_append, mem_map, Prod.mk.injEq] at hik
    obtain hold | ⟨k', hk', rfl, rfl⟩ := hik
    · exact .inl hold
    · exact .inr ⟨rfl, hk'⟩
  constructor
  · rfl
  · exact hx.refund
  · refine hx.once.append (nodup_dues.map fun _ _ heq => congrArg Prod.snd heq) ?_
    intro pair hold hnew
    obtain ⟨k, hk, rfl⟩ := mem_map.mp hnew
    exact disjoint_dues hx halive k hk hold
  · intro i hi
    simp only [AuthCharges.record]
    obtain hold | ⟨rfl, hdue⟩ := hmem hi
    · split
      · exact mem_append_left _ (hx.written i hold)
      · exact hx.written i hold
    · rw [if_pos hdue]
      exact mem_append_right _ (mem_singleton_self _)
  · intro i hi
    simp only [AuthCharges.record]
    obtain hold | ⟨rfl, hdue⟩ := hmem hi
    · split
      · exact mem_append_left _ (hx.bytes i hold)
      · exact hx.bytes i hold
    · rw [if_pos hdue]
      exact mem_append_right _ (mem_singleton_self _)
  · intro i hi
    obtain hold | ⟨rfl, -⟩ := hmem hi
    · exact hnonce i (hx.alive i hold)
    · exact hsigner
  · intro _
    have hcost : ((c.dues a).map (a.idx, ·)).map (fun p => p.2.cost) = (c.dues a).map Charge.cost := by
      rw [map_map]
      rfl
    rw [total_takeAll htake, hx.spent hoog]
    simp only [AuthCharges.record, map_append, sum_append, hcost]
    omega

end Charged

-- A signer's nonce is below the largest, so the authorization does not take it back to zero.
theorem authSigner_nonce {chainId : Nat} {a : Authorization} {signer : Address}
    (hc : authSigner S chainId a = some signer) : a.nonce + 1 ≠ 0 := by
  unfold authSigner at hc
  split at hc
  · cases hc
  · split at hc
    · cases hc
    · next hmax =>
      intro hzero
      apply hmax
      have hnat := congrArg UInt64.toNat hzero
      apply UInt64.toNat_inj.mp
      have hlt := a.nonce.toNat_lt
      simp at hnat ⊢
      omega

theorem authorizeRow_charged {start : Int} {a : Authorization} {signer : Address} {idx : Nat}
    (hw : S.witness.isAmsterdamOrLater = true) (hrow : S.witness.accountRow signer = .ok idx)
    (hnonce : a.nonce + 1 ≠ 0) (hoog : x.gas.runtimeOog = false) (hx : ∃ c, Charged start x m.db c)
    (hc : authorizeRow S a signer idx x m = .ok (x', m')) : ∃ c, Charged start x' m'.db c := by
  obtain ⟨c, hx⟩ := hx
  obtain ⟨found, valid, isDelegation, applied, hauth, -, hsettle, rfl, halive, hvalid⟩ := authorizeRow_cases hc
  have hcontent := content_authorize hw hrow hauth
  have hkept : ∀ i, (m.db.content.fields i).nonce ≠ 0 → (m'.db.content.fields i).nonce ≠ 0 := by
    intro i hi
    rw [hcontent]
    split
    · by_cases hidx : i = found.idx
      · subst hidx
        simpa [Content.write, Field.set] using hnonce
      · simpa [Content.write, Function.update_of_ne hidx] using hi
    · exact hi
  have hnoted := hx.note found.idx found.delegated
  unfold Authorizing.settle at hsettle
  split at hsettle
  · next hval =>
    obtain ⟨hmatch, hcode⟩ := hvalid hval
    simp only [Authorizing.pay, hx.charges, Option.map_some] at hsettle
    split at hsettle
    · cases hsettle
      exact ⟨_, { hnoted.move hkept with charges := rfl, spent := fun h => Bool.noConfusion h }⟩
    · next p htake =>
      cases hsettle
      refine ⟨_, hnoted.record halive hoog htake hkept ?_⟩
      rw [hcontent, if_pos ⟨hcode, hmatch, rfl⟩]
      simpa [Content.write, Field.set] using hnonce
  · cases hsettle
    exact ⟨_, hnoted.move hkept⟩

theorem authorizationLoop_charged {start : Int} {chainId : Nat} {auths : List Authorization}
    (hw : S.witness.isAmsterdamOrLater = true) (hgas : x.gas.runtimeOog = false) (hx : ∃ c, Charged start x m.db c)
    (hc : authorizationLoop S chainId auths x m = .ok (x', m')) : ∃ c, Charged start x' m'.db c := by
  refine authorizationLoop_keeps (fun x m => ∃ c, Charged start x m.db c) ?_ hgas hx hc
  intro a x m₁ x₁ m₂ hoog hkept hfirst
  obtain ⟨rfl, rfl⟩ | ⟨signer, idx, hsigner, hidx, hrow⟩ := processSingleAuthorization_cases hfirst
  · exact hkept
  · exact authorizeRow_charged hw hidx (authSigner_nonce hsigner) hoog hkept hrow

theorem authCharges_init {senderIdx : Nat} {c : AuthCharges} (hc : AuthCharges.init tx senderIdx w = .ok c) :
    c.paid = [] := by
  unfold AuthCharges.init at hc
  split at hc
  · split at hc
    · obtain ⟨_, -, rfl⟩ := map_eq_ok.mp hc
      rfl
    · cases hc
      rfl
  · cases hc
    rfl

theorem applyAuthorizationList_spec {senderIdx : Nat} {p : Purse} (hw : S.witness.isAmsterdamOrLater = true)
    (htype : tx.type = .SetCode) (hc : applyAuthorizationList S B tx senderIdx ⟨p, false⟩ m = .ok (x, m')) :
    Undoable S.witness m.db m'.db ∧ m'.tx = m.tx ∧ ∃ c, Charged (total p) x m'.db c := by
  simp only [applyAuthorizationList, htype, ne_eq, not_true_eq_false, if_false, hw, if_true, bind_eq_ok] at hc
  obtain ⟨charges, hcharges, auths, -, hloop⟩ := hc
  obtain ⟨c, hinit, rfl⟩ := map_eq_ok.mp hcharges
  obtain ⟨hundo, htx⟩ := authorizationLoop_undoable hw rfl hloop
  have hpaid := authCharges_init hinit
  refine ⟨hundo, htx, authorizationLoop_charged hw rfl ⟨c, ?_⟩ hloop⟩
  constructor
  · rfl
  · rfl
  · rw [hpaid]
    exact nodup_nil
  · rw [hpaid]
    nofun
  · rw [hpaid]
    nofun
  · rw [hpaid]
    nofun
  · rw [hpaid]
    intro _
    simp [total]

-- The first frame's charges.

theorem chargeRecipient_undoable {senderIdx : Nat} {p : Purse} {charged : Option (Purse × Bool)}
    (hc : chargeRecipient S tx senderIdx p h = .ok (charged, h')) : Undoable S.witness h h' := by
  unfold chargeRecipient at hc
  split at hc
  · cases hc
    exact fun _ _ hs => hs
  · obtain ⟨⟨h₁, found⟩, hexists, hret⟩ := bind_eq_ok.mp hc
    cases hret
    exact undoable_exists hexists

theorem chargeDelegate_undoable {delegate : Address} {p : Purse} {charged : Option Purse}
    (hc : chargeDelegate S delegate p h = .ok (charged, h')) : Undoable S.witness h h' := by
  unfold chargeDelegate at hc
  split at hc
  · cases hc
    exact fun _ _ hs => hs
  · obtain ⟨⟨h₁, access⟩, haccess, hrest⟩ := bind_eq_ok.mp hc
    dsimp only at hrest
    split at hrest
    · cases hrest
      exact (undoable_access haccess).trans undoable_drop
    · obtain ⟨h₂, hcommit, hret⟩ := bind_eq_ok.mp hrest
      cases hret
      exact (undoable_access haccess).trans (undoable_commit hcommit)

theorem chargeTarget_undoable {dst : Address} {p : Purse} {charged : Option Purse}
    (hc : chargeTarget S dst p m = .ok (charged, m')) : Undoable S.witness m.db m'.db ∧ m'.tx = m.tx := by
  simp only [chargeTarget, bind_eq_ok] at hc
  obtain ⟨⟨h₁, hash⟩, hentry, code, -, hrest⟩ := hc
  split at hrest
  · cases hrest
    exact ⟨undoable_entry hentry, rfl⟩
  · obtain ⟨⟨p₁, h₂⟩, hdelegate, hret⟩ := bind_eq_ok.mp hrest
    cases hret
    exact ⟨(undoable_entry hentry).trans (chargeDelegate_undoable hdelegate), rfl⟩

theorem topLevelCharges_undoable {senderIdx : Nat} {p : Purse} {charged : Option (Purse × Bool)}
    (hc : topLevelCharges S tx senderIdx p m = .ok (charged, m')) : Undoable S.witness m.db m'.db ∧ m'.tx = m.tx := by
  unfold topLevelCharges at hc
  split at hc
  · obtain ⟨⟨first, h₁⟩, hfirst, hrest⟩ := bind_eq_ok.mp hc
    have hundo := chargeRecipient_undoable hfirst
    dsimp only at hrest
    split at hrest
    · cases hrest
      exact ⟨hundo, rfl⟩
    · cases hrest
      exact ⟨hundo, rfl⟩
    · obtain ⟨⟨p₁, m₁⟩, htarget, hret⟩ := bind_eq_ok.mp hrest
      cases hret
      obtain ⟨hsecond, htx⟩ := chargeTarget_undoable htarget
      exact ⟨hundo.trans hsecond, htx⟩
  · cases hc
    exact ⟨fun _ _ hs => hs, rfl⟩

variable {e e₁ e' : Env World}

theorem executeTopLevelFrame_oog {senderIdx : Nat} {limit : Int} {g : TxGas} {r : Result}
    (hc : executeTopLevelFrame S tx senderIdx limit g e = .ok ((r, true), e')) :
    r = runtimeOogResult limit ∧ Undoable S.witness e.host.db e'.host.db ∧ e'.host.tx = e.host.tx := by
  unfold executeTopLevelFrame at hc
  split at hc
  · cases hc
    exact ⟨rfl, fun _ _ hs => hs, rfl⟩
  · obtain ⟨⟨charged, m⟩, hcharges, hrest⟩ := bind_eq_ok.mp hc
    dsimp only at hrest
    split at hrest
    · cases hrest
      exact ⟨rfl, topLevelCharges_undoable hcharges⟩
    · obtain ⟨_, -, hret⟩ := bind_eq_ok.mp hrest
      cases hret

theorem executeTopLevelFrame_gas {senderIdx : Nat} {limit : Int} {g : TxGas} {r : Result}
    (hc : executeTopLevelFrame S tx senderIdx limit g e = .ok ((r, false), e')) : g.runtimeOog = false := by
  unfold executeTopLevelFrame at hc
  split at hc
  · cases hc
  · next hgas => exact Bool.eq_false_iff.mpr hgas

theorem runtimePhase_oog {senderIdx : Nat} {limit : Int} {p : Purse} {x : Phase}
    (hw : S.witness.isAmsterdamOrLater = true) (htype : tx.type = .SetCode) (hoog : x.gas.runtimeOog = true)
    (hc : runtimePhase S B tx senderIdx limit p e = .ok (x, e')) :
    e'.host.db.content = e.host.db.content ∧ e'.host.tx = e.host.tx ∧ x.result = runtimeOogResult limit ∧
      x.authRefund = 0 := by
  simp only [runtimePhase, bind_eq_ok] at hc
  obtain ⟨⟨y, m⟩, hauths, ⟨⟨r, oog⟩, e₁⟩, hframe, db, hclose, hret⟩ := hc
  cases hret
  obtain rfl : oog = true := hoog
  obtain ⟨hundo, htx, c, hcharged⟩ := applyAuthorizationList_spec hw htype hauths
  obtain ⟨hresult, hcharges, hctx⟩ := executeTopLevelFrame_oog hframe
  have hsince : Since (AnyTouch S.witness) e.host.db.checkpoint.1 ⟨e₁.host.db, [m.db.checkpoint.2]⟩ :=
    hcharges _ _ (since_checkpoint (hundo _ _ (since_start e.host.db.checkpoint.1)))
  have hdb : db = e₁.host.db.rolledBack e.host.db.checkpoint.2 :=
    Except.ok.inj (hclose.symm.trans (rollback_of_marked (since_marked hsince)))
  subst hdb
  exact ⟨content_restored (restored_of_since hsince), hctx.trans htx, hresult, hcharged.refund⟩

def startContent (h : Host) : Content :=
  { fields := h.content.fields
    value := h.content.value
    transient := fun _ => none
    pending := fun _ => False
    logs := [] }

theorem content_beginTransaction (index : Nat) : (h.beginTransaction index).content = startContent h := by
  have hpending : (h.beginTransaction index).content.pending = (startContent h).pending :=
    funext fun _ => propext ⟨nofun, False.elim⟩
  change (⟨_, _, _, (h.beginTransaction index).content.pending, _⟩ : Content) = _
  rw [hpending]
  rfl

theorem content_warmListed (key : Address × Option Bytes32) : (warmListed w h key).content = h.content := by
  obtain ⟨a, _ | key⟩ := key
  · exact content_warmAddr a
  · exact content_warmSlot _

theorem content_warmed (keys : List (Address × Option Bytes32)) :
    (keys.foldl (warmListed w) h).content = h.content := by
  induction keys generalizing h with
  | nil => rfl
  | cons key keys ih => exact ih.trans (content_warmListed key)

theorem content_preWarm (hc : preWarmForTx w B tx h = .ok h') : h'.content = h.content := by
  simp only [preWarmForTx, bind_eq_ok] at hc
  obtain ⟨keys, -, hret⟩ := hc
  cases hret
  rw [content_warmed]
  have hfirst : (h.warmAddr w tx.sender).content = h.content := content_warmAddr tx.sender
  have hsecond : (if w.isShanghaiOrLater = true then (h.warmAddr w tx.sender).warmAddr w B.beneficiary
      else h.warmAddr w tx.sender).content = h.content := by
    split
    · exact (content_warmAddr B.beneficiary).trans hfirst
    · exact hfirst
  cases tx.to? with
  | none => exact hsecond
  | some a => exact (content_warmAddr a).trans hsecond

theorem write_balance (c : Content) (i : Nat) (u v : Word) :
    (c.write i (.Balance u)).write i (.Balance v) = c.write i (.Balance v) := by
  simp only [Content.write, Field.set, Function.update_self, Function.update_idem]

theorem content_debitSender (fee : Word) (idx : Nat) :
    (debitSender fee idx h).content =
      (h.content.write idx (.Nonce ((h.content.fields idx).nonce + 1))).write idx
        (.Balance ((h.content.fields idx).balance - fee)) := by
  let bumped := h.setNonceAt idx ((h.accounts idx).nonce + 1) h.txCounter
  have hbumped : bumped.content = h.content.write idx (.Nonce ((h.content.fields idx).nonce + 1)) :=
    content_setFieldAt idx _ _
  have hbalance : (bumped.accounts idx).balance = (h.content.fields idx).balance := by
    change (bumped.content.fields idx).balance = _
    rw [hbumped]
    simp [Content.write, Field.set]
  refine (@content_setFieldAt bumped idx (.Balance ((bumped.accounts idx).balance - fee)) h.txCounter).trans ?_
  rw [hbumped, hbalance]

theorem content_creditGas {price : Word} {gasLimit i j : Nat} {s : Gas.Settlement} :
    let refunded := h.content.write i
      (.Balance ((h.content.fields i).balance + BitVec.ofNat 256 (Gas.toU64 (gasLimit - s.gasUsed)) * price))
    (creditGas B price gasLimit s i j h).content = refunded.write j
      (.Balance ((refunded.fields j).balance + BitVec.ofNat 256 (Gas.toU64 s.gasUsed) * priorityFee B price)) := by
  intro refunded
  let credited := h.setBalanceAt i
    ((h.accounts i).balance + BitVec.ofNat 256 (Gas.toU64 (gasLimit - s.gasUsed)) * price) h.txCounter
  have hcredited : credited.content = refunded := content_setFieldAt i _ _
  have hbalance : (credited.accounts j).balance = (refunded.fields j).balance :=
    congrArg (fun c : Content => (c.fields j).balance) hcredited
  refine (@content_setFieldAt credited j _ h.txCounter).trans ?_
  rw [hcredited, hbalance]

theorem content_nothingPending (hc : ∀ idx, ¬ h.content.pending idx) :
    (h.applyPendingDestructs w).content = h.content := by
  have hnil : h.pendingDestruct = [] := eq_nil_iff_forall_not_mem.mpr hc
  have hsame : h.applyPendingDestructs w = h := by
    obtain ⟨_, _, _, _, _, pending, _, _, _, _, _, _, _, _⟩ := h
    subst hnil
    rfl
  rw [hsame]

theorem admitTx_spec {index : Nat} {b : BlockGas} {a : Admitted} (hc : admitTx S B index tx b e = .ok (a, e')) :
    S.witness.accountRow tx.sender = .ok a.senderIdx ∧ a.tx.gasLimit = tx.gasLimit.toNat ∧
      a.checked.Covered S.witness.revision a.tx ∧ e'.host.tx.gasPrice = effectiveGasPrice B.baseFee tx ∧
      e'.host.db.content = (debitSender (upfrontFee B e'.host.tx tx) a.senderIdx
        ((e.host.db.beginTransaction index))).content := by
  simp only [admitTx, bind_eq_ok] at hc
  obtain ⟨db, hwarm, hashes, -, idx, hidx, sender, -, list, -, checked, hchecked, hret⟩ := hc
  cases hret
  refine ⟨hidx, rfl, (Gas.checkTransaction_covered hchecked).1, rfl, ?_⟩
  have hcontent : db.content = (e.host.db.beginTransaction index).content := content_preWarm hwarm
  rw [content_debitSender, content_debitSender, hcontent]

-- A transaction's own nonce and fees: all that is left of one whose runtime phase is undone.
def paidContent (c : Content) (sender coinbase : Nat) (fee tip : Word) : Content :=
  let debited := (c.write sender (.Nonce ((c.fields sender).nonce + 1))).write sender
    (.Balance ((c.fields sender).balance - fee))
  debited.write coinbase (.Balance ((debited.fields coinbase).balance + tip))

theorem prague_of_amsterdam {rev : Revision} (hrev : rev.atLeast .Amsterdam = true) : rev.atLeast .Prague = true := by
  revert hrev
  cases rev <;> decide

theorem settle_oog {rev : Revision} {gtx : Gas.Tx} {checked : Gas.Checked}
    (hrev : rev.atLeast .Amsterdam = true) (hcov : checked.Covered rev gtx) :
    let s := Gas.settleTxGas rev gtx checked (runtimeOogResult checked.stateGasLimit).gas 0
    s.gasUsed = gtx.gasLimit - checked.stateGasLimit ∧ s.gasLeft = checked.stateGasLimit ∧ s.blockState = 0 := by
  have hle := Gas.txStateGasLimit_le rev gtx.gasLimit
  have hlimit := hcov.limit
  have hprague := prague_of_amsterdam hrev
  have hfloor := hcov.floor hprague
  have hcap : Gas.cappedRefund rev (gtx.gasLimit - checked.stateGasLimit) 0 = 0 := by
    unfold Gas.cappedRefund
    refine min_eq_left (Int.tdiv_nonneg (by omega) ?_)
    split <;> omega
  simp only [Gas.settleTxGas, runtimeOogResult, Result.gas, hrev, hprague, if_true, Int.zero_add, hcap]
  refine ⟨max_eq_left ?_, trivial, max_eq_left ?_⟩ <;> omega

theorem toU64_natCast {n : Nat} (hn : n < 2 ^ 64) : Gas.toU64 n = n := by
  unfold Gas.toU64
  omega

theorem debit_refund (balance price : Word) {gasLimit limit : Nat} (hle : limit ≤ gasLimit) :
    balance - BitVec.ofNat 256 gasLimit * price + BitVec.ofNat 256 limit * price =
      balance - BitVec.ofNat 256 (gasLimit - limit) * price := by
  have hsplit : BitVec.ofNat 256 gasLimit = BitVec.ofNat 256 (gasLimit - limit) + BitVec.ofNat 256 limit := by
    rw [← BitVec.ofNat_add, Nat.sub_add_cancel hle]
  rw [hsplit]
  ring

theorem content_settled {c : Content} {price : Word} {gasLimit limit i j : Nat} {s : Gas.Settlement}
    (hle : limit ≤ gasLimit) (hlt : gasLimit < 2 ^ 64) (hused : s.gasUsed = gasLimit - limit)
    (hcontent : h.content = (c.write i (.Nonce ((c.fields i).nonce + 1))).write i
      (.Balance ((c.fields i).balance - BitVec.ofNat 256 gasLimit * price))) :
    (creditGas B price gasLimit s i j h).content = paidContent c i j
      (BitVec.ofNat 256 (gasLimit - limit) * price) (BitVec.ofNat 256 (gasLimit - limit) * priorityFee B price) := by
  have hremaining : Gas.toU64 (gasLimit - s.gasUsed) = limit := by
    rw [hused, Int.sub_sub_self]
    exact toU64_natCast (by omega)
  have husedNat : Gas.toU64 s.gasUsed = gasLimit - limit := by
    rw [hused, ← Int.natCast_sub hle]
    exact toU64_natCast (by omega)
  have hbalance : (h.content.fields i).balance = (c.fields i).balance - BitVec.ofNat 256 gasLimit * price := by
    rw [hcontent]
    simp [Content.write, Field.set]
  rw [content_creditGas, hremaining, husedNat, hbalance, debit_refund _ _ hle, hcontent, write_balance]
  rfl

-- What is left of a transaction whose runtime phase ran out of gas. Its regular gas is consumed and
-- the reservoir is returned.
structure PhaseUndone (S : Setting) (B : BlockInfo) (tx : View) (a : Admitted) (e : Env World) (b' : BlockGas)
    (e' : Env World) : Prop where
  sender : S.witness.accountRow tx.sender = .ok a.senderIdx
  state : ∃ coinbaseIdx, S.witness.accountRow B.beneficiary = .ok coinbaseIdx ∧
    e'.host.db.content = paidContent (startContent e.host.db) a.senderIdx coinbaseIdx
      (BitVec.ofNat 256 (tx.gasLimit.toNat - a.checked.stateGasLimit) * effectiveGasPrice B.baseFee tx)
      (BitVec.ofNat 256 (tx.gasLimit.toNat - a.checked.stateGasLimit) * priorityFee B (effectiveGasPrice B.baseFee tx))
  gas : ∃ s, b' = Gas.finalizeReceipt a.blockGas s ∧ s.gasUsed = tx.gasLimit.toNat - a.checked.stateGasLimit ∧
    s.gasLeft = a.checked.stateGasLimit ∧ s.blockState = 0

-- No authority is charged twice for one thing, and nothing else is charged.
def ChargedOnce (a : Admitted) (x : Phase) : Prop :=
  ∃ c, x.charges = some c ∧ c.paid.Nodup ∧ total x.gas.purse = total a.purse - (c.paid.map fun p => p.2.cost).sum

def RuntimeAtomic (S : Setting) (B : BlockInfo) (index : Nat) (tx : View) (b : BlockGas) (e : Env World)
    (b' : BlockGas) (e' : Env World) : Prop :=
  ∃ a e₁ x e₂, admitTx S B index tx b e = .ok (a, e₁) ∧
    runtimePhase S B tx a.senderIdx a.checked.stateGasLimit a.purse e₁ = .ok (x, e₂) ∧
    (x.gas.runtimeOog = true → PhaseUndone S B tx a e b' e') ∧ (x.gas.runtimeOog = false → ChargedOnce a x)

theorem settleTx_oog {index : Nat} {b b' : BlockGas} {a : Admitted} {x : Phase} {e₂ : Env World}
    (hw : S.witness.isAmsterdamOrLater = true) (htype : tx.type = .SetCode) (hoog : x.gas.runtimeOog = true)
    (hallowed : admitTx S B index tx b e = .ok (a, e₁))
    (hphase : runtimePhase S B tx a.senderIdx a.checked.stateGasLimit a.purse e₁ = .ok (x, e₂))
    (hsettle : settleTx S B a x e₂ = .ok (b', e')) : PhaseUndone S B tx a e b' e' := by
  obtain ⟨hcontent, htx, hresult, hrefund⟩ := runtimePhase_oog hw htype hoog hphase
  obtain ⟨hsender, hlimit, hcov, hprice, hstart⟩ := admitTx_spec hallowed
  obtain ⟨coinbaseIdx, hcoinbase, hret⟩ := bind_eq_ok.mp hsettle
  cases hret
  have hs := settle_oog hw hcov
  have hle := Gas.txStateGasLimit_le S.witness.revision a.tx.gasLimit
  rw [← hcov.limit] at hle
  have hdebited : e₂.host.db.content = _ := hcontent.trans (hstart.trans (content_debitSender _ _))
  rw [content_beginTransaction, upfrontFee, htype, if_neg nofun, add_zero, hprice, ← hlimit] at hdebited
  have hsettled := @content_settled B e₂.host.db _ _ a.tx.gasLimit a.checked.stateGasLimit a.senderIdx coinbaseIdx _
    hle (hlimit ▸ tx.gasLimit.toNat_lt) hs.1 hdebited
  rw [hresult, hrefund, htx, hprice]
  constructor
  · exact hsender
  · refine ⟨coinbaseIdx, hcoinbase, ?_⟩
    rw [← hlimit]
    refine (content_nothingPending fun idx => ?_).trans hsettled
    rw [hsettled]
    exact id
  · rw [← hlimit]
    exact ⟨_, rfl, hs⟩

theorem runtimePhase_charged {senderIdx : Nat} {limit : Int} {a : Admitted} {x : Phase}
    (hw : S.witness.isAmsterdamOrLater = true) (htype : tx.type = .SetCode) (hoog : x.gas.runtimeOog = false)
    (hc : runtimePhase S B tx senderIdx limit a.purse e = .ok (x, e')) : ChargedOnce a x := by
  simp only [runtimePhase, bind_eq_ok] at hc
  obtain ⟨⟨y, m⟩, hauths, ⟨⟨r, oog⟩, e₁⟩, hframe, db, -, hret⟩ := hc
  cases hret
  obtain rfl : oog = false := hoog
  obtain ⟨-, -, c, hcharged⟩ := applyAuthorizationList_spec hw htype hauths
  exact ⟨c, hcharged.charges, hcharged.once, hcharged.spent (executeTopLevelFrame_gas hframe)⟩

-- The runtime phase of a set-code transaction is all or nothing, and charges an authority once.
theorem runtime_phase_atomic (S : Setting) (B : BlockInfo) (index : Nat) (tx : View) (b b' : BlockGas)
    (e e' : Env World) (hw : S.witness.isAmsterdamOrLater = true) (htype : tx.type = .SetCode)
    (hc : processTransaction S B index tx b e = .ok (b', e')) : RuntimeAtomic S B index tx b e b' e' := by
  simp only [processTransaction, bind_eq_ok] at hc
  obtain ⟨⟨a, e₁⟩, hallowed, ⟨x, e₂⟩, hphase, hsettle⟩ := hc
  refine ⟨a, e₁, x, e₂, hallowed, hphase, fun hoog => ?_, fun hoog => ?_⟩
  · exact settleTx_oog hw htype hoog hallowed hphase hsettle
  · exact runtimePhase_charged hw htype hoog hphase

-- A set-code transaction of the first sample account, with two authorizations of the second one.
def tinyAuthority : Setting :=
  { witness := tinyWitness .Amsterdam, ancestors := ⟨[], []⟩, number := 1, keccak := fun _ => digestOf 7
    ecrecover := fun _ _ _ _ => some (tinyAddress 0xbb), evmonePrecompile := failed .PrecompileFailure }

def tinyBlock : BlockInfo := ⟨⟨1, 30000000, 1, 1, 0, by decide⟩, tinyAddress 0xbb⟩

def tinyTuple (nonce : UInt8) : Bytes := [0xda, 0x01, 0x94] ++ (tinyAddress 0xaa).toList ++ [nonce, 0x80, 0x01, 0x01]

def tinySetCode (gasLimit : UInt64) : View :=
  { View.init .SetCode with
    chainId := 1
    maxFeePerGas := 3
    maxPriorityFeePerGas := 1
    gasLimit := gasLimit
    to? := some (tinyAddress 0xbb)
    accessListRlp := [0xc0]
    authorizationListRlp := 0xf6 :: (tinyTuple 0x80 ++ tinyTuple 0x01)
    numAuthorizations := 2
    sender := tinyAddress 0xaa }

def tinyFunded : Env World :=
  ⟨⟨Host.start (tinyWitness .Amsterdam) (fun _ => 1000000) (fun _ => 0) (fun _ => kEmptyCodeHash) fun _ => 0,
      ⟨[], fun _ => none, []⟩, ⟨0, tinyAddress 0xaa, tinyAddress 0xbb, 1, 0, 0, 0, 1, 1, 1, [], 0⟩⟩,
    Memory.EVMMem.init⟩

-- With 31000 gas the first charge cannot be paid, with 80000 gas the second authorization applies too.
theorem runtime_phase_atomic_tiny :
    (∃ b' e', processTransaction tinyAuthority tinyBlock 1 (tinySetCode 31000) ⟨0, 0, 0, 0⟩ tinyFunded = .ok (b', e') ∧
      e'.host.db.content.fields 0 = ⟨1000000 - 62000, 1, kEmptyCodeHash⟩ ∧
      e'.host.db.content.fields 1 = ⟨1000000 + 31000, 0, kEmptyCodeHash⟩ ∧
      RuntimeAtomic tinyAuthority tinyBlock 1 (tinySetCode 31000) ⟨0, 0, 0, 0⟩ tinyFunded b' e') ∧
    ∃ b' e', processTransaction tinyAuthority tinyBlock 1 (tinySetCode 80000) ⟨0, 0, 0, 0⟩ tinyFunded = .ok (b', e') ∧
      (e'.host.db.content.fields 1).nonce = 2 ∧ (e'.host.db.content.fields 1).codeHash = digestOf 7 ∧
      RuntimeAtomic tinyAuthority tinyBlock 1 (tinySetCode 80000) ⟨0, 0, 0, 0⟩ tinyFunded b' e' := by
  have hundone : (processTransaction tinyAuthority tinyBlock 1 (tinySetCode 31000) ⟨0, 0, 0, 0⟩ tinyFunded).map
      (fun r => (r.2.host.db.content.fields 0, r.2.host.db.content.fields 1)) =
      .ok (⟨1000000 - 62000, 1, kEmptyCodeHash⟩, ⟨1000000 + 31000, 0, kEmptyCodeHash⟩) := by decide +kernel
  have happlied : (processTransaction tinyAuthority tinyBlock 1 (tinySetCode 80000) ⟨0, 0, 0, 0⟩ tinyFunded).map
      (fun r => ((r.2.host.db.content.fields 1).nonce, (r.2.host.db.content.fields 1).codeHash)) =
      .ok (2, digestOf 7) := by decide +kernel
  obtain ⟨⟨b₁, e₁⟩, h₁, hfields₁⟩ := map_eq_ok.mp hundone
  obtain ⟨⟨b₂, e₂⟩, h₂, hfields₂⟩ := map_eq_ok.mp happlied
  constructor
  · exact ⟨b₁, e₁, h₁, congrArg Prod.fst hfields₁, congrArg Prod.snd hfields₁,
      runtime_phase_atomic _ _ 1 _ _ _ _ _ rfl rfl h₁⟩
  · exact ⟨b₂, e₂, h₂, congrArg Prod.fst hfields₂, congrArg Prod.snd hfields₂,
      runtime_phase_atomic _ _ 1 _ _ _ _ _ rfl rfl h₂⟩

end Zeg.Execution
