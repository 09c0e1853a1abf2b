import Zeg.Execution.Create

-- What every call keeps, whatever the code of the frames below it.
namespace Zeg.Execution

open Base StateDB Zevm

variable {S : Setting} {w : Witness} {isStatic : Bool} {h h' : Host} {op : Op} {answer : Answer} {msg : Message}
  {e e' : Env World} {r : Result}

-- What each operation under its guard keeps of the content, frames keep: a rollback restores it.
theorem flow_content {R : Content → Content → Prop} (hrefl : ∀ c, R c c) (htrans : ∀ {a b c}, R a b → R b c → R a c)
    (hask : ∀ {inner h op h' answer}, (isStatic = true → inner = true) → Guard w inner h op →
      h.call w op = .ok (h', answer) → R h.content h'.content)
    (hflow : Flow w isStatic h h') : R h.content h'.content := by
  induction hflow with
  | Refl => exact hrefl _
  | Ask guard asked _ ih => exact htrans (hask id guard asked) (ih hask)
  | Frame static body closed _ ihbody ihrest =>
    refine htrans ?_ (ihrest hask)
    obtain rfl | hback := closed
    · exact ihbody fun hs => hask fun h => hs (static h)
    · rw [content_restored (frame_restored body hback)]
      exact hrefl _

-- The second account of the sample block has code of its own, and the first calls it.
def calledHost : Host :=
  (tinyHost.act (.Write [(1, .CodeHash (digestOf 9))] [(1, .CodeHash (digestOf 9))] fun _ => Iff.rfl)).act
    (.Warm (.Account 1))

def calledEnv (code : Bytes) : Env World :=
  ⟨⟨calledHost, ⟨[⟨digestOf 9, code, .Heap, none, false⟩], fun hash => if hash = digestOf 9 then some 0 else none, []⟩,
    tinyContext⟩, Memory.EVMMem.init⟩

def tinyCall (isStatic : Bool) : Message :=
  { tinyCreate with kind := .Call, isStatic, gas := 9000, inputData := [], codeAddress := tinyAddress 0xbb
                    value := if isStatic then 0 else 5 }

theorem tinyCall_ready (isStatic : Bool) : Ready (tinySetting .Shanghai) (tinyCall isStatic) calledHost where
  bounded := bounded_act (bounded_act tinyHost_bounded _) _
  gas := by decide +revert
  stateGas := by decide +revert
  recipient := by decide +revert
  code _ _ := by decide +revert
  covered _ _ i hi := by
    cases hi
    decide +revert
  peaceful hstatic := ⟨nofun, nofun, fun _ => if_pos hstatic⟩

-- static mode

theorem inert_of_static (guard : Guard w true h op) : op.inert = true := by
  cases op with
  | SetStorage | TransferValue | InitCreateAccount => cases guard.1
  | SetTransientStorage | EmitLog | Selfdestruct | BumpNonce | RegisterDeployedCode => cases guard
  | Authorize | SetField => exact guard.elim
  | _ => rfl

theorem static_call_isolated (S : Setting) (hS : S.Lawful) (n : Nat) (msg : Message) (e : Env World) (r : Result)
    (e' : Env World) (hready : Ready S msg e.host.db) (hstatic : msg.isStatic = true)
    (h : call S n msg e = .ok (r, e')) : e'.host.db.content = e.host.db.content := by
  have hflow := call_flows hS n msg e r e' hready h
  rw [hstatic] at hflow
  refine flow_content (R := fun c c' => c' = c) (fun _ => rfl) (fun hx hy => hy.trans hx) ?_ hflow
  intro inner h op h' answer hinner guard asked
  rw [hinner rfl] at guard
  exact content_inert (inert_of_static guard) asked

-- The called code writes a slot.
theorem static_call_isolated_store : ∃ r e',
    call (tinySetting .Shanghai) 1 (tinyCall true) (calledEnv [0x5f, 0x5f, 0x55]) = .ok (r, e') ∧
    r.status = .StaticModeViolation ∧ e'.host.db.content = calledHost.content := by
  have hrun : (call (tinySetting .Shanghai) 1 (tinyCall true) (calledEnv [0x5f, 0x5f, 0x55])).map (·.1.status) =
      .ok .StaticModeViolation := by decide +kernel
  obtain ⟨⟨r, e'⟩, h, hstatus⟩ := map_eq_ok.mp hrun
  exact ⟨r, e', h, hstatus, static_call_isolated _ (tinySetting_lawful _) 1 _ _ r e' (tinyCall_ready true) rfl h⟩

-- failures

theorem failed_call_restores (S : Setting) (hS : S.Lawful) (n : Nat) (msg : Message) (e : Env World) (r : Result)
    (e' : Env World) (hready : Ready S msg e.host.db) (hkind : msg.kind ≠ .Create ∧ msg.kind ≠ .Create2)
    (hstatus : r.status ≠ .Success) (h : call S n msg e = .ok (r, e')) :
    e'.host.db.content = e.host.db.content := by
  obtain ⟨k, db, rfl, hcommit, hway⟩ := call_cases h
  obtain ⟨hflow, hc⟩ := commit_flow (S := S) msg.isStatic hcommit
  have hready' := hready.flow hflow hc
  rw [← hc]
  obtain ⟨-, -, hpre⟩ | ⟨hcreate, -⟩ | ⟨-, -, hcode⟩ := hway
  · obtain ⟨-, db₁, hload, ⟨hcall, -, db₂, db₃, hsend, hclose, rfl⟩ | ⟨-, rfl⟩⟩ := callPrecompile_ok hpre
    · obtain ⟨hsuccess, -⟩ | ⟨-, hback⟩ := close_cases hclose
      · exact absurd hsuccess hstatus
      obtain ⟨hflow₁, hc₁⟩ := load_flow msg.isStatic hload
      have hready₁ := hready'.flow hflow₁ hc₁
      have hcovered := hready₁.covered (by rw [hcall]; exact nofun) (by rw [hcall]; exact nofun)
      have hbody := send_flow (h := db₁.checkpoint.1) hready.peaceful (fun _ => hcovered) hsend
      exact (content_restored (frame_restored hbody hback)).trans hc₁
    · exact (load_flow msg.isStatic hload).2
  · exact (hcreate.elim hkind.1 hkind.2).elim
  · obtain ⟨h₁, body, hclose⟩ := callCode_opens (e := setDb e db) (call_gas hS k) (call_flows hS k) hready' hkind hcode
    obtain ⟨hsuccess, -⟩ | ⟨-, hback⟩ := close_cases hclose
    · exact absurd hsuccess hstatus
    · exact content_restored (frame_restored body hback)

-- The called code is an invalid instruction.
theorem failed_call_restores_invalid : ∃ r e',
    call (tinySetting .Shanghai) 1 (tinyCall false) (calledEnv [0xfe]) = .ok (r, e') ∧
    r.status = .InvalidInstruction ∧ e'.host.db.content = calledHost.content := by
  have hrun : (call (tinySetting .Shanghai) 1 (tinyCall false) (calledEnv [0xfe])).map (·.1.status) =
      .ok .InvalidInstruction := by decide +kernel
  obtain ⟨⟨r, e'⟩, h, hstatus⟩ := map_eq_ok.mp hrun
  exact ⟨r, e', h, hstatus, failed_call_restores _ (tinySetting_lawful _) 1 _ _ r e' (tinyCall_ready false)
    (by decide) (by rw [hstatus]; exact nofun) h⟩

-- Ether: the sum of all balances.
def ether (w : Witness) (c : Content) : Int :=
  Base.total (fun (_ : Fin w.accounts.length) (f : Fields) => (f.balance.toNat : Int)) fun i => c.fields i

section Ether

variable {c c' : Content} {a : Address} {i j : Nat} {v : Word}

theorem row_lt (hi : w.accountRow a = .ok i) : i < w.accounts.length := by
  by_contra hge
  have hfound := List.of_findIdx?_eq_some (accountRow_eq_ok hi)
  rw [List.getElem?_eq_none (Nat.le_of_not_lt hge)] at hfound
  cases hfound

theorem ether_write (hi : i < w.accounts.length) (f : Field) :
    ether w (c.write i f) = ether w c - (c.fields i).balance.toNat + (f.set (c.fields i)).balance.toNat := by
  have hrows : (fun k : Fin w.accounts.length => (c.write i f).fields k) =
      Function.update (fun k : Fin w.accounts.length => c.fields k) ⟨i, hi⟩ (f.set (c.fields i)) :=
    Function.update_comp_eq_of_injective c.fields Fin.val_injective ⟨i, hi⟩ _
  rw [ether, hrows, total_update]
  rfl

theorem ether_kept {f : Field} (hi : i < w.accounts.length)
    (hf : (f.set (c.fields i)).balance = (c.fields i).balance) : ether w (c.write i f) = ether w c := by
  rw [ether_write hi, hf, Int.sub_add_cancel]

theorem balances_le (hi : i < w.accounts.length) (hj : j < w.accounts.length) (hij : i ≠ j) :
    ((c.fields i).balance.toNat : Int) + (c.fields j).balance.toNat ≤ ether w c := by
  have hfirst := ether_write (c := c) hi (.Balance 0)
  have hsecond := ether_write (c := c.write i (.Balance 0)) hj (.Balance 0)
  rw [write_of_ne hij.symm] at hsecond
  have hnonneg : 0 ≤ ether w ((c.write i (.Balance 0)).write j (.Balance 0)) :=
    total_nonneg _ fun _ _ => Int.natCast_nonneg _
  have hzero : ∀ f : Fields, ((Field.Balance 0).set f).balance.toNat = 0 := fun _ => rfl
  rw [hzero] at hfirst hsecond
  omega

-- No transfer wraps a balance.
theorem ether_move (hi : i < w.accounts.length) (hj : j < w.accounts.length) (hv : v ≤ (c.fields i).balance)
    (hfit : ether w c < 2 ^ 256) : ether w (c.move i j v) = ether w c := by
  unfold Content.move
  split
  · rfl
  · next hij =>
    have hsum := balances_le (c := c) hi hj hij
    have hle : v.toNat ≤ (c.fields i).balance.toNat := hv
    have hdebit : ((c.fields i).balance - v).toNat = (c.fields i).balance.toNat - v.toNat :=
      BitVec.toNat_sub_of_le hv
    have hcredit : ((c.fields j).balance + v).toNat = (c.fields j).balance.toNat + v.toNat := by
      rw [BitVec.toNat_add, Nat.mod_eq_of_lt (by omega)]
    rw [ether_write hj, ether_write hi, write_of_ne (Ne.symm hij)]
    show ether w c - _ + (((c.fields i).balance - v).toNat : Int) - _ + (((c.fields j).balance + v).toNat : Int) = _
    rw [hdebit, hcredit]
    omega

-- None is made, and before Amsterdam alone some can be burnt.
def Conserves (w : Witness) (c c' : Content) : Prop :=
  ether w c < 2 ^ 256 → ether w c' ≤ ether w c ∧ (w.isAmsterdamOrLater = true → ether w c' = ether w c)

theorem conserves_of_eq (heq : ether w c' = ether w c) : Conserves w c c' := fun _ => ⟨heq.le, fun _ => heq⟩

theorem Conserves.trans {c'' : Content} (hx : Conserves w c c') (hy : Conserves w c' c'') : Conserves w c c'' := by
  intro hfit
  obtain ⟨hle, heq⟩ := hx hfit
  obtain ⟨hle', heq'⟩ := hy (by omega)
  exact ⟨by omega, fun ham => (heq' ham).trans (heq ham)⟩

theorem conserves_bequeath {burns : Bool} (hi : i < w.accounts.length) (hj : j < w.accounts.length)
    (hburns : w.isAmsterdamOrLater = true → burns = false) : Conserves w c (c.bequeath i j burns) := by
  intro hfit
  unfold Content.bequeath
  split
  · cases burns with
    | false => exact ⟨Int.le_refl _, fun _ => rfl⟩
    | true =>
      refine ⟨?_, fun ham => by cases hburns ham⟩
      have hwrite := ether_write (c := c) hi (.Balance 0)
      have hzero : ((Field.Balance 0).set (c.fields i)).balance.toNat = 0 := rfl
      rw [if_pos rfl, hwrite, hzero]
      omega
  · exact conserves_of_eq (ether_move hi hj (BitVec.le_refl _) hfit) hfit

theorem asked_conserves (guard : Guard w isStatic h op) (asked : h.call w op = .ok (h', answer)) :
    Conserves w h.content h'.content := by
  by_cases hop : op.inert = true
  · rw [content_inert hop asked]
    exact conserves_of_eq rfl
  cases op with
  | SetStorage key v =>
    obtain ⟨r, hx, hret⟩ := map_eq_ok.mp asked
    cases hret
    obtain ⟨idx, -, hcontent⟩ := content_setStorage hx
    rw [hcontent]
    exact conserves_of_eq rfl
  | SetTransientStorage key v =>
    obtain ⟨r, hx, hret⟩ := map_eq_ok.mp asked
    cases hret
    rw [content_setTransientStorage hx]
    exact conserves_of_eq rfl
  | EmitLog entry =>
    obtain ⟨r, hx, hret⟩ := map_eq_ok.mp asked
    cases hret
    obtain ⟨logs, hcontent⟩ := content_emitLog hx
    rw [hcontent]
    exact conserves_of_eq rfl
  | Selfdestruct a b =>
    obtain ⟨r, hx, hret⟩ := map_eq_ok.mp asked
    cases hret
    obtain ⟨i, j, hi, hj, logs, hcontent⟩ := content_selfdestruct hx
    rw [hcontent]
    exact conserves_bequeath (row_lt hi) (row_lt hj) fun ham => by rw [ham]; exact Bool.and_false _
  | TransferValue src dst v =>
    obtain ⟨r, hx, hret⟩ := map_eq_ok.mp asked
    cases hret
    obtain ⟨i, j, hi, hj, logs, hcontent⟩ := content_transferValue hx
    rw [hcontent]
    exact fun hfit => conserves_of_eq (ether_move (row_lt hi) (row_lt hj) (guard.2 i hi) hfit) hfit
  | BumpNonce sender =>
    obtain ⟨⟨h₁, bumped⟩, hx, hret⟩ := map_eq_ok.mp asked
    cases hret
    obtain ⟨i, hi, ⟨-, -, rfl⟩ | ⟨-, -, hcontent⟩⟩ := content_bumpNonce hx
    · exact conserves_of_eq rfl
    · rw [hcontent]
      exact conserves_of_eq (ether_kept (row_lt hi) rfl)
  | InitCreateAccount sender a v =>
    obtain ⟨⟨h₁, fresh⟩, hx, hret⟩ := map_eq_ok.mp asked
    cases hret
    obtain ⟨j, hj, ⟨-, -, rfl⟩ | ⟨-, -, c, logs, hcontent, hc⟩⟩ := content_initCreateAccount hx
    · exact conserves_of_eq rfl
    have hnonce : ether w (h.content.write j (.Nonce 1)) = ether w h.content := ether_kept (row_lt hj) rfl
    rw [hcontent]
    obtain ⟨-, rfl⟩ | ⟨-, i, hi, rfl⟩ := hc
    · exact conserves_of_eq hnonce
    · intro hfit
      have hv : v ≤ ((h.content.write j (.Nonce 1)).fields i).balance := by
        by_cases hij : i = j
        · rw [hij, write_self]
          exact guard.2 j (hij ▸ hi)
        · rw [write_of_ne hij]
          exact guard.2 i hi
      exact conserves_of_eq ((ether_move (row_lt hi) (row_lt hj) hv (hnonce ▸ hfit)).trans hnonce) hfit
  | RegisterDeployedCode a hash =>
    obtain ⟨r, hx, hret⟩ := map_eq_ok.mp asked
    cases hret
    obtain ⟨j, hj, hcontent⟩ := content_registerDeployedCode hx
    rw [hcontent]
    exact conserves_of_eq (ether_kept (row_lt hj) rfl)
  | Authorize | SetField => exact guard.elim
  | _ => exact absurd rfl hop

end Ether

-- depth

theorem runFrame_congr {call call' : Caller} {code : Bytes} (hH : (host S call).Bounded) (hgas : 0 ≤ msg.gas)
    (hstate : 0 ≤ msg.stateGas) (hsame : ∀ child x, 0 ≤ child.gas → 0 ≤ child.stateGas → child.depth = msg.depth + 1 →
      call' child x = call child x) :
    runFrame S call' msg code e = runFrame S call msg code e := by
  have hspec := @run_spec ⟨S.witness.revision, msg, code⟩ S.keccak (msg.gas.toNat + 1) hgas hstate (by simp only; omega)
  have hrun : (run S.keccak ⟨S.witness.revision, msg, code⟩ (msg.gas.toNat + 1)).run (host S call').serve e =
      (run S.keccak ⟨S.witness.revision, msg, code⟩ (msg.gas.toNat + 1)).run (host S call).serve e := by
    refine hspec.run_congr (fun q x hallowed => ?_) fun hallowed hserve => bounded_answers hH hallowed hserve
    cases q with
    | Host q | Mem q => rfl
    | Call child => exact hsame child x hallowed.1 hallowed.2.1 hallowed.2.2.1
  rw [runFrame, runFrame, hrun]

end Zeg.Execution
