import Zeg.Execution.Frames
import Zeg.StateDB.Warmth

-- What a create leaves behind.
namespace Zeg.Execution

open Base StateDB Zevm

-- Only the sender's nonce has changed, and the warmth of the sender and the new address.
structure OnlyBumped (w : Witness) (sender a : Address) (h h' : Host) : Prop where
  content : ∃ i, w.accountRow sender = .ok i ∧
    (h'.content.fields i).nonce.toNat = (h.content.fields i).nonce.toNat + 1 ∧
    h'.content = h.content.write i (.Nonce (h'.content.fields i).nonce)
  warm : ∀ key, key ≠ .Account sender → key ≠ .Account a → h'.isWarm w key = h.isWarm w key
  warmed : h'.isWarm w (.Account sender) = true ∧ h'.isWarm w (.Account a) = true

-- Where the init code starts: the sender's nonce is bumped, the account is new and has the value.
structure Entered (w : Witness) (msg : Message) (h h₁ : Host) (i j : Nat) : Prop where
  sender : w.accountRow msg.sender = .ok i
  account : w.accountRow msg.recipient = .ok j
  distinct : i ≠ j
  bumped : (h₁.content.fields i).nonce.toNat = (h.content.fields i).nonce.toNat + 1
  new : (h.content.fields j).nonce = 0 ∧ (h.content.fields j).codeHash = kEmptyCodeHash
  nonce : (h₁.content.fields j).nonce = 1
  sent : (h₁.content.fields i).balance = (h.content.fields i).balance - msg.value
  received : (h₁.content.fields j).balance = (h.content.fields j).balance + msg.value
  others : ∀ k, k ≠ i → k ≠ j → h₁.content.fields k = h.content.fields k

-- The init code ran to its end, and what it returned is the code of the account.
structure Deployed (S : Setting) (call : Caller) (msg : Message) (e : Env World) (r : Result) (e' : Env World) :
    Prop where
  ran : ∃ entry f e₁ i j, Entered S.witness msg e.host.db entry.host.db i j ∧
    runFrame S call { msg with inputData := [] } msg.inputData entry = .ok (f, e₁) ∧ f.status = .Success ∧
    e'.host.db.content = e₁.host.db.content.write j (.CodeHash (S.keccak f.output)) ∧
    1 ≤ (e'.host.db.content.fields j).nonce.toNat
  output : r.output = []

variable {S : Setting} {call : Caller} {msg : Message} {e e' : Env World} {r : Result}

-- The bump of the nonce and the warming.

variable {w : Witness} {h h' : Host}

theorem warm_of_stamps {key : Key} (hcounter : h'.txCounter = h.txCounter)
    (hlast : h'.last (w.last key) = h.last (w.last key)) : h'.isWarm w key = h.isWarm w key := by
  cases key with
  | Account a => simp only [Host.isWarm, hcounter, hlast]
  | Slot key => simp only [Host.isWarm, hcounter, hlast]

variable {op : Op} {answer : Answer}

theorem warm_of_not_keys {key : Key} (hc : h.call w op = .ok (h', answer)) (hb : Bounded h) (hkey : key ∉ op.keys w h) :
    h'.isWarm w key = h.isWarm w key := by
  have hcounter : h'.txCounter = h.txCounter := does_txCounter (call_does hc)
  refine warm_of_stamps hcounter (call_last hc hb ?_)
  rintro hmem
  obtain ⟨other, hother, heq⟩ := List.mem_map.mp hmem
  exact hkey (last_inj heq ▸ hother)

variable {a : Address}

theorem warm_of_keys (hc : h.call w op = .ok (h', answer)) (hb : Bounded h) (hkey : .Account a ∈ op.keys w h) :
    h'.isWarm w (.Account a) = true := by
  rw [Host.isWarm, Bool.or_eq_true, beq_iff_eq]
  exact .inr (call_stamps _ hc hb hkey)

variable {h₁ h₂ : Host}

theorem bumped_warm {sender : Address} (hb : Bounded h) (hbump : h.bumpNonce S.witness sender = .ok (h₁, true))
    (hwarm : h₁.warmNew S.witness a = .ok h₂) :
    (∀ key, key ≠ .Account sender → key ≠ .Account a → h₂.isWarm S.witness key = h.isWarm S.witness key) ∧
      h₂.isWarm S.witness (.Account sender) = true ∧ h₂.isWarm S.witness (.Account a) = true := by
  have hcall₁ : h.call S.witness (.BumpNonce sender) = .ok (h₁, .Flag true) := map_eq_ok.mpr ⟨_, hbump, rfl⟩
  have hcall₂ : h₁.call S.witness (.WarmNew a) = .ok (h₂, .Unit) := map_eq_ok.mpr ⟨_, hwarm, rfl⟩
  have hb₁ := call_bounded hcall₁ hb
  have hkeys : (Op.BumpNonce sender).keys S.witness h = [.Account sender] := by
    obtain ⟨i, hi, ⟨-, hno, -⟩ | ⟨hmax, -, -⟩⟩ := content_bumpNonce hbump
    · cases hno
    · rw [Op.keys, accountRow_eq_ok hi]
      have hmax : (h.accounts i).nonce ≠ 0xffffffffffffffff := hmax
      exact if_neg (by simpa using hmax)
  refine ⟨fun key h₁ h₂ => ?_, ?_, ?_⟩
  · rw [warm_of_not_keys hcall₂ hb₁ (by simpa [Op.keys] using h₂),
      warm_of_not_keys hcall₁ hb (by rw [hkeys]; simpa using h₁)]
  · exact call_warm hcall₂ (warm_of_keys hcall₁ hb (by rw [hkeys]; exact List.mem_singleton_self _))
  · exact warm_of_keys hcall₂ hb₁ (List.mem_singleton_self _)

theorem onlyBumped_of_restored {h₃ : Host} {sender : Address} (hb : Bounded h)
    (hbump : h.bumpNonce S.witness sender = .ok (h₁, true)) (hwarm : h₁.warmNew S.witness a = .ok h₂)
    (hr : Restored S.witness (fun _ => False) h₂ h₃) : OnlyBumped S.witness sender a h h₃ := by
  obtain ⟨i, hi, hmax, hc⟩ := bumped_content hbump hwarm
  have hc₃ : h₃.content = h.content.write i (.Nonce ((h.content.fields i).nonce + 1)) :=
    (content_restored hr).trans hc
  have hnonce : (h₃.content.fields i).nonce = (h.content.fields i).nonce + 1 := by
    rw [hc₃, write_self]
    rfl
  have hsame : ∀ key, h₃.isWarm S.witness key = h₂.isWarm S.witness key :=
    fun key => (hr.warm key).resolve_right fun hno => hno.1
  obtain ⟨hother, hsender, hnew⟩ := bumped_warm hb hbump hwarm
  refine ⟨⟨i, hi, ?_, ?_⟩, ?_, ?_⟩
  · rw [hnonce, nonce_succ hmax]
  · rw [hnonce]
    exact hc₃
  · exact fun key h₁ h₂ => (hsame key).trans (hother key h₁ h₂)
  · exact ⟨(hsame _).trans hsender, (hsame _).trans hnew⟩

theorem since_logged {base : Host} {cps : List Checkpoint} (hraw : ¬ op.WritesRaw w) (htouched : op.touched = [])
    (hc : h.call w op = .ok (h', answer)) (hs : Since (Unlogged w) base ⟨h, cps⟩) : Since (Unlogged w) base ⟨h', cps⟩ :=
  since_call (r := ⟨h, cps⟩) hs hraw (by rw [htouched]; exact nofun) hc

variable {f : Result}

theorem since_init {base : Host} {cps : List Checkpoint} {e₁ : Env World} (hH : (host S call).Bounded)
    (hflows : call.Flows S) (hb : Bounded h) (hgas : 0 ≤ msg.gas) (hstate : 0 ≤ msg.stateGas)
    (hwarm : h.isWarm S.witness (.Account msg.recipient) = true)
    (hinit : h.initCreateAccount S.witness msg.sender msg.recipient msg.value = .ok (h₁, true))
    (hrun : runFrame S call { msg with inputData := [] } msg.inputData (setDb e h₁) = .ok (f, e₁))
    (hs : Since (Unlogged S.witness) base ⟨h, cps⟩) :
    Since (Unlogged S.witness) base ⟨e₁.host.db, cps⟩ ∧ Flow S.witness msg.isStatic h₁ e₁.host.db := by
  have hcall : h.call S.witness (.InitCreateAccount msg.sender msg.recipient msg.value) = .ok (h₁, .Flag true) :=
    map_eq_ok.mpr ⟨_, hinit, rfl⟩
  have hflow := initFrame_flow hH hflows hb hgas hstate hwarm hcall hrun
  exact ⟨flow_since hflow (since_logged id rfl hcall hs), hflow⟩

theorem codeHash_of_not_collides {j : Nat} (hn : h.collides w j = false) :
    (h.content.fields j).codeHash = kEmptyCodeHash := by
  have hnot : ¬ h.collides w j = true := by rw [hn]; exact nofun
  by_contra hne
  refine hnot ?_
  exact decide_eq_true (.inr (.inl hne))

-- The fields where the init code starts: both nonces are written, then the value is moved.
theorem entry_fields {c c' : Content} {i j : Nat} {n : UInt64} {v : Word} (hij : i ≠ j)
    (hc : v = 0 ∧ c' = (c.write i (.Nonce n)).write j (.Nonce 1) ∨
      v ≠ 0 ∧ c' = ((c.write i (.Nonce n)).write j (.Nonce 1)).move i j v) :
    c'.fields i = { c.fields i with nonce := n, balance := (c.fields i).balance - v } ∧
      c'.fields j = { c.fields j with nonce := 1, balance := (c.fields j).balance + v } ∧
      ∀ k, k ≠ i → k ≠ j → c'.fields k = c.fields k := by
  obtain ⟨rfl, rfl⟩ | ⟨-, rfl⟩ := hc
  · refine ⟨?_, ?_, fun k hi hj => ?_⟩
    · simp [write_of_ne hij, write_self, Field.set]
    · simp [write_of_ne hij.symm, write_self, Field.set]
    · rw [write_of_ne hj, write_of_ne hi]
  · unfold Content.move
    rw [if_neg hij]
    refine ⟨?_, ?_, fun k hi hj => ?_⟩
    · simp [write_of_ne hij, write_self, Field.set]
    · simp [write_of_ne hij.symm, write_self, Field.set]
    · rw [write_of_ne hj, write_of_ne hi, write_of_ne hj, write_of_ne hi]

theorem entered_of_init {h₃ : Host} (hbump : h.bumpNonce S.witness msg.sender = .ok (h₁, true))
    (hwarm : h₁.warmNew S.witness msg.recipient = .ok h₂)
    (hinit : h₂.checkpoint.1.initCreateAccount S.witness msg.sender msg.recipient msg.value = .ok (h₃, true)) :
    ∃ i j, Entered S.witness msg h h₃ i j := by
  obtain ⟨i, hi, hmax, hc⟩ := bumped_content hbump hwarm
  obtain ⟨j, hj, ⟨-, hno, -⟩ | ⟨hfree, -, c, logs, hc₃, hmoved⟩⟩ := content_initCreateAccount hinit
  · cases hno
  have hc₂ : h₂.checkpoint.1.content = h.content.write i (.Nonce ((h.content.fields i).nonce + 1)) := hc
  have hij : i ≠ j := by
    rintro rfl
    have hzero := nonce_of_not_collides hfree
    rw [hc₂, write_self] at hzero
    have hsucc := nonce_succ hmax
    rw [show (h.content.fields i).nonce + 1 = 0 from hzero] at hsucc
    cases hsucc
  have hold : h₂.checkpoint.1.content.fields j = h.content.fields j := by rw [hc₂, write_of_ne hij.symm]
  have hmoves : msg.value = 0 ∧ c = (h.content.write i (.Nonce ((h.content.fields i).nonce + 1))).write j (.Nonce 1) ∨
      msg.value ≠ 0 ∧
        c = ((h.content.write i (.Nonce ((h.content.fields i).nonce + 1))).write j (.Nonce 1)).move i j msg.value := by
    rw [hc₂] at hmoved
    refine hmoved.imp id fun ⟨hv, i', hi', heq⟩ => ⟨hv, ?_⟩
    rw [heq, Except.ok.inj (hi.symm.trans hi')]
  obtain ⟨hfi, hfj, hothers⟩ := entry_fields hij hmoves
  have hfields : h₃.content.fields = c.fields := by rw [hc₃]
  refine ⟨i, j, ?_⟩
  exact
    { sender := hi
      account := hj
      distinct := hij
      bumped := by rw [hfields, hfi, nonce_succ hmax]
      new := by rw [← hold]; exact ⟨nonce_of_not_collides hfree, codeHash_of_not_collides hfree⟩
      nonce := by rw [hfields, hfj]
      sent := by rw [hfields, hfi]
      received := by rw [hfields, hfj]
      others := by rw [hfields]; exact hothers }

theorem afterInit_error {rev : Revision} (h : afterInit rev msg f = .error r) : r.status ≠ .Success := by
  unfold afterInit at h
  split at h
  · cases h
    assumption
  · split at h
    · cases h
      exact nofun
    · split at h
      · cases h
        exact nofun
      · split at h
        · cases h
          exact nofun
        · cases h

theorem afterInit_ok {rev : Revision} (h : afterInit rev msg f = .ok r) :
    f.status = .Success ∧ r.status = .Success ∧ r.output = [] := by
  unfold afterInit at h
  split at h
  · cases h
  · next hstatus =>
    split at h
    · cases h
    · split at h
      · cases h
      · split at h
        · cases h
        · next paid hpaid =>
          cases h
          obtain ⟨p, -, rfl⟩ := Option.map_eq_some_iff.mp hpaid
          exact ⟨not_not.mp hstatus, not_not.mp hstatus, rfl⟩

theorem bumped_ready {db db₁ : Host} (hb : Bounded e.host.db)
    (hbump : e.host.db.bumpNonce S.witness msg.sender = .ok (db, true))
    (hwarm : db.warmNew S.witness msg.recipient = .ok db₁) :
    Bounded db₁ ∧ db₁.isWarm S.witness (.Account msg.recipient) = true :=
  ⟨flow_bounded (bumped_flow hbump hwarm) hb, (bumped_warm hb hbump hwarm).2.2⟩

section Outcome

variable (hH : (host S call).Bounded) (hflows : call.Flows S) (hb : Bounded e.host.db) (hgas : 0 ≤ msg.gas)
  (hstate : 0 ≤ msg.stateGas)

include hH hflows hb hgas hstate

-- Whatever frame is open around a create, all of it can be taken back.
theorem create_since {base : Host} {cps : List Checkpoint} (h : callCreate S call msg e = .ok (r, e'))
    (hs : Since (Unlogged S.witness) base ⟨e.host.db, cps⟩) : Since (Unlogged S.witness) base ⟨e'.host.db, cps⟩ := by
  obtain ⟨db, -, -, rfl⟩ | ⟨db, db₁, db₂, fresh, hbump, hwarm, hinit, hrest⟩ := callCreate_ok h
  · exact hs
  obtain ⟨hb₁, hw₁⟩ := bumped_ready hb hbump hwarm
  have hmarked := since_checkpoint (flow_since (bumped_flow hbump hwarm) hs)
  obtain ⟨rfl, hrun⟩ | ⟨rfl, -, db₃, hback, rfl⟩ := hrest
  · obtain ⟨f, e₁, hframe, hend⟩ := runInit_ok hrun
    obtain ⟨hran, -⟩ := since_init hH hflows (h := db₁.checkpoint.1) hb₁ hgas hstate hw₁ hinit hframe hmarked
    obtain ⟨db₃, -, hback, rfl⟩ | ⟨m, -, hreg, rfl⟩ := hend
    · rw [rollback_ok hback]
      exact since_rollback (i := 0) hran rfl
    · have hcall : e₁.host.db.call S.witness (.RegisterDeployedCode msg.recipient (S.keccak f.output)) =
          .ok (m.db, .Unit) := map_eq_ok.mpr ⟨_, register_ok hreg, rfl⟩
      have hdone := since_logged id rfl hcall hran
      exact { hdone with frames := hdone.frames.tail }
  · have hcall : db₁.checkpoint.1.call S.witness (.InitCreateAccount msg.sender msg.recipient msg.value) =
        .ok (db₂, .Flag false) := map_eq_ok.mpr ⟨_, hinit, rfl⟩
    show Since _ _ ⟨db₃, cps⟩
    rw [rollback_ok hback]
    exact since_rollback (i := 0) (since_logged id rfl hcall hmarked) rfl

theorem create_failed (h : callCreate S call msg e = .ok (r, e')) (hstatus : r.status ≠ .Success) :
    OnlyBumped S.witness msg.sender msg.recipient e.host.db e'.host.db := by
  obtain ⟨db, -, rfl, -⟩ | ⟨db, db₁, db₂, fresh, hbump, hwarm, hinit, hrest⟩ := callCreate_ok h
  · exact absurd rfl hstatus
  obtain ⟨hb₁, hw₁⟩ := bumped_ready hb hbump hwarm
  have hstart := @since_start (Unlogged S.witness) db₁.checkpoint.1
  obtain ⟨rfl, hrun⟩ | ⟨rfl, -, db₃, hback, rfl⟩ := hrest
  · obtain ⟨f, e₁, hframe, hend⟩ := runInit_ok hrun
    obtain ⟨hran, -⟩ := since_init hH hflows (h := db₁.checkpoint.1) hb₁ hgas hstate hw₁ hinit hframe hstart
    obtain ⟨db₃, -, hback, rfl⟩ | ⟨m, hok, -, -⟩ := hend
    · exact onlyBumped_of_restored hb hbump hwarm (since_restored hran hback)
    · exact absurd (afterInit_ok hok).2.1 hstatus
  · have hcall : db₁.checkpoint.1.call S.witness (.InitCreateAccount msg.sender msg.recipient msg.value) =
        .ok (db₂, .Flag false) := map_eq_ok.mpr ⟨_, hinit, rfl⟩
    exact onlyBumped_of_restored hb hbump hwarm (since_restored (since_logged id rfl hcall hstart) hback)

theorem create_deployed {i : Nat} (h : callCreate S call msg e = .ok (r, e')) (hstatus : r.status = .Success)
    (hi : S.witness.accountRow msg.sender = .ok i)
    (hmax : (e.host.db.content.fields i).nonce ≠ 0xffffffffffffffff) : Deployed S call msg e r e' := by
  obtain ⟨db, hbump, -, -⟩ | ⟨db, db₁, db₂, fresh, hbump, hwarm, hinit, hrest⟩ := callCreate_ok h
  · obtain ⟨i', hi', ⟨hlimit, -, -⟩ | ⟨-, hno, -⟩⟩ := content_bumpNonce hbump
    · rw [Except.ok.inj (hi'.symm.trans hi)] at hlimit
      exact absurd hlimit hmax
    · cases hno
  obtain ⟨hb₁, hw₁⟩ := bumped_ready hb hbump hwarm
  have hstart := @since_start (Unlogged S.witness) db₁.checkpoint.1
  obtain ⟨rfl, hrun⟩ | ⟨rfl, rfl, -⟩ := hrest
  · obtain ⟨f, e₁, hframe, hend⟩ := runInit_ok hrun
    obtain ⟨-, hflow⟩ := since_init hH hflows (h := db₁.checkpoint.1) hb₁ hgas hstate hw₁ hinit hframe hstart
    obtain ⟨db₃, herr, -, -⟩ | ⟨m, hok, hreg, rfl⟩ := hend
    · exact absurd hstatus (afterInit_error herr)
    obtain ⟨i, j, hentered⟩ := entered_of_init hbump hwarm hinit
    obtain ⟨j', hj', hc⟩ := content_registerDeployedCode (register_ok hreg)
    cases hentered.account.symm.trans hj'
    obtain ⟨hf, -, hout⟩ := afterInit_ok hok
    have hone : 1 ≤ (e₁.host.db.content.fields j).nonce.toNat := by
      have hgrows := flow_nonce hflow j
      rw [hentered.nonce] at hgrows
      exact hgrows
    refine ⟨⟨setDb e db₂, f, e₁, i, j, hentered, hframe, hf, hc, ?_⟩, hout⟩
    rw [hc, nonce_codeHash]
    exact hone
  · cases hstatus

end Outcome

-- A failed create leaves only the bump and the warmth, a successful one the account; and with the
-- frame around it both go.
def CreateHonest (S : Setting) (call : Caller) (msg : Message) (e : Env World) (r : Result) (e' : Env World) : Prop :=
  (r.status ≠ .Success → OnlyBumped S.witness msg.sender msg.recipient e.host.db e'.host.db) ∧
    (r.status = .Success → Deployed S call msg e r e') ∧
    ∀ h₀ h₂, Flow S.witness false h₀.checkpoint.1 e.host.db → Flow S.witness false e'.host.db h₂ →
      ∃ h₃, h₂.rollback h₀.checkpoint.2 = .ok h₃ ∧ Restored S.witness (fun _ => False) h₀ h₃

-- At the nonce limit call_create reports success, and there is no account.
theorem not_honest_of_limit {i : Nat} (hi : S.witness.accountRow msg.sender = .ok i)
    (hmax : (e.host.db.content.fields i).nonce = 0xffffffffffffffff) (h : callCreate S call msg e = .ok (r, e')) :
    ¬ CreateHonest S call msg e r e' := by
  intro hhonest
  obtain ⟨db, hbump, rfl, -⟩ | ⟨db, db₁, db₂, fresh, hbump, -, -, -⟩ := callCreate_ok h
  · obtain ⟨entry, f, e₁, i', j, hentered, -⟩ := (hhonest.2.1 rfl).ran
    have hsucc := hentered.bumped
    rw [Except.ok.inj (hentered.sender.symm.trans hi), hmax] at hsucc
    have hlt := (entry.host.db.content.fields i).nonce.toNat_lt
    have htop : (0xffffffffffffffff : UInt64).toNat = 2 ^ 64 - 1 := rfl
    omega
  · obtain ⟨i', hi', ⟨-, hno, -⟩ | ⟨hne, -, -⟩⟩ := content_bumpNonce hbump
    · cases hno
    · rw [Except.ok.inj (hi'.symm.trans hi)] at hne
      exact hne hmax

-- The sample block's first transaction, in which the first account creates the second one.
def tinySetting (rev : Revision) : Setting :=
  { witness := tinyWitness rev, ancestors := ⟨[], []⟩, number := 1, keccak := fun _ => digestOf 7
    ecrecover := fun _ _ _ _ => none, evmonePrecompile := failed .PrecompileFailure }

theorem tinySetting_lawful (rev : Revision) : (tinySetting rev).Lawful := fun _ => failed_bounded _

def tinyContext : TxContext :=
  ⟨0, tinyAddress 0xaa, tinyAddress 0xcc, 1, 0, 0, 0, 1, 0, 0, [], 0⟩

def tinyEnv (h : Host) : Env World := ⟨⟨h, ⟨[], fun _ => none, []⟩, tinyContext⟩, Memory.EVMMem.init⟩

-- The init code returns one byte.
def tinyCreate : Message :=
  { kind := .Create, isStatic := false, isDelegated := false, depth := 1, gas := 1000, stateGas := 0
    recipient := tinyAddress 0xbb, sender := tinyAddress 0xaa, inputData := [0x60, 1, 0x60, 0, 0xf3], value := 5
    codeAddress := addressOf 0 }

theorem tinyHost_bounded : Bounded tinyHost := fun l => by cases l <;> exact Nat.zero_le _

-- The same create from an account whose nonce cannot be bumped.
def limitHost : Host := tinyHost.setNonceAt 0 0xffffffffffffffff 0

end Zeg.Execution
