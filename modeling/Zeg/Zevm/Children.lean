import Zeg.Gas.Conserve
import Zeg.Zevm.Handlers

-- The opcodes that run a child or end the frame keep the books too: a child is given gas its
-- parent has, and what comes back of it is never more.
namespace Zeg.Zevm

open Base StateDB Gas Memory Exec

variable {f : Frame} {s s' : EvmState} {keccak : Bytes → Bytes32} {kind : CallKind} {charged : Bool}

theorem NEW_ACCOUNT_STATE_GAS_nonneg : 0 ≤ NEW_ACCOUNT_STATE_GAS := by decide

theorem stipend_nonneg (value : Word) : 0 ≤ stipend value := by
  unfold stipend
  split <;> decide

theorem stipend_le (rev : Revision) (value : Word) :
    stipend value ≤ if decide (value ≠ 0) = true then callValueCost rev else 0 := by
  unfold stipend
  by_cases hv : value = 0
  · simp [hv]
  · simp only [ne_eq, hv, not_false_eq_true, decide_true, if_true]
    cases rev <;> decide

-- Where the child of a frame whose books were `s` is done: the caller's gas had grown by
-- `extra`, the child was given `gas` of it and the whole reservoir.
structure Returned (f : Frame) (s : EvmState) (gas extra : Int) (r : Result) (s' : EvmState) : Prop where
  ledger : Ledger f s
  affordable : gas ≤ s.purse.gas + extra
  left : 0 ≤ r.left
  spilled : 0 ≤ r.spilled
  gasLeft : 0 ≤ r.gasLeft
  returned : r.gasLeft + r.spilled ≤ gas
  charges : s.purse.left - r.left + r.spilled = r.charged
  purse : s'.purse = { s.purse with gas := s.purse.gas + extra }
  charged : s'.charged = s.charged

variable {extra gas : Int} {r : Result}

-- The books once the child's gas is taken back, and once its state gas is.
theorem Returned.ledger_give (h : Returned f s gas extra r s') :
    Ledger f (s'.give (r.gasLeft - gas)) ∧ (s'.give (r.gasLeft - gas)).worth ≤ s.worth + extra := by
  obtain ⟨hs, haffordable, _, hspilled, hgasLeft, hreturned, _, hpurse, hcharged⟩ := h
  refine ⟨⟨?_, ?_, ?_, ?_, ?_, ?_⟩, ?_⟩ <;> simp only [EvmState.give, EvmState.worth, hpurse, hcharged]
  exacts [by omega, hs.left, hs.spilled, hs.exclusive, hs.charged, hs.frozen, by omega]

theorem Returned.ledger_absorb (h : Returned f s gas extra r s') (hrev : f.rev.atLeast .Amsterdam = true) :
    Ledger f ((s'.give (r.gasLeft - gas)).absorb r) ∧
      ((s'.give (r.gasLeft - gas)).absorb r).worth ≤ s.worth + extra := by
  obtain ⟨⟨_, _, hspilled', _, hbooks, _⟩, haffordable, hleft, hspilled, hgasLeft, hreturned, hcharges, hpurse,
    hcharged⟩ := h
  refine ⟨⟨?_, ?_, ?_, ?_, ?_, by simp [hrev]⟩, ?_⟩ <;>
    simp only [EvmState.give, EvmState.absorb, EvmState.worth, hpurse, hcharged, Purse.absorb, Purse.refill,
      Result.gas] <;> omega

theorem refillStateGasIf_ends {b : Bool} {cost worth : Int} (hrev : b = true → f.rev.atLeast .Amsterdam = true)
    (hc : 0 ≤ cost) (hs : Ledger f s) (hworth : s.worth ≤ worth) :
    Ends f (refillStateGasIf b cost) s fun _ s' => Ledger f s' ∧ s'.worth ≤ worth := by
  unfold refillStateGasIf
  split
  · next hb =>
    obtain ⟨hledger, heq⟩ := ledger_refill (hrev hb) hc hs
    exact ⟨(), s.refill cost, rfl, hledger, heq ▸ hworth⟩
  · exact ⟨(), s, rfl, hs, hworth⟩

theorem reclaim_ends (h : Returned f s gas extra r s') :
    Ends f (reclaim f gas charged r) s' fun _ s'' => Ledger f s'' ∧ s''.worth ≤ s.worth + extra := by
  -- the refund is not in the books
  let refunded (s : EvmState) : EvmState := { s with refund := s.refund + r.refund }
  show Ends f (if f.rev.atLeast .Amsterdam = true then _ else _) (refunded (s'.give (r.gasLeft - gas))) _
  split
  · next hrev =>
    obtain ⟨hledger, hworth⟩ := h.ledger_absorb hrev
    have hstill : Still ((s'.give (r.gasLeft - gas)).absorb r)
      ((refunded (s'.give (r.gasLeft - gas))).absorb r) := ⟨rfl, rfl⟩
    obtain ⟨hledger', hworth'⟩ := ledger_still hledger hstill
    exact refillStateGasIf_ends (fun _ => hrev) NEW_ACCOUNT_STATE_GAS_nonneg hledger' (hworth' ▸ hworth)
  · obtain ⟨hledger, hworth⟩ := h.ledger_give
    have hstill : Still (s'.give (r.gasLeft - gas)) (refunded (s'.give (r.gasLeft - gas))) := ⟨rfl, rfl⟩
    obtain ⟨hledger', hworth'⟩ := ledger_still hledger hstill
    exact ⟨(), _, rfl, hledger', hworth' ▸ hworth⟩

theorem finishLight_ends {worth : Int} (hcharged : charged = true → f.rev.atLeast .Amsterdam = true)
    (hs : Ledger f s) (hworth : s.worth ≤ worth) :
    Ends f (finishLight charged) s fun _ s' => Ledger f s' ∧ s'.worth ≤ worth := by
  refine (refillStateGasIf_ends hcharged NEW_ACCOUNT_STATE_GAS_nonneg hs hworth).bind fun _ s' h => ?_
  obtain ⟨hledger, heq⟩ := ledger_still h.1 (⟨rfl, rfl⟩ : Still s' { s' with stack := 0 :: s'.stack, pc := s'.pc + 1 })
  exact ⟨(), _, rfl, hledger, heq ▸ h.2⟩

theorem callFails_ends (value : Word) :
    Ends f (callFails f value) s fun fails s' => s' = s ∧ (fails = false → f.msg.depth < kMaxCallDepth) := by
  unfold callFails
  split
  · refine ⟨fun _ => rfl, fun balance _ => ⟨_, s, rfl, rfl, fun h => ?_⟩⟩
    simp only [Bool.or_eq_false_iff, decide_eq_false_iff_not] at h
    omega
  · refine ⟨_, s, rfl, rfl, fun h => ?_⟩
    simp only [decide_eq_false_iff_not] at h
    omega

theorem within_of_ends {α : Type} {m : Exec α} (h : Ends f m s' fun _ s'' => Ledger f s'' ∧ s''.worth ≤ s.worth + extra)
    :
    (m s').Spec (Allowed f) Answered (Outcome.Within f s (-extra)) := by
  refine Program.Spec.mono h (fun _ hq => hq) fun o ho => ?_
  obtain ⟨a, s'', rfl, hledger, hworth⟩ := ho
  exact ⟨hledger, by omega⟩

theorem ledger_give {amount : Int} (hs : Ledger f s) (ha : 0 ≤ amount) :
    Ledger f (s.give amount) ∧ (s.give amount).worth = s.worth + amount := by
  have hgas := hs.gas
  refine ⟨⟨?_, hs.left, hs.spilled, hs.exclusive, hs.charged, hs.frozen⟩, ?_⟩
  · simp only [EvmState.give]; omega
  · simp only [EvmState.give, EvmState.worth]; omega

-- `s` are the caller's books, from which a child is given `message`'s gas.
theorem runChild_ends {args : CallArgs} {message : Bytes → Message} (hs : Ledger f s)
    (hgas : ∀ input, (message input).gas ≤ s.purse.gas + extra)
    (hleft : ∀ input, (message input).stateGas = s.purse.left) (hask : ∀ input, Allowed f (.Call (message input))) :
    Ends f (runChild f args charged message) (s.give extra) fun _ s' =>
      Ledger f s' ∧ s'.worth ≤ s.worth + extra := by
  refine (memLoad_still _ _).bind fun input s₁ h₁ => ?_
  refine ⟨hask input, fun r hr => ?_⟩
  show Ends f (memStore args.outOff (r.output.take args.outSize) >>= _)
    { s₁ with stack := (if r.status = .Success then 1 else 0) :: s₁.stack } _
  refine (memStore_still _ _).bind fun _ s₂ h₂ => ?_
  have hreturned : Returned f s (message input).gas extra r { s₂ with returnData := r.output } :=
    { ledger := hs
      affordable := hgas input
      left := hr.left
      spilled := hr.spilled
      gasLeft := hr.gasLeft
      returned := hr.gas
      charges := hleft input ▸ hr.charged
      purse := h₂.1.trans h₁.1
      charged := h₂.2.trans h₁.2 }
  show Ends f (reclaim f (message input).gas charged r >>= _) { s₂ with returnData := r.output } _
  refine (reclaim_ends hreturned).bind fun _ s₃ h₃ => ?_
  obtain ⟨hledger, heq⟩ := ledger_still h₃.1 (⟨rfl, rfl⟩ : Still s₃ { s₃ with pc := s₃.pc + 1 })
  exact ⟨(), _, rfl, hledger, heq ▸ h₃.2⟩

theorem callChild_keeps {staticForced : Bool} {args : CallArgs} {codeAddr : Address}
    (hkind : kind ≠ .Create ∧ kind ≠ .Create2)
    (hstatic : f.msg.isStatic = true → kind = .Call → args.value = 0)
    (hcharged : charged = true → f.rev.atLeast .Amsterdam = true) :
    (callChild f kind staticForced args codeAddr charged).Keeps f (-stipend args.value) := by
  intro s hs
  have hstip := stipend_nonneg args.value
  obtain ⟨hcap, hle⟩ := Purse.allButOne64th_le s.purse hs.gas
  obtain ⟨hgiven, hworth⟩ := ledger_give hs hstip
  refine within_of_ends ?_
  show Ends f (callFails f args.value >>= _) (s.give (stipend args.value)) _
  refine (callFails_ends args.value).bind ?_
  rintro fails _ ⟨rfl, hdepth⟩
  cases fails with
  | true => exact finishLight_ends hcharged hgiven (Int.le_of_eq hworth)
  | false =>
    refine runChild_ends hs (fun _ => ?_) (fun _ => rfl) fun _ => ⟨?_, hs.left, rfl, hdepth rfl, fun h => ?_⟩
    · simp only [callMessage]; omega
    · simp only [callMessage]; omega
    · refine ⟨by simp [callMessage, h], hkind.1, hkind.2, fun hcall => ?_⟩
      simp only [callMessage] at hcall ⊢
      simp [hcall, hstatic h hcall]

theorem chargeNewAccount_gives (sendsValue : Bool) (dst : Address) :
    (chargeNewAccount f sendsValue dst).Gives f fun charged =>
      charged = true → f.rev.atLeast .Amsterdam = true := by
  refine ite_gives (fun _ => (askHost_keeps rfl).gives fun found => ?_) fun _ => pure_gives nofun
  refine ite_gives (fun _ => pure_gives nofun) fun _ => ite_gives (fun hrev => ?_) fun _ => ?_
  · exact (chargeStateGas_keeps hrev NEW_ACCOUNT_STATE_GAS_nonneg).gives fun _ => pure_gives fun _ => hrev
  · exact (useGas_keeps.weaken (by decide)).gives fun _ => pure_gives nofun

theorem chargeCreated_gives (a : Address) :
    (chargeCreated f a).Gives f fun charged => charged = true → f.rev.atLeast .Amsterdam = true := by
  refine ite_gives (fun hrev => (askHost_keeps rfl).gives fun found => ?_) fun _ => pure_gives nofun
  refine ite_gives (fun _ => pure_gives nofun) fun _ => ?_
  exact (chargeStateGas_keeps hrev NEW_ACCOUNT_STATE_GAS_nonneg).gives fun _ => pure_gives fun _ => hrev

theorem resolveDelegate_keeps (dst : Address) : (resolveDelegate f dst).Keeps f 0 := by
  refine ite_keeps (fun _ => (askHost_keeps rfl).free fun code => ?_) fun _ => pure_keeps dst
  cases delegateOf code with
  | none => exact pure_keeps dst
  | some delegate =>
    refine (askHost_keeps rfl).free fun access => ?_
    have hc : 0 ≤ if access = .Cold then coldAccountAccess f.rev else WARM_ACCESS := by
      have := warm_le_cold f.rev
      split <;> simp only [WARM_ACCESS] at * <;> omega
    exact (useGas_keeps.weaken hc).free fun _ => pure_keeps delegate

theorem popCallArgs_keeps (hasValue : Bool) : (popCallArgs hasValue).Keeps f 0 :=
  pop_keeps.free fun _ => pop_keeps.free fun _ => (popIf_keeps hasValue).free fun _ => pop_keeps.free fun _ =>
    pop_keeps.free fun _ => pop_keeps.free fun _ => pop_keeps.free fun _ => pure_keeps _

theorem callImpl_keeps {hasValue staticForced : Bool} (hkind : kind ≠ .Create ∧ kind ≠ .Create2) :
    (callImpl f kind hasValue staticForced).Keeps f WARM_ACCESS := by
  refine Keeps.free (modify_keeps (fun _ => rfl) fun _ => rfl) fun _ => ?_
  refine useGas_keeps.pays (by decide) fun _ => (needs_keeps _).free fun _ =>
    (popCallArgs_keeps hasValue).free fun args => ?_
  refine Keeps.free (modify_keeps (fun _ => rfl) fun _ => rfl) fun _ => ?_
  refine require_keeps fun hstatic => (memExpand_keeps _ _).free fun _ => (memExpand_keeps _ _).free fun _ => ?_
  have hstatic' : f.msg.isStatic = true → kind = .Call → args.value = 0 := by
    intro h hcall
    simpa [h, hcall] using hstatic
  have hvalue := stipend_le f.rev args.value
  have hstip := stipend_nonneg args.value
  refine useGasIf_pays.covers hvalue (by omega) fun _ => (chargeAccountAccess_keeps _).free fun _ =>
    (resolveDelegate_keeps _).free fun codeAddr => (chargeNewAccount_gives _ _).free fun charged hcharged => ?_
  exact callChild_keeps hkind hstatic' hcharged

theorem finishLight_keeps : (finishLight false).Keeps f 0 :=
  (pure_keeps ()).free fun _ => (push_keeps 0).free fun _ => advance_keeps 1

theorem senderNonce_gives (value : Word) :
    (senderNonce f value).Gives f fun nonce => nonce.isSome = true → f.msg.depth < kMaxCallDepth := by
  have hfails : (senderNonce.createFails f value).Gives f fun fails =>
      fails = false → f.msg.depth < kMaxCallDepth := by
    refine ite_gives (fun _ => pure_gives nofun) fun hdepth => ite_gives (fun _ => ?_) fun _ => ?_
    · exact (askHost_keeps rfl).gives fun _ => pure_gives fun _ => Nat.lt_of_not_le hdepth
    · exact pure_gives fun _ => Nat.lt_of_not_le hdepth
  refine hfails.bind fun fails hdepth => ite_gives (fun _ => pure_gives nofun) fun hok => ?_
  exact (askHost_keeps rfl).gives fun _ => pure_gives fun _ => hdepth (by simpa using hok)

theorem createChild_keeps {value : Word} {init : Bytes} {a : Address} (hstatic : (!f.msg.isStatic) = true)
    (hdepth : f.msg.depth < kMaxCallDepth) : (createChild f kind value init a).Keeps f 0 := by
  refine (askHost_keeps rfl).free fun _ => (chargeCreated_gives a).free fun charged _ => ?_
  intro s hs
  obtain ⟨hcap, hle⟩ := Purse.allButOne64th_le s.purse hs.gas
  refine ⟨⟨hcap, hs.left, rfl, hdepth, fun h => by simp [h] at hstatic⟩, fun r hr => ?_⟩
  have hreturned : Returned f s s.purse.allButOne64th 0 r s :=
    { ledger := hs
      affordable := by omega
      left := hr.left
      spilled := hr.spilled
      gasLeft := hr.gasLeft
      returned := hr.gas
      charges := hr.charged
      purse := by simp only [Int.add_zero]
      charged := rfl }
  refine (reclaim_ends hreturned).bind fun _ s₁ h₁ => ?_
  obtain ⟨hledger, heq⟩ := ledger_still h₁.1 (⟨rfl, rfl⟩ : Still s₁ { s₁ with
    returnData := r.output
    stack := (if r.status = .Success then slotFromAddress a else 0) :: s₁.stack
    pc := s₁.pc + 1 })
  exact ⟨hledger, Int.le_trans (Int.le_of_eq (Int.add_left_inj 0 |>.mpr heq)) (by have := h₁.2; omega)⟩

theorem initWordCost_nonneg (rev : Revision) : 0 ≤ initWordCost rev kind := by
  unfold initWordCost
  split <;> split <;> decide

theorem createImpl_keeps : (createImpl keccak f kind).Keeps f CREATE_ACCESS := by
  have hbase : CREATE_ACCESS ≤ if f.rev.atLeast .Amsterdam then CREATE_ACCESS else 32000 := by
    split <;> decide
  refine Keeps.free (modify_keeps (fun _ => rfl) fun _ => rfl) fun _ => ?_
  refine (useGas_keeps.weaken hbase).pays (by decide) fun _ => (needs_keeps _).free fun _ =>
    require_keeps fun hstatic => pop_keeps.free fun value => pop_keeps.free fun off => pop_keeps.free fun size =>
    (popIf_keeps _).free fun salt => ?_
  refine Keeps.free (modify_keeps (fun _ => rfl) fun _ => rfl) fun _ => ?_
  refine (memExpand_keeps _ _).free fun _ => require_keeps fun _ =>
    (useGasIf_keeps (words_nonneg (initWordCost_nonneg f.rev))).free fun _ =>
    (senderNonce_gives value).free fun nonce hdepth => ?_
  cases nonce with
  | none => exact finishLight_keeps
  | some nonce => exact (memLoad_keeps _ _).free fun init => createChild_keeps hstatic (hdepth rfl)

-- the ends of a frame, and its return data

theorem setOutput_keeps (off size : Nat) : (setOutput off size).Keeps f 0 := by
  refine ite_keeps (fun _ => (memExpand_keeps _ _).free fun _ => ?_) fun _ => ?_
  · exact modify_keeps (fun _ => rfl) fun _ => rfl
  · exact modify_keeps (fun _ => rfl) fun _ => rfl

theorem returnImpl_keeps {g : Int} (status : StatusCode) : (returnImpl status).Keeps f g :=
  (needs_keeps 2).free fun _ => pop_keeps.free fun _ => pop_keeps.free fun _ =>
    (setOutput_keeps _ _).free fun _ => halt_keeps status

theorem returndatasize_keeps : opReturndatasize.Keeps f GAS_BASE :=
  pushOp_keeps (by decide) (get_keeps.free fun _ => pure_keeps _)

theorem returndatacopy_keeps : opReturndatacopy.Keeps f GAS_VERYLOW := by
  refine useGas_keeps.pays (by decide) fun _ => (needs_keeps 3).free fun _ => pop_keeps.free fun _ =>
    pop_keeps.free fun _ => pop_keeps.free fun size => (memExpand_keeps _ _).free fun _ => Keeps.free ?_ fun _ => ?_
  · exact get_keeps.free fun _ => require_keeps fun _ => pure_keeps _
  · have hc : 0 ≤ 3 * (numWords (memArg size) : Int) := by omega
    exact (useGas_keeps.weaken hc).free fun _ => memStore_keeps _ _

theorem chargeBeneficiary_keeps (a : Address) : (chargeBeneficiary f a).Keeps f 0 := by
  refine (askHost_keeps rfl).free fun _ => ite_keeps (fun _ => ?_) fun _ => pure_keeps ()
  refine (askHost_keeps rfl).free fun _ => ite_keeps (fun _ => pure_keeps ()) fun _ => ?_
  refine ite_keeps (fun hrev => ?_) fun _ => useGas_keeps.weaken (by decide)
  exact (useGas_keeps.weaken (by decide)).free fun _ =>
    chargeStateGas_keeps hrev NEW_ACCOUNT_STATE_GAS_nonneg

theorem selfdestruct_keeps {g : Int} : (opSelfdestruct f).Keeps f g := by
  have hcold : 0 ≤ coldAccountAccess f.rev := by
    unfold coldAccountAccess
    split <;> decide
  refine (useGas_keeps.weaken (by decide)).free fun _ => (needs_keeps 1).free fun _ =>
    require_keeps fun hstatic => pop_keeps.free fun b => (askHost_keeps rfl).free fun _ =>
    (useGasIf_keeps hcold).free fun _ => (chargeBeneficiary_keeps _).free fun _ => ?_
  exact (mutating_keeps hstatic).free fun _ => (addRefund_keeps _).free fun _ => halt_keeps _

end Zeg.Zevm
