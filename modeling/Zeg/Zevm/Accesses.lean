import Zeg.Zevm.Parts

-- A frame reads an account or a slot only after it accessed it, and sends only what it has.
namespace Zeg.Zevm

open Base StateDB Gas Memory Exec List

-- What a frame knows of the tables: rows that are warm, and a balance that it was told and that is
-- still current.
structure Known where
  warm : Key → Prop
  funds : Option (Address × Word)

def Known.add (k : Known) (key : Key) : Known := { k with warm := fun other => other = key ∨ k.warm other }

def Known.Covers (k : Known) (a : Address) (v : Word) : Prop :=
  v ≠ 0 → ∃ b, k.funds = some (a, b) ∧ v ≤ b

-- A message in static mode creates nothing and sends nothing.
def Message.Peaceful (msg : Message) : Prop :=
  msg.isStatic = true → msg.kind ≠ .Create ∧ msg.kind ≠ .Create2 ∧ (msg.kind = .Call → msg.value = 0)

-- A child's rows are warm; a plain call and a create send no more than their sender has.
def Known.Admits (k : Known) (msg : Message) : Prop :=
  k.warm (.Account msg.recipient) ∧ msg.Peaceful ∧
    match msg.kind with
    | .Call => k.warm (.Account msg.codeAddress) ∧ k.Covers msg.sender msg.value
    | .Callcode | .Delegatecall => k.warm (.Account msg.codeAddress)
    | .Create | .Create2 => k.Covers msg.sender msg.value

def may (k : Known) : Request → Prop
  | .Host q =>
    match q.reads with
    | some key => k.warm key
    | none => True
  | .Mem _ => True
  | .Call msg => k.Admits msg

def learn (k : Known) : (q : Request) → q.Answer → Known
  | .Host (.AccessAccount a), _ => k.add (.Account a)
  | .Host (.AccessStorage key), _ => k.add (.Slot key)
  | .Host (.GetBalance a), b => { k with funds := some (a, b) }
  | .Host (.AccountExists _), _ | .Host (.GetNonce _), _ | .Mem _, _ => k
  | _, _ => { k with funds := none }

variable {f : Frame} {α β : Type} {keccak : Bytes → Bytes32}

namespace Exec

-- From what is known by `P` the part only asks what it may; if it goes on, `Q` is known.
def Knows (P : Known → Prop) (m : Exec α) (Q : α → Known → Prop) : Prop :=
  ∀ s k, P k → (m s).Tracks may learn (fun k' o => ∀ a s', o = .Ok a s' → Q a k') k

variable {P : Known → Prop} {Q : α → Known → Prop} {m : Exec α} {n : α → Exec β}

theorem Knows.bind {R : β → Known → Prop} (hm : m.Knows P Q) (hn : ∀ a, (n a).Knows (Q a) R) : (m >>= n).Knows P R := by
  intro s k hk
  refine Program.tracks_bind.mpr ((hm s k hk).mono fun k' o ho => ?_)
  cases o with
  | Halt status s' => exact nofun
  | Ok a s' => exact hn a s' k' (ho a s' rfl)

theorem Knows.weaken {P' : Known → Prop} {Q' : α → Known → Prop} (hm : m.Knows P Q) (hP : ∀ k, P' k → P k)
    (hQ : ∀ a k, Q a k → Q' a k) : m.Knows P' Q' :=
  fun s k hk => (hm s k (hP k hk)).mono fun k' _ ho a s' heq => hQ a k' (ho a s' heq)

-- A part that asks the host for nothing keeps all that is known.
def Quiet (m : Exec α) : Prop := ∀ P, m.Knows P fun _ => P

theorem Quiet.ends {Q : Known → Prop} (hm : m.Quiet) (hPQ : ∀ k, P k → Q k) : m.Knows P fun _ => Q :=
  (hm P).weaken (fun _ hk => hk) fun _ => hPQ

theorem pure_knows {a : α} (ha : ∀ k, P k → Q a k) :
    (pure a : Exec α).Knows P Q :=
  fun _ k hk _ _ h => by cases h; exact ha k hk

theorem Quiet.bind (hm : m.Quiet) (hn : ∀ a, (n a).Quiet) : (m >>= n).Quiet :=
  fun P => (hm P).bind fun a => hn a P

theorem modify_quiet (change : EvmState → EvmState) : (modify change).Quiet :=
  fun _ _ _ hk _ _ h => by cases h; exact hk

theorem quiet : Mobile fun _ m => m.Quiet where
  bind hm hn := hm.bind hn
  done hm := by
    intro P s k hk
    obtain ⟨o, ho, -⟩ := hm s
    rw [ho]
    exact fun _ _ _ => hk
  mem _ := fun _ _ _ hk => ⟨trivial, fun _ _ _ h => by cases h; exact hk⟩
  moves change _ := modify_quiet change

theorem require_knows {b : Bool} {status : StatusCode} :
    (require b status).Knows P fun _ k => P k ∧ b = true := by
  cases b with
  | false => exact fun _ _ _ => nofun
  | true => exact pure_knows fun _ hk => ⟨hk, rfl⟩

-- Rows stay warm: knowledge of them outlives every request.
def Warm (rows : List Key) (k : Known) : Prop := ∀ key ∈ rows, k.warm key

variable {k : Known} {key : Key}

theorem learn_warm (q : Request) (a : q.Answer) (hk : k.warm key) : (learn k q a).warm key := by
  unfold learn
  split <;> first | exact .inr hk | exact hk

-- Once the frame's own account is known to be warm, the part only asks what it may, whatever else
-- is known to be warm.
def Minds (f : Frame) (m : Exec α) : Prop :=
  ∀ rows, .Account f.msg.recipient ∈ rows → m.Knows (Warm rows) fun _ => Warm rows

theorem Quiet.minds (hm : m.Quiet) : m.Minds f := fun _ _ => hm _

theorem ask_knows {q : Request} {Q : q.Answer → Known → Prop} (hq : ∀ k, P k → may k q)
    (hlearn : ∀ k a, P k → Q a (learn k q a)) : (ask q).Knows P Q := by
  intro s k hk
  refine ⟨hq k hk, fun a _ _ h => ?_⟩
  cases h
  exact hlearn k a hk

theorem ask_minds {q : Request} (hq : ∀ rows k, .Account f.msg.recipient ∈ rows → Warm rows k → may k q) :
    (ask q).Minds f :=
  fun rows hrows => ask_knows (fun k => hq rows k hrows) fun _ a hk key hkey => learn_warm q a (hk key hkey)

theorem free_minds {q : Query} (hq : q.reads = none) : (askHost q).Minds f :=
  ask_minds fun _ k _ _ => by simp only [may, hq]

theorem ownBalance_minds : (askHost (.GetBalance f.msg.recipient)).Minds f := ask_minds fun _ _ hrows hk => hk _ hrows

-- An access makes its row known.

variable {rows : List Key}

theorem warm_cons (hk : Warm rows k) : Warm (key :: rows) (k.add key) := by
  intro other hother
  obtain rfl | hother := mem_cons.mp hother
  · exact .inl rfl
  · exact .inr (hk other hother)

theorem warm_tail (hk : Warm (key :: rows) k) : Warm rows k :=
  fun other hother => hk other (mem_cons_of_mem _ hother)

theorem accessAccount_knows (rows : List Key) (a : Address) :
    (askHost (.AccessAccount a)).Knows (Warm rows) fun _ => Warm (.Account a :: rows) :=
  ask_knows (fun _ _ => trivial) fun _ _ => warm_cons

theorem accessStorage_knows (rows : List Key) (key : SlotKey) :
    (askHost (.AccessStorage key)).Knows (Warm rows) fun _ => Warm (.Slot key :: rows) :=
  ask_knows (fun _ _ => trivial) fun _ _ => warm_cons

theorem read_knows {q : Query} (hq : q.reads = some key) (hkey : key ∈ rows) :
    (askHost q).Knows (Warm rows) fun _ => Warm rows := by
  refine ask_knows (fun k hk => ?_) fun _ a hk other hother => learn_warm _ a (hk other hother)
  simp only [may, hq]
  exact hk key hkey

theorem Minds.bind (hm : m.Minds f) (hn : ∀ a, (n a).Minds f) :
    (m >>= n).Minds f :=
  fun rows hrows => (hm rows hrows).bind fun a => hn a rows hrows

theorem minds : Free fun _ m => m.Minds f where
  bind hm hn := hm.bind hn
  done hm := (quiet.done hm).minds
  mem q := (quiet.mem q).minds
  plain _ hq := free_minds hq.1
  moves change _ := (modify_quiet change).minds

end Exec

variable {P : Known → Prop}

theorem popIf_knows {b : Bool} : (popIf b).Knows P fun v k => P k ∧ (b = false → v = 0) := by
  cases b with
  | false => exact pure_knows fun _ hk => ⟨hk, fun _ => rfl⟩
  | true => exact (quiet.pop P).weaken (fun _ hk => hk) fun _ _ hk => ⟨hk, nofun⟩

variable {hasValue : Bool}

theorem popCallArgs_knows :
    (popCallArgs hasValue).Knows P fun args k => P k ∧ (hasValue = false → args.value = 0) :=
  (quiet.pop P).bind fun _ => (quiet.pop P).bind fun _ => popIf_knows.bind fun _ => (quiet.pop _).bind fun _ =>
    (quiet.pop _).bind fun _ => (quiet.pop _).bind fun _ => (quiet.pop _).bind fun _ => pure_knows fun _ hk => hk

theorem cachedBalance_minds : (cachedBalance f).Minds f := by
  refine minds.get.bind fun s => ?_
  cases s.selfBalance with
  | some v => exact minds.pure v
  | none => exact ownBalance_minds.bind fun v => ((modify_quiet _).bind fun _ => quiet.pure v).minds

theorem selfdestruct_minds : (opSelfdestruct f).Minds f :=
  (minds.useGas _).bind fun _ => (minds.needs 1).bind fun _ => (minds.require _ _).bind fun _ =>
    minds.pop.bind fun _ => (minds.accessAccount _).bind fun _ => (minds.useGasIf _ _).bind fun _ =>
    (minds.chargeBeneficiary ownBalance_minds _).bind fun _ => (free_minds rfl).bind fun _ =>
    (minds.addRefund _).bind fun _ => minds.halt _

theorem chargeAccountAccess_knows (rows : List Key) (a : Address) :
    (chargeAccountAccess f a).Knows (Warm rows) fun _ => Warm (.Account a :: rows) :=
  (accessAccount_knows rows a).bind fun _ => quiet.useGasIf _ _ _

theorem accountOp_minds {cost : Int} {value : Address → Exec Word}
    (hv : ∀ a rows, .Account a ∈ rows → (value a).Knows (Warm rows) fun _ => Warm rows) :
    (accountOp f cost value).Minds f := by
  refine (minds.useGas _).bind fun _ => (minds.needs 1).bind fun _ => minds.pop.bind fun a => ?_
  intro rows _
  refine (chargeAccountAccess_knows rows _).bind fun _ => (hv _ _ mem_cons_self).bind fun v => ?_
  exact (quiet.push v).ends fun _ => warm_tail

theorem extcodecopy_minds : (opExtcodecopy f).Minds f := by
  refine (minds.useGas _).bind fun _ => (minds.needs 4).bind fun _ => minds.pop.bind fun a =>
    minds.pop.bind fun _ => minds.pop.bind fun _ => minds.pop.bind fun _ =>
    (minds.memExpand _ _).bind fun _ => (minds.useGas _).bind fun _ => ?_
  intro rows _
  have hcopy : ∀ dst src size, (copyCodeToMem (addrFromSlot a) dst src size).Knows
      (Warm (.Account (addrFromSlot a) :: rows)) fun _ => Warm (.Account (addrFromSlot a) :: rows) := by
    intro dst src size
    unfold copyCodeToMem
    split
    · exact quiet.pure () _
    · exact (read_knows rfl mem_cons_self).bind fun _ => quiet.memStore _ _ _
  exact (chargeAccountAccess_knows rows _).bind fun _ => (hcopy _ _ _).weaken (fun _ hk => hk) fun _ _ => warm_tail

theorem sload_minds : (opSload f).Minds f := by
  refine (minds.useGas _).bind fun _ => (minds.needs 1).bind fun _ => minds.pop.bind fun key => ?_
  intro rows _
  refine (accessStorage_knows rows _).bind fun _ => (quiet.useGasIf _ _ _).bind fun _ => ?_
  refine (read_knows rfl mem_cons_self).bind fun v => ?_
  exact (quiet.push v).ends fun _ => warm_tail

theorem sstore_minds : (opSstore f).Minds f := by
  refine (minds.needs 2).bind fun _ => (minds.require _ _).bind fun _ => minds.sentry.bind fun _ =>
    minds.pop.bind fun key => minds.pop.bind fun v => ?_
  intro rows _
  refine (accessStorage_knows rows _).bind fun _ => (read_knows rfl mem_cons_self).bind fun status => ?_
  exact Quiet.ends ((quiet.useGas _).bind fun _ => (quiet.slotStateGas _ status).bind fun _ => quiet.addRefund _)
    fun _ => warm_tail

-- calls

variable {rows : List Key}

theorem resolveDelegate_knows {dst : Address} (hdst : .Account dst ∈ rows) :
    (resolveDelegate f dst).Knows (Warm rows) fun codeAddr => Warm (.Account codeAddr :: rows) := by
  have hsame : (pure dst : Exec Address).Knows (Warm rows) fun codeAddr => Warm (.Account codeAddr :: rows) :=
    pure_knows fun k hk key hkey => (mem_cons.mp hkey).elim (fun heq => heq ▸ hk _ hdst) (hk key)
  unfold resolveDelegate
  split
  · refine (read_knows rfl hdst).bind fun code => ?_
    split
    · exact hsame
    · exact (accessAccount_knows rows _).bind fun _ => (quiet.useGas _ _).bind fun _ => pure_knows fun _ hk => hk
  · exact hsame

theorem ownBalance_knows (hrows : .Account f.msg.recipient ∈ rows) :
    (askHost (.GetBalance f.msg.recipient)).Knows (Warm rows)
      fun b k => Warm rows k ∧ k.funds = some (f.msg.recipient, b) :=
  ask_knows (fun _ hk => hk _ hrows) fun _ _ hk => ⟨hk, rfl⟩

variable {k : Known} {value : Word}

theorem covers_of_not_ult {a : Address} {b : Word} (hk : k.funds = some (a, b)) (hlt : b.ult value = false)
    : k.Covers a value := by
  rw [BitVec.ult_eq_decide, decide_eq_false_iff_not] at hlt
  exact fun _ => ⟨b, hk, BitVec.not_lt.mp hlt⟩

theorem callFails_knows (hrows : .Account f.msg.recipient ∈ rows) :
    (callFails f value).Knows (Warm rows)
      fun fails k => Warm rows k ∧ (fails = false → k.Covers f.msg.recipient value) := by
  unfold callFails
  split
  · refine (ownBalance_knows hrows).bind fun b => pure_knows fun k hk => ⟨hk.1, fun hfails => ?_⟩
    exact covers_of_not_ult hk.2 (Bool.or_eq_false_iff.mp hfails).1
  · next hzero => exact pure_knows fun k hk => ⟨hk, fun _ hv => absurd hv hzero⟩

theorem runChild_knows {args : CallArgs} {charged : Bool} {message : Bytes → Message} (hrows : ∀ k, P k → Warm rows k)
    (hadmits : ∀ k input, P k → k.Admits (message input)) :
    (runChild f args charged message).Knows P fun _ => Warm rows := by
  refine (quiet.memLoad _ _ _).bind fun input => ?_
  have hcall : (ask (.Call (message input))).Knows P fun _ => Warm rows :=
    ask_knows (fun k => hadmits k input) fun k a hk key hkey => learn_warm _ a (hrows k hk key hkey)
  refine hcall.bind fun r => ?_
  exact ((quiet.push _).bind fun _ => (quiet.memStore _ _).bind fun _ => (modify_quiet _).bind fun _ =>
    (quiet.reclaim _ _ r).bind fun _ => quiet.advance 1) _

variable {kind : CallKind} {staticForced : Bool}

theorem callChild_knows {charged : Bool} {args : CallArgs} {codeAddr : Address}
    (hkind : kind = .Call ∨ kind = .Callcode ∨ kind = .Delegatecall)
    (hstatic : kind = .Call → (staticForced || f.msg.isStatic) = true → args.value = 0)
    (hrows : .Account f.msg.recipient ∈ rows) (hdst : .Account args.dst ∈ rows) (hcode : .Account codeAddr ∈ rows) :
    (callChild f kind staticForced args codeAddr charged).Knows (Warm rows) fun _ => Warm rows := by
  refine (quiet.get _).bind fun s => (quiet.giveGas _ _).bind fun _ => (callFails_knows hrows).bind fun fails => ?_
  split
  · exact (quiet.finishLight _ _).weaken (fun _ hk => hk.1) fun _ _ hk => hk
  · next hfails =>
    refine runChild_knows (fun _ hk => hk.1) fun k input hk => ?_
    have hcovers := hk.2 (Bool.eq_false_iff.mpr hfails)
    obtain rfl | rfl | rfl := hkind
    · exact ⟨hk.1 _ hdst, fun hs => ⟨nofun, nofun, fun _ => hstatic rfl hs⟩, hk.1 _ hcode, hcovers⟩
    · exact ⟨hk.1 _ hrows, fun _ => ⟨nofun, nofun, nofun⟩, hk.1 _ hcode⟩
    · exact ⟨hk.1 _ hrows, fun _ => ⟨nofun, nofun, nofun⟩, hk.1 _ hcode⟩

-- Only STATICCALL, which has no value, forces static mode on its child.
theorem static_value (hforced : staticForced = true → hasValue = false) (hvalue : hasValue = false → value = 0)
    (hpaid : (!(kind = .Call && value ≠ 0 && f.msg.isStatic)) = true) (hkind : kind = .Call)
    (hs : (staticForced || f.msg.isStatic) = true) : value = 0 := by
  obtain hs | hs := Bool.or_eq_true_iff.mp hs
  · exact hvalue (hforced hs)
  · simpa [hkind, hs] using hpaid

theorem callImpl_minds (hkind : kind = .Call ∨ kind = .Callcode ∨ kind = .Delegatecall)
    (hforced : staticForced = true → hasValue = false) :
    (callImpl f kind hasValue staticForced).Minds f := by
  refine (modify_quiet _).minds.bind fun _ => (minds.useGas _).bind fun _ => (minds.needs _).bind fun _ => ?_
  intro rows hrows
  refine popCallArgs_knows.bind fun args => (modify_quiet _ _).bind fun _ => require_knows.bind fun _ =>
    (quiet.memExpand _ _ _).bind fun _ => (quiet.memExpand _ _ _).bind fun _ => (quiet.useGasIf _ _ _).bind fun _ => ?_
  -- what was checked of the arguments does not depend on what is known
  intro s k hk
  obtain ⟨⟨hk, hvalue⟩, hpaid⟩ := hk
  refine Knows.bind (chargeAccountAccess_knows rows _) (fun _ => ?_) s k hk
  refine (resolveDelegate_knows mem_cons_self).bind fun codeAddr => ?_
  have hown : .Account f.msg.recipient ∈ Key.Account codeAddr :: Key.Account args.dst :: rows := by simp [hrows]
  refine (minds.chargeNewAccount _ _ _ hown).bind fun charged => ?_
  refine (callChild_knows hkind (static_value hforced hvalue hpaid) hown (by simp) (by simp)).weaken (fun _ hk => hk)
    fun _ _ hk => warm_tail (warm_tail hk)

-- creates

theorem createFails_knows (hrows : .Account f.msg.recipient ∈ rows) :
    (senderNonce.createFails f value).Knows (Warm rows)
      fun fails k => Warm rows k ∧ (fails = false → k.Covers f.msg.recipient value) := by
  unfold senderNonce.createFails
  split
  · exact pure_knows fun k hk => ⟨hk, nofun⟩
  · split
    · exact (ownBalance_knows hrows).bind fun b => pure_knows fun k hk => ⟨hk.1, covers_of_not_ult hk.2⟩
    · next hzero => exact pure_knows fun k hk => ⟨hk, fun _ hv => absurd hv hzero⟩

theorem senderNonce_knows (hrows : .Account f.msg.recipient ∈ rows) :
    (senderNonce f value).Knows (Warm rows)
      fun nonce k => Warm rows k ∧ (nonce ≠ none → k.Covers f.msg.recipient value) := by
  refine (createFails_knows hrows).bind fun fails => ?_
  split
  · exact pure_knows fun k hk => ⟨hk.1, fun h => absurd rfl h⟩
  · next hfails =>
    have hnonce : (askHost (.GetNonce f.msg.recipient)).Knows
        (fun k => Warm rows k ∧ (fails = false → k.Covers f.msg.recipient value))
        fun _ k => Warm rows k ∧ k.Covers f.msg.recipient value :=
      ask_knows (fun k hk => hk.1 _ hrows) fun k _ hk => ⟨hk.1, hk.2 (Bool.eq_false_iff.mpr hfails)⟩
    exact hnonce.bind fun nonce => pure_knows fun k hk => ⟨hk.1, fun _ => hk.2⟩

theorem createChild_knows {init : Bytes} {a : Address} (hkind : kind = .Create ∨ kind = .Create2) :
    (createChild f kind value init a).Knows (fun k => Warm rows k ∧ k.Covers f.msg.recipient value)
      fun _ => Warm rows := by
  let P : Known → Prop := fun k => Warm (.Account a :: rows) k ∧ k.Covers f.msg.recipient value
  have haccess : (askHost (.AccessAccount a)).Knows (fun k => Warm rows k ∧ k.Covers f.msg.recipient value) fun _ => P :=
    ask_knows (fun _ _ => trivial) fun k _ hk => ⟨warm_cons hk.1, hk.2⟩
  have hfound : (askHost (.AccountExists a)).Knows P fun _ => P := ask_knows (fun _ _ => trivial) fun _ _ hk => hk
  have hcharge : (chargeCreated f a).Knows P fun _ => P := by
    unfold chargeCreated
    split
    · exact hfound.bind fun found => Closed.ite (quiet.pure false)
        ((quiet.chargeStateGas _).bind fun _ => quiet.pure true) P
    · exact quiet.pure false P
  refine haccess.bind fun _ => hcharge.bind fun charged => (quiet.get _).bind fun s => ?_
  have hcall : (ask (.Call (createMessage f kind value a s.purse.allButOne64th s.purse.left init))).Knows P
      fun _ => Warm rows := by
    refine ask_knows (fun k hk => ⟨hk.1 _ mem_cons_self, nofun, ?_⟩)
      fun k r hk key hkey => learn_warm _ r (hk.1 key (mem_cons_of_mem _ hkey))
    obtain rfl | rfl := hkind
    · exact hk.2
    · exact hk.2
  refine hcall.bind fun r => ?_
  exact ((quiet.reclaim _ _ r).bind fun _ => (modify_quiet _).bind fun _ => (quiet.push _).bind fun _ =>
    quiet.advance 1) _

theorem createImpl_minds (hkind : kind = .Create ∨ kind = .Create2) :
    (createImpl keccak f kind).Minds f := by
  refine (modify_quiet _).minds.bind fun _ => (minds.useGas _).bind fun _ => (minds.needs _).bind fun _ =>
    (minds.require _ _).bind fun _ => minds.pop.bind fun value => minds.pop.bind fun off =>
    minds.pop.bind fun size => (minds.popIf _).bind fun salt => (modify_quiet _).minds.bind fun _ =>
    (minds.memExpand _ _).bind fun _ => (minds.require _ _).bind fun _ =>
    (minds.useGasIf _ _).bind fun _ => ?_
  intro rows hrows
  refine (senderNonce_knows hrows).bind fun nonce => ?_
  cases nonce with
  | none => exact (quiet.finishLight false).ends fun _ hk => hk.1
  | some nonce =>
    refine (quiet.memLoad _ _ _).bind fun init => (createChild_knows hkind).weaken (fun k hk => ?_) fun _ _ hk => hk
    exact ⟨hk.1, hk.2 nofun⟩

theorem handler_minds (op : Opcode) : (handler keccak f op).Minds f := by
  cases op with
  | Selfbalance => exact minds.ops (minds.pushOp cachedBalance_minds)
  | Balance => exact minds.ops (accountOp_minds fun _ _ ha => read_knows rfl ha)
  | Extcodehash | Extcodesize =>
    exact minds.ops (accountOp_minds fun _ _ ha => (read_knows rfl ha).bind fun _ => quiet.pure _ _)
  | Extcodecopy => exact minds.ops extcodecopy_minds
  | Sload => exact minds.ops sload_minds
  | Sstore => exact minds.ops sstore_minds
  | Create => exact createImpl_minds (.inl rfl)
  | Create2 => exact createImpl_minds (.inr rfl)
  | Call => exact callImpl_minds (.inl rfl) nofun
  | Staticcall => exact callImpl_minds (.inl rfl) fun _ => rfl
  | Callcode => exact callImpl_minds (.inr (.inl rfl)) nofun
  | Delegatecall => exact callImpl_minds (.inr (.inr rfl)) nofun
  | Selfdestruct => exact selfdestruct_minds
  | _ => exact minds.handler rfl

theorem dispatch_minds (fuel : Nat) (s : EvmState) (hk : Warm [.Account f.msg.recipient] k) :
    (dispatch keccak f fuel s).Tracks may learn (fun _ _ => True) k := by
  induction fuel generalizing s k with
  | zero => trivial
  | succ fuel ih =>
    refine Program.tracks_bind.mpr ?_
    have hstep : (instruction keccak f s).Tracks may learn
        (fun k' o => ∀ a s', o = .Ok a s' → Warm [.Account f.msg.recipient] k') k := by
      unfold instruction
      split
      · exact handler_minds _ _ mem_cons_self s k hk
      · exact nofun
    refine hstep.mono fun k' o ho => ?_
    cases o with
    | Halt status s' => trivial
    | Ok u s' => exact ih s' (ho u s' rfl)

theorem run_minds (fuel : Nat) (hk : Warm [.Account f.msg.recipient] k) :
    (run keccak f fuel).Tracks may learn (fun _ _ => True) k := by
  refine ⟨trivial, fun _ => ?_⟩
  show ((dispatch keccak f fuel f.reset).bind (finish f)).Tracks may learn _ k
  refine Program.tracks_bind.mpr ((dispatch_minds fuel f.reset hk).mono fun k' o _ => ?_)
  cases o with
  | none => trivial
  | some halted =>
    refine Program.tracks_bind.mpr ?_
    split
    · exact ⟨trivial, fun _ => trivial⟩
    · exact ⟨trivial, fun _ => ⟨trivial, fun _ => trivial⟩⟩

end Zeg.Zevm
