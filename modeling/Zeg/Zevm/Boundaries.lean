import Zeg.Zevm.Counter
import Zeg.Zevm.Theorems

-- A frame runs from one instruction of the sweep to another, whatever its code and its host do.
namespace Zeg.Zevm

open Base Base.Rlp StateDB Gas Memory Exec

variable {f : Frame} {s s' : EvmState} {keccak : Bytes → Bytes32} {p : Nat} {op : Opcode} {b : UInt8}

theorem ofFamily_push {n : Nat} (h : Opcode.ofFamily b.toNat = some (.Push n)) : dataBytes b = n := by
  unfold Opcode.ofFamily at h
  split at h
  · next hb =>
    cases h
    exact if_pos hb
  · split at h
    · cases h
    · split at h
      · cases h
      · split at h <;> cases h

theorem ofFamily_dataBytes (h : dataBytes b ≠ 0) : Opcode.ofFamily b.toNat = some (.Push (dataBytes b)) := by
  unfold dataBytes at h ⊢
  split at h
  · next hb => rw [if_pos hb, Opcode.ofFamily, if_pos hb]
  · exact absurd rfl h

theorem decode_dataBytes (hop : decode f.rev b = some op) (hpush : ∀ n, op ≠ .Push n) : dataBytes b = 0 := by
  by_contra hdata
  rw [decode, ofFamily_dataBytes hdata] at hop
  cases hop
  exact hpush _ rfl

theorem ofByte_push {k n : Nat} {rev : Revision} : Opcode.ofByte k ≠ some (.Push n, rev) := by
  unfold Opcode.ofByte
  split <;> simp

theorem decode_push {n : Nat} (hop : decode f.rev b = some (.Push n)) : dataBytes b = n := by
  unfold decode at hop
  split at hop
  · next op hfamily =>
    cases hop
    exact ofFamily_push hfamily
  · split at hop
    · next op since hbyte =>
      split at hop
      · cases hop
        exact absurd hbyte ofByte_push
      · cases hop
    · cases hop

-- The bytes that DUPN, SWAPN and EXCHANGE refuse are the ones that would be JUMPDEST or PUSH.
theorem dupnSwapn_dataBytes (h : decodeDupnSwapn b ≠ none) : dataBytes b = 0 := by
  unfold decodeDupnSwapn at h
  split at h
  · exact absurd rfl h
  · next himm =>
    rw [UInt8.le_iff_toNat_le, UInt8.le_iff_toNat_le] at himm
    apply dataBytes_eq_zero
    simp at himm
    omega

theorem exchange_dataBytes (h : decodeExchange b ≠ none) : dataBytes b = 0 := by
  unfold decodeExchange at h
  split at h
  · exact absurd rfl h
  · next himm =>
    rw [UInt8.le_iff_toNat_le, UInt8.le_iff_toNat_le] at himm
    apply dataBytes_eq_zero
    simp at himm
    omega

theorem OnBoundary.push {n : Nat} (hp : OnBoundary f.code p) (hop : decode f.rev (f.code.getD p 0) = some (.Push n)) :
    OnBoundary f.code (p + (n + 1)) := by
  by_cases hend : p < f.code.length
  · have hnext := (hp.start hend).next (getD_eq hend)
    rw [decode_push hop, Nat.add_assoc, Nat.add_comm 1] at hnext
    exact .inl hnext
  · exact .inr (by omega)

theorem handler_lands (hp : OnBoundary f.code p) (hop : decode f.rev (f.code.getD p 0) = some op) :
    (handler keccak f op).Lands p (OnBoundary f.code) := by
  have hjump : ∀ q, isJumpdest f.code q = true → OnBoundary f.code (q + 1) := fun q => OnBoundary.jump
  -- every instruction but a PUSH is one byte of the sweep
  have hone : (∀ n, op ≠ .Push n) → OnBoundary f.code (p + 1) := fun h => hp.next (decode_dataBytes hop h)
  by_cases hsingle : op.Single = true
  · obtain ⟨m, hm, hstays⟩ := stays.single hsingle
    rw [hm]
    exact ops_lands hstays (hone fun n hpush => by cases hpush; cases hsingle)
  cases op with
  | Push n => exact opPush_lands (hp.push hop)
  | Jump => exact jump_lands hjump
  | Jumpi => exact jumpi_lands hjump (hone nofun)
  | Dupn => exact immediateOp_lands stays.dup fun himm => (hone nofun).next (dupnSwapn_dataBytes himm)
  | Swapn =>
    exact immediateOp_lands (fun _ => stays.swap _ _) fun himm => (hone nofun).next (dupnSwapn_dataBytes himm)
  | Exchange =>
    exact immediateOp_lands (fun _ => stays.swap _ _) fun himm => (hone nofun).next (exchange_dataBytes himm)
  | Stop | Invalid => exact halt_lands _
  | Return | Revert => exact returnImpl_lands _
  | Selfdestruct => exact selfdestruct_lands
  | Create | Create2 => exact createImpl_lands (hone nofun)
  | Call | Callcode | Delegatecall | Staticcall => exact callImpl_lands (hone nofun)
  | Log n => exact logImpl_lands n (hone nofun)
  | Selfbalance => exact ops_lands (stays.pushOp cachedBalance_stays) (hone nofun)
  | Balance => exact ops_lands (stays.accountOp fun _ => ask_stays _) (hone nofun)
  | Extcodehash | Extcodesize =>
    exact ops_lands (stays.accountOp fun _ => (ask_stays _).bind fun _ => stays.pure _) (hone nofun)
  | Extcodecopy => exact ops_lands stays.extcodecopy (hone nofun)
  | Sload => exact ops_lands stays.sload (hone nofun)
  | Sstore => exact ops_lands stays.sstore (hone nofun)
  | _ => exact absurd rfl hsingle

theorem instruction_lands (hp : OnBoundary f.code p) : Lands p (instruction keccak f) (OnBoundary f.code) := by
  intro s hs
  unfold instruction
  rw [hs]
  cases hop : decode f.rev (f.code.getD p 0) with
  | some op => exact handler_lands hp hop s hs
  | none => trivial

theorem Boundary.onBoundary {σ : Type} {H : HostInterface σ} {e e' : Env σ} (h : Boundary keccak H f e s e') :
    OnBoundary f.code s.pc := by
  induction h with
  | Start => exact .inl .refl
  | Step before executed ih =>
    have hstep := (instruction_lands ih _ rfl).run (fun _ => trivial) (fun _ _ => trivial)
      (fun _ _ => ⟨trivial, trivial⟩) executed (R := fun _ _ => True)
    exact hstep.1

def InData (code : Bytes) (i : Nat) : Prop :=
  ∃ q op, InstructionStart code q ∧ code[q]? = some op ∧ q < i ∧ i < q + 1 + dataBytes op

theorem InstructionStart.not_inData {code : Bytes} (h : InstructionStart code p) : ¬InData code p := by
  rintro ⟨q, op, hq, hop, hlt, hin⟩
  have := hq.gap hop h hlt
  omega

-- JUMP and JUMPI as they are without the folding: they stop at the destination, whose JUMPDEST is
-- the next instruction.

def moveTo (f : Frame) (dest : Nat) : Exec Unit := do
  require (isJumpdest f.code dest) .BadJumpDestination
  modify fun s => { s with pc := dest }

def jumpApart (keccak : Bytes → Bytes32) (f : Frame) : Exec Unit := do
  useGas GAS_MID
  needs 1
  let d ← pop
  moveTo f (jumpTarget d)
  instruction keccak f

def jumpiApart (keccak : Bytes → Bytes32) (f : Frame) : Exec Unit := do
  useGas GAS_HIGH
  needs 2
  let d ← pop
  let cond ← pop
  if cond ≠ 0 then do
    moveTo f (jumpTarget d)
    instruction keccak f
  else advance 1

-- The same status and the same state; where the frame halts, there is no next position.
inductive SameEnd : Outcome Unit → Outcome Unit → Prop where
  | Ok (s : EvmState) : SameEnd (.Ok () s) (.Ok () s)
  | Halt (status : StatusCode) (s : EvmState) (pc : Nat) : SameEnd (.Halt status s) (.Halt status { s with pc := pc })

namespace Exec

def Agrees (m m' : Exec Unit) : Prop := ∀ s, ∃ o o', m s = .Done o ∧ m' s = .Done o' ∧ SameEnd o o'

theorem agrees_refl {m : Exec Unit} (hm : ∀ s, ∃ o, m s = .Done o) : m.Agrees m := by
  intro s
  obtain ⟨o, ho⟩ := hm s
  refine ⟨o, o, ho, ho, ?_⟩
  cases o with
  | Ok u s' => exact .Ok s'
  | Halt status s' => exact .Halt status s' s'.pc

theorem bind_ok {α β : Type} {m : Exec α} {k : α → Exec β} {a : α} (h : m s = .Done (.Ok a s')) :
    (m >>= k) s = k a s' := by
  show (m s).bind _ = _
  rw [h]
  rfl

theorem bind_halt {α β : Type} {m : Exec α} {k : α → Exec β} {status : StatusCode}
    (h : m s = .Done (.Halt status s')) : (m >>= k) s = .Done (.Halt status s') := by
  show (m s).bind _ = _
  rw [h]
  rfl

theorem agrees_bind {α : Type} {m : Exec α} {n n' : α → Exec Unit} (hm : ∀ s, ∃ o, m s = .Done o)
    (hn : ∀ a, (n a).Agrees (n' a)) : (m >>= n).Agrees (m >>= n') := by
  intro s
  obtain ⟨o, ho⟩ := hm s
  cases o with
  | Ok a s' =>
    rw [bind_ok ho, bind_ok ho]
    exact hn a s'
  | Halt status s' => exact ⟨_, _, bind_halt ho, bind_halt ho, .Halt status s' s'.pc⟩

theorem useGas_of_lt {cost : Int} (h : s.purse.gas < cost) : useGas cost s = .Done (.Halt .OutOfGas s) := by
  rw [useGas, Purse.spend, if_pos h]

theorem useGas_of_le {cost : Int} (h : cost ≤ s.purse.gas) :
    useGas cost s = .Done (.Ok () { s with purse := { s.purse with gas := s.purse.gas - cost } }) := by
  rw [useGas, Purse.spend, if_neg (Int.not_lt.mpr h)]

theorem useGas_done (cost : Int) (s : EvmState) : ∃ o, useGas cost s = .Done o := by
  unfold useGas
  split <;> exact ⟨_, rfl⟩

theorem needs_done (n : Nat) (s : EvmState) : ∃ o, needs n s = .Done o := by
  unfold needs
  split <;> exact ⟨_, rfl⟩

theorem pop_done (s : EvmState) : ∃ o, pop s = .Done o := by
  unfold pop
  split <;> exact ⟨_, rfl⟩

end Exec

theorem instruction_jumpdest (h : f.code[s.pc]? = some 0x5b) : instruction keccak f s = ops opJumpdest s := by
  have hrev : f.rev.atLeast .Berlin = true := by cases f.rev <;> rfl
  have hop : decode f.rev 0x5b = some .Jumpdest := by
    show (if f.rev.atLeast .Berlin = true then some Opcode.Jumpdest else none) = _
    rw [if_pos hrev]
  rw [instruction, List.getD_eq_getElem?_getD, h, Option.getD_some, hop]
  rfl

theorem jumpTo_agrees (dest : Nat) : (jumpTo f dest).Agrees (do moveTo f dest; instruction keccak f) := by
  intro s
  by_cases hdest : isJumpdest f.code dest = true
  · have hcheck : require (isJumpdest f.code dest) .BadJumpDestination s = .Done (.Ok () s) := by
      rw [hdest]
      rfl
    have hmove : moveTo f dest s = .Done (.Ok () { s with pc := dest }) := bind_ok hcheck
    have hland : instruction keccak f { s with pc := dest } = ops opJumpdest { s with pc := dest } :=
      instruction_jumpdest ((isJumpdest_iff f.code dest).mp hdest).2
    have hapart : (do moveTo f dest; instruction keccak f : Exec Unit) s = ops opJumpdest { s with pc := dest } :=
      (@bind_ok _ _ _ _ _ (fun _ => instruction keccak f) _ hmove).trans hland
    -- the gas of the JUMPDEST is all that can be missing
    by_cases hgas : s.purse.gas < GAS_JUMPDEST
    · refine ⟨_, _, (bind_ok hcheck).trans (bind_halt (useGas_of_lt hgas)), hapart.trans ?_, .Halt .OutOfGas s dest⟩
      exact bind_halt (useGas_of_lt hgas)
    · have hpaid := Int.not_lt.mp hgas
      refine ⟨_, _, (bind_ok hcheck).trans (bind_ok (useGas_of_le hpaid)), hapart.trans ?_, .Ok _⟩
      exact @bind_ok { s with pc := dest } _ _ _ _ _ _ (useGas_of_le hpaid)
  · have hcheck : require (isJumpdest f.code dest) .BadJumpDestination s = .Done (.Halt .BadJumpDestination s) := by
      rw [Bool.eq_false_iff.mpr hdest]
      rfl
    have hmove : moveTo f dest s = .Done (.Halt .BadJumpDestination s) := bind_halt hcheck
    exact ⟨_, _, bind_halt hcheck, bind_halt hmove, .Halt .BadJumpDestination s s.pc⟩

theorem jump_agrees : (opJump f).Agrees (jumpApart keccak f) :=
  agrees_bind (useGas_done _) fun _ => agrees_bind (needs_done 1) fun _ => agrees_bind pop_done fun _ =>
    jumpTo_agrees _

theorem jumpi_agrees : (opJumpi f).Agrees (jumpiApart keccak f) := by
  refine agrees_bind (useGas_done _) fun _ => agrees_bind (needs_done 2) fun _ => agrees_bind pop_done fun _ =>
    agrees_bind pop_done fun cond => ?_
  by_cases hcond : cond ≠ 0
  · rw [if_pos hcond, if_pos hcond]
    exact jumpTo_agrees _
  · rw [if_neg hcond, if_neg hcond]
    exact agrees_refl fun _ => ⟨_, rfl⟩

-- What PUSHn is: the bytes behind it as a big-endian number.
def pushed (f : Frame) (n : Nat) (s : EvmState) : Outcome Unit :=
  if s.purse.gas < GAS_VERYLOW then .Halt .OutOfGas s
  else
    let paid := { s with purse := { s.purse with gas := s.purse.gas - GAS_VERYLOW } }
    if kStackLimit ≤ s.stack.length then .Halt .StackOverflow paid
    else .Ok () { paid with
      stack := BitVec.ofNat 256 (readBe (following f.code (s.pc + 1) n)) :: s.stack
      pc := s.pc + (n + 1) }

theorem immediate_eq {code : Bytes} (pc1 n : Nat) :
    (if n ≤ 8 then smallImmediate code pc1 n else bigImmediate code pc1 n) =
      BitVec.ofNat 256 (readBe (following code pc1 n)) := by
  by_cases hn : n ≤ 8
  · rw [if_pos hn, smallImmediate_eq hn]
  · rw [if_neg hn, bigImmediate_eq]

theorem opPush_eq (n : Nat) : opPush f n s = .Done (pushed f n s) := by
  unfold opPush pushed
  by_cases hgas : s.purse.gas < GAS_VERYLOW
  · rw [if_pos hgas, bind_halt (useGas_of_lt hgas)]
  · rw [if_neg hgas, bind_ok (useGas_of_le (Int.not_lt.mp hgas))]
    dsimp only
    by_cases hfull : kStackLimit ≤ s.stack.length
    · rw [if_pos hfull]
      exact bind_halt (if_pos hfull)
    · rw [if_neg hfull, bind_ok (if_neg hfull), ← immediate_eq]
      rfl

theorem instruction_push {n : Nat} (hn : 1 ≤ n) (hmax : n ≤ 32) (h : f.code[s.pc]? = some (UInt8.ofNat (0x5f + n))) :
    instruction keccak f s = .Done (pushed f n s) := by
  have hbyte : (UInt8.ofNat (0x5f + n)).toNat = 0x5f + n := by
    rw [UInt8.toNat_ofNat']
    omega
  have hop : decode f.rev (UInt8.ofNat (0x5f + n)) = some (.Push n) := by
    rw [decode, hbyte, Opcode.ofFamily, if_pos (by omega), Nat.add_sub_cancel_left]
  rw [instruction, List.getD_eq_getElem?_getD, h, Option.getD_some, hop]
  exact opPush_eq n

-- The counter is at an instruction of the sweep or past the code, in no data of a PUSH; the bitset
-- has the bits of the JUMPDESTs; a folded jump is the jump and then the JUMPDEST; and PUSHn pushes
-- the bytes behind it.
theorem instruction_boundaries {σ : Type} (keccak : Bytes → Bytes32) (H : HostInterface σ) (f : Frame) (e : Env σ) :
    (∀ s e', Boundary keccak H f e s e' →
      (InstructionStart f.code s.pc ∨ f.code.length ≤ s.pc) ∧ (s.pc < f.code.length → ¬InData f.code s.pc)) ∧
    (∀ i, ((buildJumpdestBitset f.code).getD (i / 64) 0).getLsbD (i % 64) = true ↔
      InstructionStart f.code i ∧ f.code[i]? = some 0x5b) ∧
    (opJump f).Agrees (jumpApart keccak f) ∧ (opJumpi f).Agrees (jumpiApart keccak f) ∧
    (∀ n s, 1 ≤ n → n ≤ 32 → f.code[s.pc]? = some (UInt8.ofNat (0x5f + n)) →
      instruction keccak f s = .Done (pushed f n s)) := by
  refine ⟨fun s e' h => ⟨h.onBoundary, fun hpc => (h.onBoundary.start hpc).not_inData⟩, bitset_bit f.code, jump_agrees,
    jumpi_agrees, fun n s hn hmax h => instruction_push hn hmax h⟩

-- A jump over a PUSH1 whose data is 0x5b, and then a PUSH2 whose second byte is past the code.
def jumpOverData : Frame := ⟨.Amsterdam, plainMessage 100 0, [0x60, 5, 0x56, 0x60, 0x5b, 0x5b, 0x61, 0xab]⟩

theorem instruction_boundaries_jumpOverData :
    ∃ s e', Boundary (fun _ => digestOf 0) answeringHost jumpOverData ⟨(), EVMMem.init⟩ s e' ∧ s.pc = 6 ∧
      InstructionStart jumpOverData.code 6 ∧ ¬InData jumpOverData.code 6 ∧
      instruction (fun _ => digestOf 0) jumpOverData s =
        .Done (.Ok () { s with purse := ⟨85, 0, 0⟩, stack := [0xab00], pc := 9 }) := by
  obtain ⟨hpc, _, _, _, hpush⟩ := instruction_boundaries (fun _ => digestOf 0) answeringHost jumpOverData ⟨(), EVMMem.init⟩
  have hfirst : Boundary (fun _ => digestOf 0) answeringHost jumpOverData ⟨(), EVMMem.init⟩
      { jumpOverData.reset with purse := ⟨97, 0, 0⟩, stack := [5], pc := 2 } _ := .Step .Start rfl
  have hsecond : Boundary (fun _ => digestOf 0) answeringHost jumpOverData ⟨(), EVMMem.init⟩
      { jumpOverData.reset with purse := ⟨88, 0, 0⟩, pc := 6 } _ := .Step hfirst rfl
  obtain ⟨hstart, hdata⟩ := hpc _ _ hsecond
  refine ⟨_, _, hsecond, rfl, hstart.resolve_right (by decide), hdata (by decide), ?_⟩
  exact (hpush 2 _ (by decide) (by decide) rfl).trans rfl

end Zeg.Zevm
