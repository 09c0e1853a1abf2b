import Zeg.Evmone
import Zeg.Zevm.Sweep
import Zeg.Zevm.U256.Values

-- A fused sequence leaves the machine where the handlers of its opcodes leave it.
namespace Zeg.Evmone

open Base Base.Limbs Base.Rlp Base.Steps Zevm List

def Op.sequences : Op → List (List Op)
  | .Jump => [[.Jump, .Jumpdest]]
  | .Push2 => [[.Push2, .Jump, .Jumpdest], [.Push2, .Jumpi], [.Push2, .Jumpi, .Jumpdest]]
  | .Iszero => [[.Iszero, .Push2, .Jumpi], [.Iszero, .Push2, .Jumpi, .Jumpdest]]
  | .Eq => [[.Eq, .Push2, .Jumpi], [.Eq, .Push2, .Jumpi, .Jumpdest]]
  | .Push4 => [[.Push4, .Eq, .Push2, .Jumpi], [.Push4, .Eq, .Push2, .Jumpi, .Jumpdest]]
  | _ => []

section

variable {σ : Type} (e : Interpreter σ) (rev : Revision) (code : Bytes)

-- The handlers of these opcodes, one after the other, at the positions they lead to.
def Executes : List Op → Machine σ → Machine σ → Prop
  | [], m, m' => m' = m
  | op :: ops, m, m' =>
    byteAt code m.pc = op.byte ∧ ∃ next, invoke e rev code op m = .ok next ∧ Executes ops next m'

end

namespace Stack

variable {s : Stack} {w : U256} {n i : Nat}

theorem height_drop : (s.drop n).height = s.height - n := length_drop

theorem words_push (h : s.height < limit) : (s.push w).words = w :: s.words := by rw [push, dif_pos h]

theorem height_push (h : s.height < limit) : (s.push w).height = s.height + 1 :=
  congrArg List.length (words_push h)

theorem top_push (h : s.height < limit) : (s.push w).top 0 = w := by rw [top, words_push h, getD_cons_zero]

theorem top_push_succ (h : s.height < limit) : (s.push w).top (i + 1) = s.top i := by
  rw [top, words_push h, getD_cons_succ, top]

theorem drop_push (h : s.height < limit) : (s.push w).drop (n + 1) = s.drop n :=
  Stack.ext (by simp [drop, words_push h])

end Stack

-- Words

theorem eq_iff_limbs (a b : U256) : a = b ↔
    a.limb 0 = b.limb 0 ∧ a.limb 1 = b.limb 1 ∧ a.limb 2 = b.limb 2 ∧ a.limb 3 = b.limb 3 := by
  refine ⟨fun h => h ▸ ⟨rfl, rfl, rfl, rfl⟩, fun ⟨h0, h1, h2, h3⟩ => U256.word_inj (U256.word_eq ?_)⟩
  rw [U256.toNat_word, U256.value_limbs, U256.value_limbs, h0, h1, h2, h3]

theorem small_iff (a : U256) (v : Limb) :
    a = U256.small v ↔ a.limb 0 = v ∧ (a.limb 1 ||| a.limb 2 ||| a.limb 3) = 0 := by
  rw [eq_iff_limbs, U256.or_eq_zero, U256.or_eq_zero, and_assoc]
  rfl

theorem isZero_iff_small (a : U256) :
    (a.limb 0 ||| a.limb 1 ||| a.limb 2 ||| a.limb 3) = 0 ↔ a = U256.small 0 := by
  rw [small_iff, BitVec.or_assoc, BitVec.or_assoc, U256.or_eq_zero, BitVec.or_assoc]

theorem xor_limbs_iff (a b : U256) : ((a.limb 0 ^^^ b.limb 0) ||| (a.limb 1 ^^^ b.limb 1) |||
    (a.limb 2 ^^^ b.limb 2) ||| (a.limb 3 ^^^ b.limb 3)) = 0 ↔ a = b := by
  have hxor : ∀ x y : Limb, x ^^^ y = 0 ↔ x = y := fun x y => BitVec.xor_eq_zero_iff
  rw [eq_iff_limbs, U256.or_eq_zero, U256.or_eq_zero, U256.or_eq_zero, hxor, hxor, hxor, hxor, and_assoc, and_assoc]

theorem truth_eq_zero (b : Bool) : truth b = U256.small 0 ↔ b = false := by cases b <;> decide

-- Code

theorem byte_ofByte {b : UInt8} {op : Op} (h : Op.ofByte b = some op) : op.byte = b := by
  simpa using List.find?_some h

theorem ofByte_byte (op : Op) : Op.ofByte op.byte = some op := by cases op <;> rfl

theorem jumpdest_of_analyze {skip i : Nat} {code : Bytes} (h : (analyzeJumpdests skip code).getD i false = true) :
    code[i]? = some 0x5b := by
  induction code generalizing skip i with
  | nil => simp [analyzeJumpdests] at h
  | cons op code ih =>
    cases i with
    | zero =>
      cases skip with
      | zero =>
        rw [analyzeJumpdests] at h
        split at h
        · simp at h
        · simpa using h
      | succ skip => simp [analyzeJumpdests] at h
    | succ i =>
      cases skip with
      | zero =>
        rw [analyzeJumpdests] at h
        split at h
        · exact ih h
        · exact ih h
      | succ skip => exact ih h

theorem byteAt_jumpdest {code : Bytes} {dst : Limb} (h : checkJumpdest code dst = true) :
    byteAt code dst.toNat = Op.Jumpdest.byte := by
  have hcode := jumpdest_of_analyze h
  obtain ⟨hlt, -⟩ := List.getElem?_eq_some_iff.mp hcode
  rw [byteAt, executable, getD_eq_getElem?_getD, List.getElem?_append_left hlt, hcode]
  rfl

theorem immediate_eq (code : Bytes) (pc : Nat) {n : Nat} (hn : n ≤ 8) : immediate code pc n =
    U256.small (((List.range n).map fun k => byteAt code (pc + 1 + k)).foldl shiftIn 0) := by
  rw [immediate, ← toNat_foldl_shiftIn _ (by simpa using hn), BitVec.ofNat_toNat, BitVec.setWidth_eq]

theorem immediate_two (code : Bytes) (pc : Nat) : immediate code pc 2 = U256.small (target code pc) := by
  rw [immediate_eq code pc (by decide)]
  simp [range_succ, shiftIn, target, peek, Nat.add_assoc]

theorem immediate_four (code : Bytes) (pc : Nat) : immediate code pc 4 = U256.small
    ((peek code (pc + 1) <<< 24) ||| (peek code (pc + 2) <<< 16) ||| (peek code (pc + 3) <<< 8) |||
      peek code (pc + 4)) := by
  rw [immediate_eq code pc (by decide)]
  simp [range_succ, shiftIn, peek, Nat.add_assoc, BitVec.shiftLeft_or_distrib, ← BitVec.shiftLeft_add]

section

variable {σ : Type} {e : Interpreter σ} {rev : Revision} {code : Bytes} {m m' next : Machine σ} {op : Op}

-- The handlers

theorem gasCosts_pos (op : Op) : 0 < e.gasCosts rev op := by
  cases op with
  | Eq => rw [e.eq]; decide
  | Iszero => rw [e.iszero]; decide
  | Jump => rw [e.jump]; decide
  | Jumpi => rw [e.jumpi]; decide
  | Jumpdest => rw [e.jumpdest]; decide
  | Push2 => rw [e.push2]; decide
  | Push4 => rw [e.push4]; decide

theorem jumpImpl_eq_ok {dst : U256} : jumpImpl code dst m = .ok m' ↔
    (dst.limb 3 ||| dst.limb 2 ||| dst.limb 1) = 0 ∧ checkJumpdest code (dst.limb 0) = true ∧
      m' = { m with pc := (dst.limb 0).toNat } := by
  unfold jumpImpl
  split
  · next h =>
    refine ⟨nofun, fun ⟨hhigh, hcheck, _⟩ => ?_⟩
    simp [hhigh, hcheck] at h
  · next h =>
    obtain ⟨hhigh, hcheck⟩ := not_or.mp h
    rw [Except.ok.injEq, eq_comm]
    exact ⟨fun h => ⟨not_not.mp hhigh, Bool.eq_true_of_not_eq_false hcheck, h⟩, fun h => h.2.2⟩

theorem impl_gas (h : op.impl code m = .ok m') : m'.gas = m.gas := by
  cases op with
  | Jump =>
    obtain ⟨-, -, rfl⟩ := jumpImpl_eq_ok.mp h
    rfl
  | Jumpi =>
    change (if _ then _ else _) = _ at h
    split at h
    · obtain ⟨-, -, rfl⟩ := jumpImpl_eq_ok.mp h
      rfl
    · cases h
      rfl
  | _ =>
    cases h
    rfl

theorem invoke_eq_ok : invoke e rev code op m = .ok m' ↔
    (op.pushes = true → m.stack.height < limit) ∧ op.required ≤ m.stack.height ∧ e.gasCosts rev op ≤ m.gas ∧
      op.impl code { m with gas := m.gas - e.gasCosts rev op } = .ok m' := by
  have hwithin : m.stack.height ≤ limit := m.stack.within
  have hmap : ∀ x : Except StatusCode (Machine σ),
      x.mapError (fun status => (⟨status, 0, [], m.state⟩ : Result σ)) = .ok m' ↔ x = .ok m' := by
    intro x
    cases x <;> simp [Except.mapError]
  unfold invoke checkRequirements
  rw [hmap]
  split
  · next h => exact ⟨nofun, fun hok => by have := hok.1 h.1; omega⟩
  · next h =>
    have hroom : op.pushes = true → m.stack.height < limit := fun hp =>
      Nat.lt_of_le_of_ne hwithin fun heq => h ⟨hp, heq⟩
    split
    · next h => exact ⟨nofun, fun hok => by omega⟩
    · split
      · next h => exact ⟨nofun, fun hok => by omega⟩
      · exact ⟨fun hok => ⟨hroom, by omega, by omega, hok⟩, fun hok => hok.2.2.2⟩

theorem step_pays (h : step e rev code m = .ok m') : m'.gas.toNat < m.gas.toNat := by
  have hpays : 0 ≤ m'.gas ∧ m'.gas < m.gas := by
    unfold step at h
    split at h
    · next op _ =>
      obtain ⟨-, -, hgas, himpl⟩ := invoke_eq_ok.mp h
      have hpos := @gasCosts_pos σ e rev op
      rw [impl_gas himpl]
      dsimp only
      omega
    · exact e.pays _ _ _ _ _ h
  omega

-- The sequences

theorem Executes.cons {ops : List Op} {cost : Int} (hcost : e.gasCosts rev op = cost)
    (hbyte : byteAt code m.pc = op.byte) (hroom : op.pushes = true → m.stack.height < limit)
    (hrequired : op.required ≤ m.stack.height) (hgas : cost ≤ m.gas)
    (himpl : op.impl code { m with gas := m.gas - cost } = .ok next) (hrest : Executes e rev code ops next m') :
    Executes e rev code (op :: ops) m m' := by
  subst hcost
  exact ⟨hbyte, next, invoke_eq_ok.mpr ⟨hroom, hrequired, hgas, himpl⟩, hrest⟩

theorem Executes.steps {ops : List Op} (h : Executes e rev code ops m m') :
    steps (step e rev code) ops.length m = .ok m' := by
  induction ops generalizing m with
  | nil => exact congrArg Except.ok h.symm
  | cons op ops ih =>
    obtain ⟨hbyte, next, hinvoke, hrest⟩ := h
    have hstep : step e rev code m = .ok next := by
      rw [step, hbyte, ofByte_byte]
      exact hinvoke
    rw [length_cons, Steps.steps, hstep]
    exact ih hrest

variable {pc : Nat} {s : Stack} {g : Int} {st : σ}

theorem executes_landing {dst : Limb} (hcheck : checkJumpdest code dst = true) (hgas : 1 ≤ g) :
    Executes e rev code [.Jumpdest] ⟨dst.toNat, s, g, st⟩ ⟨dst.toNat + 1, s, g - 1, st⟩ :=
  .cons (e.jumpdest rev) (byteAt_jumpdest hcheck) nofun (Nat.zero_le _) hgas rfl rfl

theorem executes_jump {dst : U256} (htop : s.top 0 = dst) (hbyte : byteAt code pc = Op.Jump.byte)
    (hlow : 1 ≤ s.height) (hhigh : (dst.limb 3 ||| dst.limb 2 ||| dst.limb 1) = 0)
    (hcheck : checkJumpdest code (dst.limb 0) = true) (hgas : 8 + 1 ≤ g) :
    Executes e rev code [.Jump, .Jumpdest] ⟨pc, s, g, st⟩
      ⟨(dst.limb 0).toNat + 1, s.drop 1, g - (8 + 1), st⟩ := by
  subst htop
  have hland := @executes_landing _ e rev code (s.drop 1) (g - 8) st _ hcheck (by omega)
  rw [Int.sub_sub] at hland
  exact .cons (e.jump rev) hbyte nofun hlow (by dsimp only; omega) (jumpImpl_eq_ok.mpr ⟨hhigh, hcheck, rfl⟩) hland

theorem high_small {v : Limb} : ((U256.small v).limb 3 ||| (U256.small v).limb 2 ||| (U256.small v).limb 1) = 0 :=
  (by simp : (0 : Limb) ||| 0 ||| 0 = 0)

theorem executes_push2 {ops : List Op} (hbyte : byteAt code pc = Op.Push2.byte) (hroom : s.height < limit)
    (hgas : 3 ≤ g) (hrest : Executes e rev code ops ⟨pc + 3, s.push (U256.small (target code pc)), g - 3, st⟩ m') :
    Executes e rev code (.Push2 :: ops) ⟨pc, s, g, st⟩ m' := by
  rw [← immediate_two] at hrest
  exact .cons (e.push2 rev) hbyte (fun _ => hroom) (Nat.zero_le _) hgas rfl hrest

-- Where a branch goes on, and what a landing costs besides.
def Lands (code : Bytes) (push2 : Nat) : Bool → Nat → Int → Prop
  | true, pc, extra =>
    checkJumpdest code (target code push2) = true ∧ pc = (target code push2).toNat + 1 ∧ extra = 1
  | false, pc, extra => pc = push2 + 4 ∧ extra = 0

theorem Lands.extra_nonneg {push2 : Nat} {taken : Bool} {pc : Nat} {extra : Int}
    (h : Lands code push2 taken pc extra) : 0 ≤ extra := by
  cases taken with
  | false =>
    obtain ⟨-, rfl⟩ := h
    decide
  | true =>
    obtain ⟨-, -, rfl⟩ := h
    decide

theorem zegJump_eq (dst : Limb) (cost : Int) (m : Machine σ) : zegJump code dst cost m = (false, m) ∨
    checkJumpdest code dst = true ∧ cost ≤ m.gas ∧
      zegJump code dst cost m = (true, { m with pc := dst.toNat + 1, gas := m.gas - cost }) := by
  unfold zegJump zegCharge
  cases checkJumpdest code dst with
  | false => exact .inl rfl
  | true =>
    by_cases hgas : m.gas < cost
    · simp [hgas]
    · simp [hgas, Int.not_lt.mp hgas]

theorem zegBranch_eq (push2 : Nat) (taken : Bool) (cost : Int) (m : Machine σ) :
    zegBranch code push2 taken cost m = (false, m) ∨
    ∃ pc extra, Lands code push2 taken pc extra ∧ cost + extra ≤ m.gas ∧
      zegBranch code push2 taken cost m = (true, { m with pc := pc, gas := m.gas - (cost + extra) }) := by
  cases taken with
  | true =>
    obtain h | ⟨hcheck, hgas, h⟩ := @zegJump_eq _ code (target code push2) (cost + 1) m
    · exact .inl h
    · exact .inr ⟨_, 1, ⟨hcheck, rfl, rfl⟩, hgas, h⟩
  | false =>
    by_cases hgas : m.gas < cost
    · simp [zegBranch, zegCharge, hgas]
    · refine .inr ⟨_, 0, ⟨rfl, rfl⟩, by omega, ?_⟩
      simp [zegBranch, zegCharge, hgas]

def branchOps (taken : Bool) : List Op := if taken then [.Push2, .Jumpi, .Jumpdest] else [.Push2, .Jumpi]

theorem executes_branch {taken : Bool} {pc' : Nat} {extra : Int} (hpush : byteAt code pc = Op.Push2.byte)
    (hjumpi : byteAt code (pc + 3) = Op.Jumpi.byte) (hlow : 0 < s.height) (hroom : s.height < limit)
    (htaken : taken = true ↔ s.top 0 ≠ U256.small 0) (hlands : Lands code pc taken pc' extra)
    (hgas : 3 + 10 + extra ≤ g) :
    Executes e rev code (branchOps taken) ⟨pc, s, g, st⟩ ⟨pc', s.drop 1, g - (3 + 10 + extra), st⟩ := by
  generalize hs' : s.push (U256.small (target code pc)) = s'
  have htop : s'.top 0 = U256.small (target code pc) := hs' ▸ Stack.top_push hroom
  have hcond : s'.top 1 = s.top 0 := hs' ▸ Stack.top_push_succ hroom
  have hdrop : s'.drop 2 = s.drop 1 := hs' ▸ Stack.drop_push hroom
  have hrequired : Op.Jumpi.required ≤ s'.height := by
    rw [← hs', Stack.height_push hroom]
    exact Nat.succ_le_succ hlow
  cases taken with
  | false =>
    obtain ⟨rfl, rfl⟩ := hlands
    have hzero : ¬s'.top 1 ≠ U256.small 0 := fun h => Bool.noConfusion (htaken.mpr (hcond ▸ h))
    refine executes_push2 hpush hroom (by omega) (.cons (e.jumpi rev) hjumpi nofun (hs' ▸ hrequired) ?_
      ((if_neg (hs' ▸ hzero)).trans rfl) ?_)
    · dsimp only
      omega
    · simp only [Executes, hs', hdrop, Int.sub_sub, Int.add_zero]
  | true =>
    obtain ⟨hcheck, rfl, rfl⟩ := hlands
    have htest : s'.top 1 ≠ U256.small 0 := hcond ▸ htaken.mp rfl
    have hland := @executes_landing _ e rev code (s.drop 1) (g - 3 - 10) st _ hcheck (by omega)
    rw [Int.sub_sub, Int.sub_sub] at hland
    refine executes_push2 hpush hroom (by omega) (.cons (e.jumpi rev) hjumpi nofun (hs' ▸ hrequired) ?_
      ((if_pos (hs' ▸ htest)).trans (jumpImpl_eq_ok.mpr ⟨?_, ?_, rfl⟩)) ?_)
    · dsimp only
      omega
    · simp only [hs', htop]
      exact high_small
    · simp only [hs', htop]
      exact hcheck
    · simp only [hs', htop, hdrop, Int.sub_sub]
      exact hland

-- What a sequence tests before its PUSH2.
def Op.tests : Op → List Op
  | .Iszero => [.Iszero]
  | .Push4 => [.Push4, .Eq]
  | .Eq => [.Eq]
  | _ => []

def Op.branches (op : Op) : Bool := op.fusable && op ≠ .Jump

structure Tested (s s' : Stack) (n : Nat) (taken : Bool) : Prop where
  low : 0 < s'.height
  room : s'.height < limit
  drop : s'.drop 1 = s.drop n
  top : taken = true ↔ s'.top 0 ≠ U256.small 0

theorem tested_truth {n : Nat} (b : Bool) (hroom : s.height - n + 1 < limit) :
    Tested s ((s.drop n).push (truth b)) n b := by
  have hrest : (s.drop n).height < limit := by
    rw [Stack.height_drop]
    omega
  refine ⟨?_, ?_, ?_, ?_⟩
  · rw [Stack.height_push hrest]
    exact Nat.succ_pos _
  · rw [Stack.height_push hrest, Stack.height_drop]
    exact hroom
  · rw [Stack.drop_push hrest]
    rfl
  · rw [Stack.top_push hrest, ne_eq, truth_eq_zero, Bool.not_eq_false]

theorem mem_sequences (hop : op.branches = true) (taken : Bool) : op.tests ++ branchOps taken ∈ op.sequences := by
  cases op with
  | Jump | Jumpi | Jumpdest => cases hop
  | _ => cases taken <;> decide

theorem executes_test (hop : op.branches = true) (hbyte : byteAt code pc = op.byte)
    (heq : op = .Push4 → byteAt code (pc + 5) = Op.Eq.byte) (hlow : op.pops ≤ s.height)
    (hhigh : op.pops = 1 → s.height < limit) (hgas : op.cost ≤ g) :
    ∃ s', Tested s s' op.pops (zegTest code (⟨pc, s, g, st⟩ : Machine σ) op) ∧
      ∀ ops m', Executes e rev code ops ⟨pc + op.offset, s', g - (op.cost - (3 + 10)), st⟩ m' →
        Executes e rev code (op.tests ++ ops) ⟨pc, s, g, st⟩ m' := by
  have hwithin : s.height ≤ limit := s.within
  cases op with
  | Jump | Jumpi | Jumpdest => cases hop
  | Push2 =>
    refine ⟨s, ⟨hlow, hhigh rfl, rfl, ?_⟩, fun ops m' h => ?_⟩
    · exact decide_eq_true_iff.trans (not_congr (isZero_iff_small _))
    · simpa [Op.cost, Op.offset, Op.tests] using h
  | Iszero =>
    have htest : zegTest code (⟨pc, s, g, st⟩ : Machine σ) .Iszero = decide (s.top 0 = U256.small 0) :=
      decide_eq_decide.mpr (isZero_iff_small _)
    have hroom := hhigh rfl
    rw [htest]
    exact ⟨_, tested_truth _ (by change s.height - 1 + 1 < limit; change 1 ≤ s.height at hlow; omega),
      fun ops m' h => .cons (e.iszero rev) hbyte nofun hlow (Int.le_trans (by decide) hgas) rfl h⟩
  | Eq =>
    have htest : zegTest code (⟨pc, s, g, st⟩ : Machine σ) .Eq = decide (s.top 0 = s.top 1) :=
      decide_eq_decide.mpr (xor_limbs_iff _ _)
    rw [htest]
    exact ⟨_, tested_truth _ (by change s.height - 2 + 1 < limit; change 2 ≤ s.height at hlow; omega),
      fun ops m' h => .cons (e.eq rev) hbyte nofun hlow (Int.le_trans (by decide) hgas) rfl h⟩
  | Push4 =>
    have hroom : s.height < limit := hhigh rfl
    have htest : zegTest code (⟨pc, s, g, st⟩ : Machine σ) .Push4 = decide (immediate code pc 4 = s.top 0) := by
      rw [immediate_four, decide_eq_decide.mpr (eq_comm.trans (small_iff _ _)), Bool.decide_and]
      rfl
    have hdrop : (s.push (immediate code pc 4)).drop 2 = s.drop 1 := Stack.drop_push hroom
    rw [htest]
    refine ⟨_, tested_truth _ (by change s.height - 1 + 1 < limit; change 1 ≤ s.height at hlow; omega),
      fun ops m' h => ?_⟩
    refine .cons (e.push4 rev) hbyte (fun _ => hroom) (Nat.zero_le _) (Int.le_trans (by decide) hgas) rfl
      (.cons (e.eq rev) (heq rfl) nofun ?_ ?_ rfl ?_)
    · rw [Stack.height_push hroom]
      exact Nat.succ_le_succ hlow
    · change 3 ≤ g - 3
      change 3 + 3 + 3 + 10 ≤ g at hgas
      omega
    · simp only [Stack.top_push hroom, Stack.top_push_succ hroom, hdrop, Int.sub_sub]
      exact h

-- A sequence that fuses is executed as its handlers would execute it; one that does not is left untouched.
def Contract (e : Interpreter σ) (rev : Revision) (code : Bytes) (op : Op) (m : Machine σ) : Prop :=
  zegTryFuse code op m = (false, m) ∨
    ∃ ops ∈ op.sequences, ∃ m', zegTryFuse code op m = (true, m') ∧ Executes e rev code ops m m'

theorem contract_jump (hbyte : byteAt code m.pc = Op.Jump.byte) : Contract e rev code .Jump m := by
  unfold Contract
  simp only [zegTryFuse, if_true]
  by_cases hlow : m.stack.height < 1
  · exact .inl (if_pos hlow)
  rw [if_neg hlow]
  by_cases hhigh : ((m.stack.top 0).limb 3 ||| (m.stack.top 0).limb 2 ||| (m.stack.top 0).limb 1) ≠ 0
  · exact .inl (if_pos hhigh)
  rw [if_neg hhigh]
  obtain h | ⟨hcheck, hgas, h⟩ := @zegJump_eq _ code ((m.stack.top 0).limb 0) (8 + 1) m
  · rw [h]
    exact .inl rfl
  · rw [h]
    exact .inr ⟨_, mem_singleton_self _, _, rfl,
      executes_jump rfl hbyte (Nat.not_lt.mp hlow) (not_not.mp hhigh) hcheck hgas⟩

theorem contract_push2_jump (hbyte : byteAt code m.pc = Op.Push2.byte)
    (hjump : byteAt code (m.pc + 3) = Op.Jump.byte) : Contract e rev code .Push2 m := by
  unfold Contract
  simp only [zegTryFuse, hjump, reduceCtorEq, if_false, and_self, if_true]
  by_cases hroom : m.stack.height < limit
  · rw [if_pos hroom]
    obtain h | ⟨hcheck, hgas, h⟩ := @zegJump_eq _ code (target code m.pc) (3 + 8 + 1) m
    · exact .inl h
    · have hrest := @executes_jump _ e rev code (m.pc + 3) _ (m.gas - 3) m.state _ (Stack.top_push hroom) hjump
        (by rw [Stack.height_push hroom]; exact Nat.succ_pos _) high_small hcheck (by omega)
      rw [Stack.drop_push hroom, Int.sub_sub] at hrest
      exact .inr ⟨_, mem_cons_self, _, h, executes_push2 hbyte hroom (by omega) hrest⟩
  · exact .inl (if_neg hroom)

theorem contract_branch (hop : op.branches = true) (hbyte : byteAt code m.pc = op.byte)
    (hjump : op = .Push2 → byteAt code (m.pc + 3) ≠ Op.Jump.byte) : Contract e rev code op m := by
  have hne : op ≠ .Jump := fun h => by rw [h] at hop; cases hop
  unfold Contract zegTryFuse
  rw [if_neg hne, if_neg fun h => hjump h.1 h.2]
  split
  · exact .inl rfl
  next hshape =>
  simp only [not_or, not_and, not_not] at hshape
  obtain ⟨hpush, hjumpi, heq⟩ := hshape
  split
  · exact .inl rfl
  next hheight =>
  simp only [not_or, not_and, Nat.not_lt, Nat.not_le] at hheight
  obtain ⟨hlow, hhigh⟩ := hheight
  obtain h | ⟨pc', extra, hlands, hgas, h⟩ :=
    @zegBranch_eq _ code (m.pc + op.offset) (zegTest code m op) op.cost m
  · rw [h]
    exact .inl rfl
  · have hextra := hlands.extra_nonneg
    obtain ⟨s', htested, hrun⟩ := @executes_test _ e rev code op m.pc m.stack m.gas m.state hop hbyte heq hlow hhigh
      (by omega)
    have hbranch := @executes_branch _ e rev code _ s' (m.gas - (op.cost - (3 + 10))) m.state _ _ _ hpush hjumpi
      htested.low htested.room htested.top hlands (by omega)
    rw [h]
    refine .inr ⟨op.tests ++ branchOps (zegTest code m op), ?_, _, rfl, ?_⟩
    · exact mem_sequences hop _
    · have hcost : m.gas - (op.cost - (3 + 10)) - (3 + 10 + extra) = m.gas - (op.cost + extra) := by omega
      rw [htested.drop, hcost] at hbranch
      exact hrun _ _ hbranch

theorem fused_contract (hop : op.fusable = true) (hbyte : byteAt code m.pc = op.byte) :
    Contract e rev code op m := by
  by_cases hjump : op = .Jump
  · subst hjump
    exact contract_jump hbyte
  · by_cases h : op = .Push2 ∧ byteAt code (m.pc + 3) = Op.Jump.byte
    · obtain ⟨rfl, hnext⟩ := h
      exact contract_push2_jump hbyte hnext
    · exact contract_branch (by simp [Op.branches, hop, hjump]) hbyte fun h2 h3 => h ⟨h2, h3⟩

theorem sequences_pos (op : Op) : ∀ ops ∈ op.sequences, 0 < ops.length := by cases op <;> decide

theorem fuses (e : Interpreter σ) (rev : Revision) (code : Bytes) :
    Fuses (step e rev code) (fusedStep e rev code) := by
  intro m
  have hone : ∀ x, step e rev code m = x → x = steps (step e rev code) (0 + 1) m := by
    rintro x rfl
    rw [Steps.steps]
    cases step e rev code m <;> rfl
  unfold fusedStep
  split
  · next h => exact ⟨0, hone _ (by rw [step, h])⟩
  · next op h =>
    have hinvoke : step e rev code m = invoke e rev code op m := by rw [step, h]
    by_cases hop : op.fusable = true
    · rw [if_pos hop]
      obtain h | ⟨ops, hops, m', h, hrun⟩ := @fused_contract _ e rev code m op hop (byte_ofByte h).symm
      · rw [h]
        exact ⟨0, hone _ hinvoke⟩
      · rw [h]
        have hpos : 0 < ops.length := sequences_pos op ops hops
        refine ⟨ops.length - 1, ?_⟩
        rw [Nat.sub_add_cancel hpos, hrun.steps]
        rfl
    · rw [if_neg hop]
      exact ⟨0, hone _ hinvoke⟩

end

-- Only the opcodes of the sequences run here; any other halts the machine.
def sequencesOnly : Interpreter Unit where
  gasCosts _
    | .Jump => 8
    | .Jumpi => 10
    | .Jumpdest => 1
    | _ => 3
  other _ _ _ m := .error ⟨.Success, m.gas, [], m.state⟩
  jump _ := rfl
  jumpi _ := rfl
  jumpdest _ := rfl
  push2 _ := rfl
  iszero _ := rfl
  eq _ := rfl
  push4 _ := rfl
  pays _ _ _ _ _ h := nomatch h

end Zeg.Evmone
