import Zeg.Digest
import Zeg.KeccakMemo

-- Whatever the executor answers, every digest is the Keccak-256 of its message.
namespace Zeg.KeccakMemo

open Base Base.Keccak List

-- Every entry in range holds a state and its image.
structure Memo.Sound (m : Memo) : Prop where
  images : ∀ i < m.used, (m.table i).output = keccakF (m.table i).input
  room : m.used ≤ kEntries

theorem lookup_image {m : Memo} (h : m.Sound) {index : UInt64} {state output : Lanes}
    (hlookup : m.lookup index state = some output) : index.toNat < m.used ∧ output = keccakF state := by
  rw [Memo.lookup] at hlookup
  split at hlookup
  · next hhit =>
    obtain rfl := Option.some.inj hlookup
    exact ⟨hhit.1, by rw [h.images _ hhit.1, hhit.2]⟩
  · cases hlookup

theorem file_sound {m : Memo} (h : m.Sound) (hroom : m.used ≠ kEntries) (state : Lanes) :
    (m.file ⟨state, keccakF state⟩).Sound := by
  constructor
  · intro i hi
    rw [Memo.file]
    dsimp only
    split
    · rfl
    · next hne => exact h.images i (Nat.lt_of_le_of_ne (Nat.lt_succ_iff.1 hi) hne)
  · exact Nat.lt_of_le_of_ne h.room hroom

section

variable {σ : Type} {keccakf : Lanes → Lanes} (hf : ∀ state, keccakf state = keccakF state) (ex : Executor σ)

include hf

theorem ziskKeccakf_spec (state : Lanes) {g : Guest σ} (h : g.memo.Sound) :
    (ziskKeccakf keccakf ex state g).1 = keccakF state ∧ (ziskKeccakf keccakf ex state g).2.memo.Sound := by
  rw [ziskKeccakf]
  split
  · next output hlookup => exact ⟨(lookup_image h hlookup).2, h⟩
  · split
    · exact ⟨hf state, h⟩
    · next hroom =>
      refine ⟨hf state, ?_⟩
      rw [hf]
      exact file_sound h hroom state

end

theorem get_xorLane (state : Lanes) (i : Nat) (w : UInt64) (k : Fin 25) :
    (xorLane state i w).get k = if k.val = i then state.get k ^^^ w else state.get k := by
  rw [xorLane, List.Vector.get_ofFn]

theorem absorbLanes_spec (n i : Nat) (state : Lanes) (data : Bytes) :
    (absorbLanes n i state data).2 = data.drop (8 * n) ∧ ∀ k : Fin 25, (absorbLanes n i state data).1.get k =
      if i ≤ k.val ∧ k.val < i + n then state.get k ^^^ laneAt data (k.val - i) else state.get k := by
  induction n generalizing i state data with
  | zero =>
    refine ⟨rfl, fun k => ?_⟩
    rw [if_neg (by omega)]
    rfl
  | succ n ih =>
    obtain ⟨hdata, hlanes⟩ := ih (i + 1) (xorLane state i (laneOf (data.take 8))) (data.drop 8)
    rw [absorbLanes]
    refine ⟨?_, fun k => ?_⟩
    · rw [hdata, drop_drop]
      congr 1
      omega
    · rw [hlanes, get_xorLane]
      by_cases hk : k.val = i
      · rw [if_neg (by omega), if_pos hk, if_pos (by omega), hk, Nat.sub_self]
        rfl
      · rw [if_neg hk]
        by_cases hlater : i + 1 ≤ k.val ∧ k.val < i + 1 + n
        · rw [if_pos hlater, if_pos (by omega), laneAt, laneAt, drop_drop]
          congr 4
          omega
        · rw [if_neg hlater, if_neg (by omega)]

theorem absorbLanes_block (state : Lanes) (data : Bytes) :
    absorbLanes kRateLanes 0 state data = (absorbBlock state data, data.drop kRate) := by
  obtain ⟨hdata, hlanes⟩ := absorbLanes_spec kRateLanes 0 state data
  refine Prod.ext (List.Vector.ext fun k => ?_) hdata
  rw [hlanes, absorbBlock, List.Vector.get_ofFn, Nat.sub_zero]
  simp only [Nat.zero_le, true_and, Nat.zero_add]

theorem absorbWords_spec (fuel i : Nat) (state : Lanes) (data : Bytes) (hfuel : data.length ≤ fuel) :
    (absorbWords fuel i state data).2 = (i + data.length / 8, data.drop (8 * (data.length / 8))) ∧
      ∀ k : Fin 25, (absorbWords fuel i state data).1.get k =
        if i ≤ k.val ∧ k.val < i + data.length / 8 then state.get k ^^^ laneAt data (k.val - i) else state.get k := by
  induction fuel generalizing i state data with
  | zero =>
    obtain rfl := length_eq_zero_iff.1 (Nat.le_zero.1 hfuel)
    refine ⟨rfl, fun k => ?_⟩
    rw [if_neg (by simp)]
    rfl
  | succ fuel ih =>
    rw [absorbWords]
    split
    · next hlen =>
      have hdrop : (data.drop 8).length = data.length - 8 := length_drop
      have hdiv : data.length / 8 = (data.length - 8) / 8 + 1 := by omega
      obtain ⟨hdata, hlanes⟩ := ih (i + 1) (xorLane state i (laneOf (data.take 8))) (data.drop 8) (by omega)
      rw [hdrop] at hdata hlanes
      refine ⟨?_, fun k => ?_⟩
      · rw [hdata, drop_drop, hdiv]
        refine Prod.ext (by dsimp only; omega) ?_
        dsimp only
        congr 1
        omega
      · rw [hlanes, get_xorLane]
        by_cases hk : k.val = i
        · rw [if_neg (by omega), if_pos hk, if_pos (by omega), hk, Nat.sub_self]
          rfl
        · rw [if_neg hk]
          by_cases hlater : i + 1 ≤ k.val ∧ k.val < i + 1 + (data.length - 8) / 8
          · rw [if_pos hlater, if_pos (by omega), laneAt, laneAt, drop_drop]
            congr 4
            omega
          · rw [if_neg hlater, if_neg (by omega)]
    · next hlen =>
      have hzero : data.length / 8 = 0 := by omega
      rw [hzero]
      refine ⟨rfl, fun k => ?_⟩
      rw [if_neg (by omega)]

theorem laneAt_padded {rest : Bytes} (h : rest.length < kRate) {k : Nat} (hk : k < kRateLanes) :
    laneAt (rest ++ padding rest.length) k =
      (if k < rest.length / 8 then laneAt rest k
        else if k = rest.length / 8 then lastWord (rest.drop (8 * (rest.length / 8))) else 0) ^^^
      (if k = kRateLanes - 1 then 0x8000000000000000 else 0) := by
  have hbit : ∀ k < kRateLanes, laneAt (List.replicate (kRate - 1) 0 ++ [0x80]) k =
      if k = kRateLanes - 1 then 0x8000000000000000 else 0 := by decide +kernel
  have hlen : (rest ++ 0x01 :: List.replicate (kRate - 1 - rest.length) 0).length = kRate := by
    simp only [length_append, length_cons, length_replicate, kRate] at h ⊢
    omega
  have hlen' : (List.replicate (kRate - 1) (0 : UInt8) ++ [0x80]).length = kRate := by simp [kRate]
  rw [padded_eq_xor h, laneAt, drop_zipWith, take_zipWith, laneOf_xor (by
    rw [length_take, length_take, length_drop, length_drop, hlen, hlen'])]
  congr 1
  · by_cases hfull : k < rest.length / 8
    · rw [if_pos hfull]
      exact laneAt_append (by omega)
    · rw [if_neg hfull]
      by_cases hpart : k = rest.length / 8
      · rw [if_pos hpart, lastWord, length_drop, hpart, drop_append_of_le_length (by omega),
          take_append, take_of_length_le (by rw [length_drop]; omega), length_drop]
        obtain ⟨m, hm⟩ : ∃ m, 8 - (rest.length - 8 * (rest.length / 8)) = m + 1 :=
          ⟨7 - (rest.length - 8 * (rest.length / 8)), by omega⟩
        have hm' : 7 - (rest.length - 8 * (rest.length / 8)) = m := by omega
        rw [hm, hm', take_succ_cons, take_replicate, Nat.min_eq_left]
        simp only [kRate, kRateLanes] at h hk ⊢
        omega
      · rw [if_neg hpart, drop_append, drop_of_length_le (by omega), nil_append]
        obtain ⟨m, hm⟩ : ∃ m, 8 * k - rest.length = m + 1 := ⟨8 * k - rest.length - 1, by omega⟩
        rw [hm, drop_succ_cons, drop_replicate, take_replicate]
        exact laneOf_zeros _
  · exact hbit k hk

theorem padLast_eq (state : Lanes) {rest : Bytes} (h : rest.length < kRate) :
    padLast state rest = absorbBlock state (rest ++ padding rest.length) := by
  obtain ⟨hwords, hlanes⟩ := absorbWords_spec rest.length 0 state rest (Nat.le_refl _)
  apply List.Vector.ext
  intro k
  rw [padLast, hwords, get_xorLane, get_xorLane, hlanes, absorbBlock, List.Vector.get_ofFn]
  simp only [Nat.zero_le, true_and, Nat.zero_add, Nat.sub_zero]
  have hlast : rest.length / 8 ≤ kRateLanes - 1 := by
    simp only [kRate, kRateLanes] at h ⊢
    omega
  by_cases hk : k.val < kRateLanes
  · rw [if_pos hk, laneAt_padded h hk]
    by_cases hfull : k.val < rest.length / 8
    · simp only [hfull, if_true]
      rw [if_neg (by omega), if_neg (by omega), if_neg (by omega), UInt64.xor_zero]
    · simp only [hfull, if_false]
      by_cases hpart : k.val = rest.length / 8
      · simp only [hpart, if_true]
        split
        · rw [UInt64.xor_assoc]
        · rw [UInt64.xor_zero]
      · simp only [hpart, if_false]
        split
        · rw [UInt64.zero_xor]
        · rw [UInt64.xor_zero, UInt64.xor_zero]
  · have hpos : 0 < kRateLanes := by decide
    rw [if_neg hk, if_neg (by omega), if_neg (by omega), if_neg (by omega)]

section

variable {σ : Type} {keccakf : Lanes → Lanes} (hf : ∀ state, keccakf state = keccakF state) (ex : Executor σ)

include hf

theorem absorbBlocks_spec (fuel : Nat) (state : Lanes) (data : Bytes) {g : Guest σ} (h : g.memo.Sound)
    (hfuel : data.length ≤ fuel) :
    (absorbBlocks keccakf ex fuel state data g).1 = absorb keccakF (data.length / kRate) state data ∧
      (absorbBlocks keccakf ex fuel state data g).2.1 = data.drop (data.length / kRate * kRate) ∧
      (absorbBlocks keccakf ex fuel state data g).2.2.memo.Sound := by
  induction fuel generalizing state data g with
  | zero =>
    obtain rfl := length_eq_zero_iff.1 (Nat.le_zero.1 hfuel)
    exact ⟨rfl, rfl, h⟩
  | succ fuel ih =>
    rw [absorbBlocks]
    split
    · next hlen =>
      have hpos : 0 < kRate := by decide
      obtain ⟨hstate, hsound⟩ := ziskKeccakf_spec hf ex (absorbBlock state data) h
      obtain ⟨hrest, hdata, hmemo⟩ := ih (keccakF (absorbBlock state data)) (data.drop kRate) hsound
        (by rw [length_drop]; omega)
      have hdiv : data.length / kRate = (data.length - kRate) / kRate + 1 := Nat.div_eq_sub_div hpos hlen
      rw [length_drop] at hrest hdata
      simp only [absorbLanes_block, hstate]
      refine ⟨?_, ?_, hmemo⟩
      · rw [hrest, hdiv]
        rfl
      · rw [hdata, drop_drop, hdiv, Nat.add_mul, Nat.one_mul, Nat.add_comm kRate]
    · next hlen =>
      have hzero : data.length / kRate = 0 := Nat.div_eq_of_lt (by omega)
      rw [hzero, Nat.zero_mul]
      exact ⟨rfl, rfl, h⟩

theorem absorbFirst_spec (data : Bytes) {g : Guest σ} (h : g.memo.Sound) :
    ∃ n, n * kRate ≤ data.length ∧ (absorbFirst keccakf ex data g).1 = absorb keccakF n zeroLanes data ∧
      (absorbFirst keccakf ex data g).2.1 = data.drop (n * kRate) ∧ (absorbFirst keccakf ex data g).2.2.memo.Sound := by
  rw [absorbFirst]
  split
  · next hlen =>
    have hcopy : (.ofFn fun i => if i.val < kRateLanes then laneAt data i.val else 0) = absorbBlock zeroLanes data := by
      apply List.Vector.ext
      intro k
      rw [absorbBlock, List.Vector.get_ofFn, List.Vector.get_ofFn, zeroLanes, List.Vector.get_replicate,
        UInt64.zero_xor]
    rw [hcopy]
    obtain ⟨hstate, hsound⟩ := ziskKeccakf_spec hf ex (absorbBlock zeroLanes data) h
    exact ⟨1, by omega, by rw [absorb, absorb, hstate], by rw [Nat.one_mul], hsound⟩
  · exact ⟨0, by omega, rfl, by rw [Nat.zero_mul]; rfl, h⟩

theorem ethashKeccak256_spec (data : Bytes) {g : Guest σ} (h : g.memo.Sound) :
    (ethashKeccak256 keccakf ex data g).1 = keccak256 data ∧ (ethashKeccak256 keccakf ex data g).2.memo.Sound := by
  have hpos : 0 < kRate := by decide
  rw [ethashKeccak256]
  obtain ⟨n, hn, hstate₁, hrest₁, hsound₁⟩ :=
    @absorbFirst_spec σ keccakf hf ex data { g with executor := ex.message g.executor data } h
  generalize absorbFirst keccakf ex data { g with executor := ex.message g.executor data } = first at *
  obtain ⟨hstate₂, hrest₂, hsound₂⟩ :=
    absorbBlocks_spec hf ex first.2.1.length first.1 first.2.1 hsound₁ (Nat.le_refl _)
  generalize absorbBlocks keccakf ex first.2.1.length first.1 first.2.1 first.2.2 = blocks at *
  obtain ⟨hstate₃, hsound₃⟩ := ziskKeccakf_spec hf ex (padLast blocks.1 blocks.2.1) hsound₂
  refine ⟨?_, hsound₃⟩
  have hlen : first.2.1.length = data.length - n * kRate := by rw [hrest₁, length_drop]
  have hcount : n + (data.length - n * kRate) / kRate = data.length / kRate := by
    have := Nat.sub_mul_div data.length kRate n
    have hle : n ≤ data.length / kRate := (Nat.le_div_iff_mul_le hpos).2 hn
    rw [Nat.mul_comm n] at *
    omega
  rw [hlen, hrest₁] at hstate₂ hrest₂
  rw [drop_drop, ← Nat.add_mul, hcount] at hrest₂
  rw [hstate₁, ← absorb_add, hcount] at hstate₂
  have hshort : blocks.2.1.length < kRate := by
    have hmod := Nat.mod_lt data.length hpos
    have hdiv := Nat.div_add_mod data.length kRate
    rw [Nat.mul_comm] at hdiv
    rw [hrest₂, length_drop]
    omega
  rw [hstate₃, padLast_eq _ hshort, hstate₂, hrest₂, keccak256, blocks_padded,
    absorb_padded keccakF _ zeroLanes data (Nat.div_mul_le_self _ _), absorb, absorb]

-- By induction on the messages: the next call starts from what the last one filed.
theorem hashAll_spec (messages : List Bytes) {g : Guest σ} (h : g.memo.Sound) :
    (hashAll keccakf ex messages g).1 = messages.map keccak256 ∧ (hashAll keccakf ex messages g).2.memo.Sound := by
  induction messages generalizing g with
  | nil => exact ⟨rfl, h⟩
  | cons message rest ih =>
    obtain ⟨hdigest, hsound⟩ := ethashKeccak256_spec hf ex message h
    obtain ⟨hdigests, hmemo⟩ := ih hsound
    rw [hashAll, map_cons]
    exact ⟨by rw [hdigest, hdigests], hmemo⟩

end

theorem sound_empty (table : Nat → Entry) : Memo.Sound ⟨table, 0⟩ := ⟨nofun, Nat.zero_le _⟩

-- From the start, or from any table that only holds images, also a full one. What the table holds past
-- its entries in use is arbitrary, so nothing of it reaches a digest.
theorem keccak_under_any_hints {σ : Type} (ex : Executor σ) (keccakf : Lanes → Lanes)
    (hf : ∀ state, keccakf state = keccakF state) (messages : List Bytes) :
    (∀ table : Nat → Entry, Memo.Sound ⟨table, 0⟩) ∧
    ∀ g : Guest σ, g.memo.Sound →
      (hashAll keccakf ex messages g).1 = messages.map keccak256 ∧
      (hashAll keccakf ex messages g).2.memo.Sound ∧
      ∀ index state output, (hashAll keccakf ex messages g).2.memo.lookup index state = some output →
        index.toNat < (hashAll keccakf ex messages g).2.memo.used ∧ output = keccakF state := by
  refine ⟨sound_empty, fun g h => ?_⟩
  obtain ⟨hdigests, hsound⟩ := hashAll_spec hf ex messages h
  exact ⟨hdigests, hsound, fun index state output hlookup => lookup_image hsound hlookup⟩

-- An executor that points at the latest entry whatever it is asked.
def latest : Executor Nat := ⟨fun n _ => n, fun n _ => (UInt64.ofNat n, n), fun _ i => i.toNat, fun n _ => n⟩

def blankMemory : Guest Nat := ⟨⟨fun _ => ⟨zeroLanes, zeroLanes⟩, 0⟩, 0⟩

theorem keccak_under_any_hints_latest :
    (∀ state, keccakF state = keccakF state) ∧ blankMemory.memo.Sound ∧
      (hashAll keccakF latest [[], [1, 2, 3], []] blankMemory).1 = [[], [1, 2, 3], []].map keccak256 :=
  ⟨fun _ => rfl, sound_empty _,
    ((keccak_under_any_hints latest keccakF (fun _ => rfl) [[], [1, 2, 3], []]).2 blankMemory (sound_empty _)).1⟩

example : keccak256 [] = kEmptyCodeHash := by decide +kernel

end Zeg.KeccakMemo
