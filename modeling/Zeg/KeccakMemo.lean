import Zeg.Base.Keccak

-- The guest's Keccak-256: the sponge over a memo of permutations that the executor looks up.
namespace Zeg.KeccakMemo

open Base Base.Keccak

def kEntries : Nat := 262144

structure Entry where
  input : Lanes
  output : Lanes

-- The table's contents past `used` are whatever the memory holds.
structure Memo where
  table : Nat → Entry
  used : Nat

def Memo.file (m : Memo) (entry : Entry) : Memo := ⟨fun i => if i = m.used then entry else m.table i, m.used + 1⟩

-- What answers the free-input calls. It sees every message, every call and every permutation, and
-- keeps what it likes of them.
structure Executor (σ : Type) where
  message : σ → Bytes → σ
  getIndex : σ → Lanes → UInt64 × σ
  setIndex : σ → UInt64 → σ
  permuted : σ → Lanes → σ

structure Guest (σ : Type) where
  memo : Memo
  executor : σ

def Memo.lookup (m : Memo) (index : UInt64) (state : Lanes) : Option Lanes :=
  if index.toNat < m.used ∧ (m.table index.toNat).input = state then some (m.table index.toNat).output else none

section

variable {σ : Type} (keccakf : Lanes → Lanes) (ex : Executor σ)

def ziskKeccakf (state : Lanes) (g : Guest σ) : Lanes × Guest σ :=
  let hint := ex.getIndex g.executor state
  match g.memo.lookup hint.1 state with
  | some output => (output, { g with executor := hint.2 })
  | none =>
    -- Full: keep permuting, just stop remembering.
    if g.memo.used = kEntries then (keccakf state, { g with executor := ex.permuted hint.2 state })
    else (keccakf state, ⟨g.memo.file ⟨state, keccakf state⟩,
      ex.permuted (ex.setIndex hint.2 (UInt64.ofNat g.memo.used)) state⟩)

def xorLane (state : Lanes) (i : Nat) (w : UInt64) : Lanes :=
  .ofFn fun k => if k.val = i then state.get k ^^^ w else state.get k

-- A block's lanes, xored in one by one.
def absorbLanes : Nat → Nat → Lanes → Bytes → Lanes × Bytes
  | 0, _, state, data => (state, data)
  | n + 1, i, state, data => absorbLanes n (i + 1) (xorLane state i (laneOf (data.take 8))) (data.drop 8)

def absorbBlocks : Nat → Lanes → Bytes → Guest σ → Lanes × Bytes × Guest σ
  | 0, state, data, g => (state, data, g)
  | fuel + 1, state, data, g =>
    if kRate ≤ data.length then
      let absorbed := absorbLanes kRateLanes 0 state data
      let permuted := ziskKeccakf keccakf ex absorbed.1 g
      absorbBlocks fuel permuted.1 absorbed.2 permuted.2
    else (state, data, g)

-- The first block is a copy against a zeroed state.
def absorbFirst (data : Bytes) (g : Guest σ) : Lanes × Bytes × Guest σ :=
  if kRate ≤ data.length then
    let permuted := ziskKeccakf keccakf ex (.ofFn fun i => if i.val < kRateLanes then laneAt data i.val else 0) g
    (permuted.1, data.drop kRate, permuted.2)
  else (zeroLanes, data, g)

def absorbWords : Nat → Nat → Lanes → Bytes → Lanes × Nat × Bytes
  | 0, i, state, data => (state, i, data)
  | fuel + 1, i, state, data =>
    if 8 ≤ data.length then absorbWords fuel (i + 1) (xorLane state i (laneOf (data.take 8))) (data.drop 8)
    else (state, i, data)

def lastWord (tail : Bytes) : UInt64 := laneOf (tail ++ 0x01 :: List.replicate (7 - tail.length) 0)

def padLast (state : Lanes) (rest : Bytes) : Lanes :=
  let absorbed := absorbWords rest.length 0 state rest
  xorLane (xorLane absorbed.1 absorbed.2.1 (lastWord absorbed.2.2)) (kRateLanes - 1) 0x8000000000000000

def ethashKeccak256 (data : Bytes) (g : Guest σ) : Bytes32 × Guest σ :=
  let first := absorbFirst keccakf ex data { g with executor := ex.message g.executor data }
  let blocks := absorbBlocks keccakf ex first.2.1.length first.1 first.2.1 first.2.2
  let last := ziskKeccakf keccakf ex (padLast blocks.1 blocks.2.1) blocks.2.2
  (squeeze last.1, last.2)

-- The digests of a sequence of messages.
def hashAll : List Bytes → Guest σ → List Bytes32 × Guest σ
  | [], g => ([], g)
  | message :: rest, g =>
    let hashed := ethashKeccak256 keccakf ex message g
    let others := hashAll rest hashed.2
    (hashed.1 :: others.1, others.2)

end

end Zeg.KeccakMemo
