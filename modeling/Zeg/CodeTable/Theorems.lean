import Zeg.CodeTable.Block

namespace Zeg.CodeTable

open Base AccessList List

-- The codes of a block: those of the input and those its transactions insert.
def BlockCode (input : List Bytes) (txs : List Tx) (code : Bytes) : Prop :=
  code ∈ input ∨ ∃ tx ∈ txs, ∃ op ∈ tx.ops, ∃ owner, op.inserts = some (code, owner)

-- keccak has no collision among the codes of the block.
def CollisionFree (keccak : Bytes → Bytes32) (input : List Bytes) (txs : List Tx) : Prop :=
  ∀ a b, BlockCode input txs a → BlockCode input txs b → keccak a = keccak b → a = b

def runBlock (keccak : Bytes → Bytes32) (input : List Bytes) (hashes : Nat → Bytes32)
    (txs : List Tx) : Block :=
  (Block.start (Contracts.ofInput keccak input) hashes).run keccak txs

section results

variable {keccak : Bytes → Bytes32} {input : List Bytes} {hashes : Nat → Bytes32}

-- `Plain` may be chosen by the caller; every hash written without an insert is in it.
theorem blockInv_runBlock {txs all : List Tx} {Plain : Bytes32 → Prop}
    (hfree : CollisionFree keccak input all) (hsub : ∀ tx ∈ txs, tx ∈ all)
    (hplain : ∀ tx ∈ all, ∀ op ∈ tx.ops, ∀ hash, op.plain = some hash → Plain hash) :
    BlockInv keccak (BlockCode input all) hashes Plain (runBlock keccak input hashes txs) := by
  refine BlockInv.run hfree txs _ (blockInv_start (tableInv_ofInput input fun _ hc => .inl hc)) ?_ ?_
  · exact fun tx ht op hop code owner hins => .inr ⟨tx, hsub tx ht, op, hop, owner, hins⟩
  · exact fun tx ht => hplain tx (hsub tx ht)

theorem runBlock_append (txs txs' : List Tx) :
    runBlock keccak input hashes (txs ++ txs') = (runBlock keccak input hashes txs).run keccak txs' :=
  foldl_append

theorem runBlock_staged (txs : List Tx) : (runBlock keccak input hashes txs).table.staged = [] := by
  rcases eq_nil_or_concat txs with rfl | ⟨txs, tx, rfl⟩
  · have hload : ∀ (codes : List Bytes) (t : Contracts), t.staged = [] →
        (codes.foldl (fun t code => t.load (keccak code) code) t).staged = [] := by
      intro codes
      induction codes with
      | nil => exact fun _ ht => ht
      | cons code codes ih => exact fun t ht => ih _ ht
    exact hload input _ rfl
  · rw [concat_eq_append, runBlock_append]
    rfl

end results

section properties

variable (keccak : Bytes → Bytes32) (input : List Bytes) (hashes : Nat → Bytes32) (txs : List Tx)

-- A row whose hash was installed with an insert naming it as owner resolves to those bytes.
def InstalledResolve : Prop :=
  ∀ r code, ((runBlock keccak input hashes txs).rows r).origin = .Installed code →
    ∃ c, (runBlock keccak input hashes txs).table.byHash
      ((runBlock keccak input hashes txs).rows r).hash = some c ∧ c.code = code

def NoneInArena : Prop :=
  ∀ h c, (runBlock keccak input hashes txs).table.byHash h = some c → c.home ≠ .Arena

-- Code the last transaction was the first to insert, none of whose owners still holds it,
-- is not found.
def NewCodeForgotten : Prop :=
  ∀ earlier tx, txs = earlier ++ [tx] → ∀ h,
    (runBlock keccak input hashes earlier).table.has h = false →
    (∀ op ∈ tx.ops, ∀ code owner, op.inserts = some (code, owner) → keccak code = h →
      ((runBlock keccak input hashes txs).rows owner).hash ≠ h) →
    (runBlock keccak input hashes txs).table.has h = false

-- The address of an entry handed out at any earlier point still is that contract's, and
-- its analysis has only changed if it was written to since.
def EntriesStay : Prop :=
  ∀ earlier ops ops' next later, txs = earlier ++ ⟨ops ++ ops', next⟩ :: later →
    ∀ (i : Nat) (c : Contract),
      ((runBlock keccak input hashes earlier).runOps keccak ops).table.contracts[i]? = some c →
      ∃ c', (runBlock keccak input hashes txs).table.contracts[i]? = some c' ∧ c'.hash = c.hash ∧
        ((∀ a, .SetAnalysis i a ∉ ops' ∧ ∀ tx ∈ later, .SetAnalysis i a ∉ tx.ops) →
          c'.analysis = c.analysis)

-- With every hash that is written on its own the empty code's, as in the host, each hash
-- in the access list's code changes is the empty code's or resolves to code with that hash.
def RecordedResolve : Prop :=
  (∀ tx ∈ txs, ∀ op ∈ tx.ops, ∀ hash, op.plain = some hash → hash = kEmptyCodeHash) →
    ∀ r e, e ∈ (runBlock keccak input hashes txs).codeChanges r → e.2 = kEmptyCodeHash ∨
      ∃ c, (runBlock keccak input hashes txs).table.byHash e.2 = some c ∧ keccak c.code = e.2

variable {keccak input hashes txs}

theorem installedResolve (hfree : CollisionFree keccak input txs) :
    InstalledResolve keccak input hashes txs := by
  intro r code ho
  have hinv : BlockInv keccak (BlockCode input txs) hashes (fun _ => True) _ :=
    blockInv_runBlock hfree (fun _ h => h) fun _ _ _ _ _ _ => trivial
  have hs := (hinv.rows r).sound _ (.inl rfl)
  simp only [Sound, ho] at hs
  obtain ⟨i, c, hi, hc, hcode, _⟩ := hs.2
  exact ⟨c, by rw [Contracts.byHash, hs.1, hi]; exact hc, hcode⟩

theorem noneInArena (hfree : CollisionFree keccak input txs) : NoneInArena keccak input hashes txs := by
  intro h c hc hhome
  have hinv : BlockInv keccak (BlockCode input txs) hashes (fun _ => True) _ :=
    blockInv_runBlock hfree (fun _ h => h) fun _ _ _ _ _ _ => trivial
  obtain ⟨i, _, hget⟩ := Option.bind_eq_some_iff.mp hc
  obtain ⟨_, r, hr⟩ := hinv.table.staged i c hget ((hinv.table.arena i c hget).mp hhome)
  rw [runBlock_staged] at hr
  cases hr

theorem newCodeForgotten (hfree : CollisionFree keccak input txs) :
    NewCodeForgotten keccak input hashes txs := by
  rintro earlier tx rfl h hnew hlost
  have hmem : tx ∈ earlier ++ [tx] := by simp
  have hinv : BlockInv keccak (BlockCode input (earlier ++ [tx])) hashes (fun _ => True)
      (runBlock keccak input hashes earlier) :=
    blockInv_runBlock hfree (fun _ => mem_append_left _) fun _ _ _ _ _ _ => trivial
  have hknown : ∀ op ∈ tx.ops, ∀ code owner, op.inserts = some (code, owner) →
      BlockCode input (earlier ++ [tx]) code :=
    fun op hop code owner hins => .inr ⟨tx, hmem, op, hop, owner, hins⟩
  -- nothing is staged when the transaction starts
  have hstart : Fresh keccak (runBlock keccak input hashes earlier).table tx.ops
      (runBlock keccak input hashes earlier).table := by
    refine ⟨fun s hs => ?_, fun g i hi hn => ?_⟩
    · rw [runBlock_staged] at hs
      cases hs
    · rw [hn] at hi
      cases hi
  have hf := Fresh.runOps hfree tx.ops _ hinv hstart (fun _ h => h) hknown fun _ _ _ _ => trivial
  have ht := (BlockInv.runOps hfree tx.ops _ hinv hknown fun _ _ _ _ => trivial).table
  have hnone : (runBlock keccak input hashes earlier).table.index h = none := by
    simpa [Contracts.has] using hnew
  rw [runBlock_append] at hlost ⊢
  simp only [Contracts.has, Option.isSome_eq_false_iff, Option.isNone_iff_eq_none]
  exact hf.forgotten ht tx.next hnone hlost

theorem entriesStay : EntriesStay keccak input hashes txs := by
  rintro earlier ops ops' next later rfl i c hc
  obtain ⟨c₁, hc₁, hhash₁, han₁⟩ := runOps_entry keccak ops' _ hc
  obtain ⟨c₂, hc₂, hhash₂, han₂⟩ := endTx_entry _ next hc₁
  obtain ⟨c₃, hc₃, hhash₃, han₃⟩ := run_entry keccak later _ hc₂
  refine ⟨c₃, ?_, hhash₃.trans (hhash₂.trans hhash₁), fun hno => ?_⟩
  · rw [runBlock_append, ← hc₃]
    simp only [Block.run, Block.runTx, Block.runOps, foldl_cons, foldl_append]
  · rw [han₃ fun tx ht a => (hno a).2 tx ht, han₂, han₁ fun a => (hno a).1]

theorem recordedResolve (hfree : CollisionFree keccak input txs) :
    RecordedResolve keccak input hashes txs := by
  intro hplain r e he
  have hinv : BlockInv keccak (BlockCode input txs) hashes (· = kEmptyCodeHash) _ :=
    blockInv_runBlock hfree (fun _ h => h) hplain
  have hresolve : ∀ {i c}, (runBlock keccak input hashes txs).table.index e.2 = some i →
      (runBlock keccak input hashes txs).table.contracts[i]? = some c →
      ∃ c, (runBlock keccak input hashes txs).table.byHash e.2 = some c ∧ keccak c.code = e.2 := by
    intro i c hi hc
    obtain ⟨c', hc', _, hk, _⟩ := hinv.table.indexed _ _ hi
    exact ⟨c', by rw [Contracts.byHash, hi]; exact hc', hk⟩
  rcases (hinv.rows r).close_changes e he with he | ⟨he, ho⟩
  · rcases (hinv.rows r).changes e he with hempty | ⟨i, c, hi, hc, _⟩
    · exact .inl hempty
    · exact .inr (hresolve hi hc)
  · have hs := (hinv.rows r).sound _ (.inl rfl)
    cases horigin : ((runBlock keccak input hashes txs).rows r).origin with
    | Initial => exact absurd horigin ho
    | Bare =>
      simp only [Sound, horigin] at hs
      exact .inl (he.trans hs)
    | Installed code =>
      simp only [Sound, horigin] at hs
      obtain ⟨i, c, hi, hc, _⟩ := hs.2
      rw [← hs.1, ← he] at hi
      exact .inr (hresolve hi hc)

end properties

-- keccak256 at the code consisting of one STOP, and of no code.
def stopDigest (code : Bytes) : Bytes32 :=
  if code = [0x00] then
    ⟨[0xbc, 0x36, 0x78, 0x9e, 0x7a, 0x1e, 0x28, 0x14, 0x36, 0x46, 0x42, 0x29, 0x82, 0x8f, 0x81, 0x7d,
      0x66, 0x12, 0xf7, 0xb4, 0x77, 0xd6, 0x65, 0x91, 0xff, 0x96, 0xa9, 0xe0, 0x64, 0xbc, 0xc9, 0x8a],
      rfl⟩
  else kEmptyCodeHash

-- Row 0 gets the code in one transaction and loses it in the next.
def installThenClear : List Tx :=
  [⟨[.Install [0x00] 0 true], 1⟩, ⟨[.SetCodeHash 0 kEmptyCodeHash true], 2⟩]

theorem installThenClear_inserts {tx : Tx} (ht : tx ∈ installThenClear) {op : Op} (hop : op ∈ tx.ops)
    {code : Bytes} {owner : Nat} (hins : op.inserts = some (code, owner)) :
    code = [0x00] ∧ owner = 0 := by
  simp only [installThenClear, mem_cons, not_mem_nil, or_false] at ht
  rcases ht with rfl | rfl <;> cases mem_singleton.mp hop <;> cases hins
  exact ⟨rfl, rfl⟩

theorem installThenClear_collisionFree : CollisionFree stopDigest [] installThenClear := by
  have hcode : ∀ code, BlockCode [] installThenClear code → code = [0x00] := by
    rintro code (h | ⟨tx, ht, op, hop, owner, hins⟩)
    · cases h
    · exact (installThenClear_inserts ht hop hins).1
  intro a b ha hb _
  rw [hcode a ha, hcode b hb]

end Zeg.CodeTable
