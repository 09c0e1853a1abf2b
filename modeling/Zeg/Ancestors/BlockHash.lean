import Zeg.Ancestors
import Zeg.Header.Binding
import Zeg.Zevm.Instructions

-- BLOCKHASH, from the ancestors' records to the stack.
namespace Zeg.Ancestors

open Base Zeg.Stream Header Memory Zevm List UInt64

-- ZiskStateDB::get_block_hash of a block with this number
def getBlockHash (p : PreviousBlocks) (number : UInt64) (blockNumber : Int64) : Except String Bytes32 :=
  let diff := number.toInt64 - blockNumber
  if diff < 1 ∨ 256 < diff then .ok (digestOf 0)
  else
    match p.hashOfNumber blockNumber.toUInt64 with
    | some hash => .ok hash
    | none => .error "get_block_hash: requested ancestor not in the verified block chain"

-- The host of a block, of which only these two callbacks matter here; `commit` is bal_commit_pending.
def blockHost {σ : Type} (commit : σ → Except String σ) (tx : TxContext) (p : PreviousBlocks) (number : UInt64)
    (other : HostInterface σ) : HostInterface σ where
  answer
    | .GetTxContext, e => do return ({ tx with number := number.toInt64 }, ← commit e)
    | .GetBlockHash n, e => do
      let e ← commit e
      return (← getBlockHash p number n, e)
    | q, e => other.answer q e
  call := other.call

-- The hash `steps` links up from a header hash.
inductive Linked (keccak : Bytes → Bytes32) : Nat → Bytes32 → Bytes32 → Prop where
  | Here (hash : Bytes32) : Linked keccak 0 hash hash
  | Up {steps : Nat} {last : Bytes32} (header : BlockHeader) (hextra : header.extraData.length ≤ 32)
      (rest : Linked keccak steps header.parentHash last) :
      Linked keccak (steps + 1) (computeBlockHeaderHash keccak header) last

def headerEncodings : Set Bytes :=
  {bytes | ∃ h : BlockHeader, h.extraData.length ≤ 32 ∧ bytes = encodeBlockHeaderRlp h}

theorem parentHash_of_encoding {h h' : BlockHeader} (hextra : h.extraData.length ≤ 32)
    (hextra' : h'.extraData.length ≤ 32) (heq : encodeBlockHeaderRlp h = encodeBlockHeaderRlp h') :
    h.parentHash = h'.parentHash :=
  Subtype.ext (List.cons.inj (strings_injective hextra hextra' heq)).1

theorem Linked.unique {keccak : Bytes → Bytes32} (hkeccak : Set.InjOn keccak headerEncodings) {steps : Nat}
    {first last last' : Bytes32} (h : Linked keccak steps first last) (h' : Linked keccak steps first last') :
    last = last' := by
  induction h with
  | Here hash =>
    cases h'
    rfl
  | @Up steps last header hextra rest ih =>
    generalize hfirst : computeBlockHeaderHash keccak header = first at h'
    cases h' with
    | Up header' hextra' rest' =>
      have hencoding := hkeccak ⟨header, hextra, rfl⟩ ⟨header', hextra', rfl⟩ hfirst
      rw [← parentHash_of_encoding hextra hextra' hencoding] at rest'
      exact ih rest'

section

variable {keccak : Bytes → Bytes32} {cursor rest : Bytes} {p : PreviousBlocks}

theorem readViews_extra {n : Nat} {records : Bytes} {views : List BlockHeader} (h : readViews n records = .ok views) :
    ∀ v ∈ views, v.extraData.length ≤ 32 := by
  induction n generalizing records views with
  | zero =>
    cases h
    simp
  | succ n ih =>
    simp only [readViews, bind_eq_ok] at h
    obtain ⟨first, hfirst, views', hviews, hret⟩ := h
    cases hret
    intro v hv
    obtain rfl | hv := mem_cons.1 hv
    · unfold readView at hfirst
      split at hfirst
      · cases hfirst
      · next hlen =>
        cases hfirst
        have : (u64At (records.take kRecordSize) 504).toNat ≤ 32 := by
          simpa [lt_iff_toNat_lt] using hlen
        simp only [view, length_take]
        omega
    · exact ih hviews v hv

theorem readPreviousBlocks_chain (h : readPreviousBlocks keccak cursor = .ok (p, rest)) :
    p.hashes = p.views.map (computeBlockHeaderHash keccak) ∧ checkChain p.views p.hashes = .ok () ∧
      ∀ v ∈ p.views, v.extraData.length ≤ 32 := by
  simp only [readPreviousBlocks, bind_eq_ok] at h
  obtain ⟨⟨count, records⟩, -, h⟩ := h
  split at h
  · cases h
  · split at h
    · cases h
    · obtain ⟨views, hviews, h⟩ := bind_eq_ok.1 h
      obtain ⟨after, -, h⟩ := bind_eq_ok.1 h
      obtain ⟨⟨⟩, hchain, hret⟩ := bind_eq_ok.1 h
      cases hret
      exact ⟨rfl, hchain, readViews_extra hviews⟩

-- By induction on the place of the record: each neighbour is one link up.
theorem linked_of_chain {first v : BlockHeader} {older : List BlockHeader} {idx : Nat}
    (hchain : checkChain (first :: older) ((first :: older).map (computeBlockHeaderHash keccak)) = .ok ())
    (hextra : ∀ v ∈ first :: older, v.extraData.length ≤ 32) (hv : (first :: older)[idx]? = some v) :
    Linked keccak idx (computeBlockHeaderHash keccak first) (computeBlockHeaderHash keccak v) := by
  induction idx generalizing first older with
  | zero =>
    cases hv
    exact .Here _
  | succ idx ih =>
    cases older with
    | nil => simp at hv
    | cons parent older =>
      simp only [map_cons, checkChain] at hchain
      split at hchain
      · cases hchain
      · split at hchain
        · cases hchain
        · next hlink =>
          have hrest := ih hchain (fun v hv => hextra v (mem_cons_of_mem _ hv)) (by simpa using hv)
          rw [← not_not.1 hlink] at hrest
          exact .Up first (hextra first mem_cons_self) hrest

theorem hashOfNumber_linked (h : readPreviousBlocks keccak cursor = .ok (p, rest)) {parent : BlockHeader}
    {older : List BlockHeader} (hviews : p.views = parent :: older) {number : UInt64} {hash : Bytes32}
    (hhash : p.hashOfNumber number = some hash) :
    number.toNat ≤ parent.number.toNat ∧
      Linked keccak (parent.number.toNat - number.toNat) (computeBlockHeaderHash keccak parent) hash := by
  obtain ⟨hhashes, hchain, hextra⟩ := readPreviousBlocks_chain h
  unfold PreviousBlocks.hashOfNumber at hhash
  rw [hviews] at hhashes hchain hextra hhash
  simp only at hhash
  split at hhash
  · cases hhash
  · next hle =>
    have hle : number.toNat ≤ parent.number.toNat := by simpa [lt_iff_toNat_lt] using hle
    have hidx : (parent.number - number).toNat = parent.number.toNat - number.toNat :=
      UInt64.toNat_sub_of_le _ _ (UInt64.le_iff_toNat_le.2 hle)
    rw [hidx] at hhash
    refine ⟨hle, ?_⟩
    split at hhash
    · cases hhash
    · next v hv =>
      split at hhash
      · cases hhash
      · rw [hhashes, List.getElem?_map, hv] at hhash
        obtain rfl := Option.some.inj hhash
        rw [hhashes] at hchain
        exact linked_of_chain hchain hextra hv

end

-- The 256 numbers below the block's own.
def InWindow (number : UInt64) (v : Word) : Prop := v.toNat < number.toNat ∧ number.toNat ≤ v.toNat + 256

instance (number : UInt64) (v : Word) : Decidable (InWindow number v) := inferInstanceAs (Decidable (_ ∧ _))

theorem toInt_toInt64 {n : UInt64} (hn : n.toNat < 2 ^ 63) : n.toInt64.toInt = n.toNat := by
  have h : 2 * n.toBitVec.toNat < 2 ^ 64 := by
    show 2 * n.toNat < 2 ^ 64
    omega
  exact BitVec.toInt_eq_toNat_of_lt h

theorem toInt_lower {number : UInt64} (hnumber : number.toNat < 2 ^ 63) :
    (if number.toInt64 > 256 then number.toInt64 - 256 else 0 : Int64).toInt = (number.toNat - 256 : Nat) := by
  have htop := toInt_toInt64 hnumber
  have h256 : (256 : Int64).toInt = 256 := by decide
  split
  · next h =>
    have h : (256 : Int) < number.toNat := by
      have := Int64.lt_iff_toInt_lt.1 h
      rwa [htop, h256] at this
    rw [Int64.toInt_sub, htop, h256, Int.bmod_eq_of_le (by omega) (by omega)]
    omega
  · next h =>
    have h : ¬(256 : Int) < number.toNat := by
      intro hlt
      apply h
      apply Int64.lt_iff_toInt_lt.2
      rwa [htop, h256]
    rw [show (0 : Int64).toInt = 0 by decide]
    omega

theorem window_iff {number : UInt64} (hnumber : number.toNat < 2 ^ 63) (v : Word) :
    (v.toNat < 2 ^ 64 ∧ v.toNat < number.toInt64.toUInt64.toNat ∧
      (if number.toInt64 > 256 then number.toInt64 - 256 else 0) ≤ (UInt64.ofNat v.toNat).toInt64) ↔
      InWindow number v := by
  have hback : number.toInt64.toUInt64 = number := rfl
  rw [hback, Int64.le_iff_toInt_le, toInt_lower hnumber]
  have hsigned : v.toNat < number.toNat → (UInt64.ofNat v.toNat).toInt64.toInt = v.toNat := by
    intro hlt
    have hnat : (UInt64.ofNat v.toNat).toNat = v.toNat := toNat_ofNat_of_lt' (by show _ < 2 ^ 64; omega)
    rw [toInt_toInt64 (by rw [hnat]; omega), hnat]
  constructor
  · rintro ⟨-, hlt, hlow⟩
    exact ⟨hlt, by omega⟩
  · rintro ⟨hlt, hlow⟩
    exact ⟨by omega, hlt, by omega⟩

theorem getBlockHash_eq {p : PreviousBlocks} {number : UInt64} (hnumber : number.toNat < 2 ^ 63) {v : Word}
    (hv : InWindow number v) :
    getBlockHash p number (UInt64.ofNat v.toNat).toInt64 =
      match p.hashOfNumber (UInt64.ofNat v.toNat) with
      | some hash => .ok hash
      | none => .error "get_block_hash: requested ancestor not in the verified block chain" := by
  obtain ⟨hlt, hlow⟩ := hv
  have hnat : (UInt64.ofNat v.toNat).toNat = v.toNat := toNat_ofNat_of_lt' (by show _ < 2 ^ 64; omega)
  have hdiff : (number.toInt64 - (UInt64.ofNat v.toNat).toInt64).toInt = (number.toNat - v.toNat : Nat) := by
    rw [Int64.toInt_sub, toInt_toInt64 hnumber, toInt_toInt64 (by omega), hnat,
      Int.bmod_eq_of_le (by omega) (by omega)]
    omega
  have hinside : ¬(number.toInt64 - (UInt64.ofNat v.toNat).toInt64 < 1 ∨
      256 < number.toInt64 - (UInt64.ofNat v.toNat).toInt64) := by
    rw [Int64.lt_iff_toInt_lt, Int64.lt_iff_toInt_lt, hdiff, show (1 : Int64).toInt = 1 by decide,
      show (256 : Int64).toInt = 256 by decide]
    omega
  exact if_neg hinside

section

variable {σ : Type} {commit : σ → Except String σ} {tx : TxContext} {p : PreviousBlocks} {number : UInt64}
  {other : HostInterface σ} {s : EvmState} {purse : Gas.Purse} {v : Word} {stack : List Word} {e : Env σ}

theorem blockHash_run (hnumber : number.toNat < 2 ^ 63) :
    (blockHash v s).run (blockHost commit tx p number other).serve e = (do
      let h ← commit e.host
      if InWindow number v then
        let h ← commit h
        let hash ← getBlockHash p number (UInt64.ofNat v.toNat).toInt64
        return (.Ok (Word.ofBytes hash.toList) s, { e with host := h })
      else return (.Ok 0 s, { e with host := h })) := by
  have hask : blockHash v s = .Ask (.Host .GetTxContext) fun tx =>
      (if v.toNat < 2 ^ 64 ∧ v.toNat < tx.number.toUInt64.toNat ∧
          (if tx.number > 256 then tx.number - 256 else 0) ≤ (UInt64.ofNat v.toNat).toInt64 then
        (.Ask (.Host (.GetBlockHash (UInt64.ofNat v.toNat).toInt64)) fun hash =>
          .Done (.Ok (Word.ofBytes hash.toList) s) : Program Request.Answer (Outcome Word))
      else .Done (.Ok 0 s)) := by
    unfold blockHash
    simp only [bind, Exec.bind, Exec.askHost, Exec.ask, Program.bind]
    congr 1
    funext tx
    exact apply_ite (fun m : Exec Word => m s) _ _ _
  rw [hask]
  simp only [Program.run, HostInterface.serve, blockHost, bind, Except.bind]
  cases commit e.host with
  | error m => rfl
  | ok h =>
    simp only [Except.map, pure, Except.pure]
    by_cases hv : InWindow number v
    · rw [if_pos ((window_iff hnumber v).2 hv), if_pos hv]
      simp only [Program.run, HostInterface.serve]
      cases commit h with
      | error m => rfl
      | ok h' => cases getBlockHash p number (UInt64.ofNat v.toNat).toInt64 <;> rfl
    · rw [if_neg (mt (window_iff hnumber v).1 hv), if_neg hv]
      rfl

theorem opBlockhash_run (hnumber : number.toNat < 2 ^ 63) (hgas : s.purse.spend GAS_BLOCKHASH = some purse)
    (hstack : s.stack = v :: stack) :
    (opBlockhash s).run (blockHost commit tx p number other).serve e = (do
      let h ← commit e.host
      if InWindow number v then
        let h ← commit h
        let hash ← getBlockHash p number (UInt64.ofNat v.toNat).toInt64
        return (.Ok () { s with purse := purse, stack := Word.ofBytes hash.toList :: stack }, { e with host := h })
      else return (.Ok () { s with purse := purse, stack := 0 :: stack }, { e with host := h })) := by
  have hdepth : ¬((v :: stack).length < 1) := by simp
  have hstart : opBlockhash s = Exec.bind (blockHash v) Exec.push { s with purse := purse, stack := stack } := by
    unfold opBlockhash
    simp only [bind, Exec.bind, Exec.useGas, hgas, Program.bind, Exec.needs, Exec.pop, hstack]
    rw [if_neg hdepth]
    simp only [Program.bind]
  rw [hstart, Exec.bind, Program.run_bind, blockHash_run hnumber]
  cases commit e.host with
  | error m => rfl
  | ok h =>
    simp only [bind, Except.bind]
    by_cases hv : InWindow number v
    · rw [if_pos hv, if_pos hv]
      cases commit h with
      | error m => rfl
      | ok h' => cases getBlockHash p number (UInt64.ofNat v.toNat).toInt64 <;> rfl
    · rw [if_neg hv, if_neg hv]
      rfl

end

-- A parent with number 5 and its own parent, under a hash that is the same for every header.
def ancestorRecord (number : UInt8) (parentHash : Bytes32) : Bytes :=
  parentHash.toList ++ List.replicate 440 0 ++ [number] ++ List.replicate 295 0

def twoAncestors : Bytes :=
  [2, 0, 0, 0, 0, 0, 0, 0] ++ ancestorRecord 5 (digestOf 7) ++ ancestorRecord 4 (digestOf 3)

theorem read_twoAncestors : ∃ p rest parent older,
    readPreviousBlocks (fun _ => digestOf 7) twoAncestors = .ok (p, rest) ∧ p.views = parent :: older ∧
      (6 : UInt64) = parent.number + 1 := by
  have hread : (readPreviousBlocks (fun _ => digestOf 7) twoAncestors).map (fun r => r.1.views.map BlockHeader.number) =
      .ok [5, 4] := by decide +kernel
  obtain ⟨⟨p, rest⟩, hread, hviews⟩ := map_eq_ok.1 hread
  obtain ⟨parent, older, hcons, hnumber, -⟩ := map_eq_cons_iff.1 hviews
  exact ⟨p, rest, parent, older, hread, hcons, by rw [hnumber]; rfl⟩

def quietHost : HostInterface Unit where
  answer _ _ := .error "not asked"
  call _ _ := .error "not called"

def anyTx : TxContext :=
  ⟨0, addressOf 0, addressOf 0, 0, 0, 0, 0, 0, 0, 0, [], 0⟩

def askingFour : EvmState :=
  { pc := 0, stack := [4], purse := ⟨100, 0, 0⟩, refund := 0, charged := 0, selfBalance := none, returnData := []
    outputOffset := 0, outputSize := 0 }

end Zeg.Ancestors
