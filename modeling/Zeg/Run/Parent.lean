import Zeg.Run.FakeExponential
import Zeg.Run.Sections
import Zeg.Ssz.Trees

-- Which bytes of the parent's record the run may depend on.
namespace Zeg.Run

open Base RlpCodec Zeg.Stream Fork Header Consensus Ancestors List
open Ssz (length_leBytes leNat_leBytes)

-- How many header fields the record's hash covers.
def hashedFields (record : Bytes) : Nat := forkFieldCount (forkFromFieldCount (u32At record 84))

-- The bytes of a record that enter its hash: the fields its count covers and the extra data in use.
def Committed (record : Bytes) (i : Nat) : Prop :=
  i < 512 + (u64At record 504).toNat ∨ (544 ≤ i ∧ i < 584) ∨
    (16 ≤ hashedFields record ∧ 584 ≤ i ∧ i < 616) ∨ (17 ≤ hashedFields record ∧ 616 ≤ i ∧ i < 648) ∨
    (20 ≤ hashedFields record ∧ 648 ≤ i ∧ i < 696) ∨ (21 ≤ hashedFields record ∧ 696 ≤ i ∧ i < 728) ∨
    (23 ≤ hashedFields record ∧ 728 ≤ i ∧ i < 768)

-- An input cut at its parent's record: `head` is the count of the ancestors' section.
structure HasParent (build : Build) (p : Platform) (x : Input) (lead : Leading) (front head record tail : Bytes) :
    Prop where
  cut : x.val = front ++ (head ++ (record ++ tail))
  read : readLeading build p x.val = .ok (lead, head ++ (record ++ tail))
  head_length : head.length = 8
  count : leNat head ≠ 0
  record_length : record.length = kRecordSize

def DifferUncommitted (build : Build) (p : Platform) (x x' : Input) : Prop :=
  ∃ lead front head record record' tail, HasParent build p x lead front head record tail ∧
    x'.val = front ++ (head ++ (record' ++ tail)) ∧ record'.length = kRecordSize ∧
    ∀ i, Committed record i → record'[i]? = record[i]?

-- The parent's hash covers the fields that the block's own fork makes the checks read.
def ParentCovers (build : Build) (p : Platform) (x : Input) : Prop :=
  ∀ lead front head record tail, HasParent build p x lead front head record tail →
    ((lead.consensus.forkId build).atLeast .London → 16 ≤ hashedFields record) ∧
    ((lead.consensus.forkId build).atLeast .Cancun → 20 ≤ hashedFields record)

-- Fields at the same bytes.

section

variable {r r' : Bytes} {off : Nat}

theorem take_drop_congr {len : Nat} (h : ∀ i, off ≤ i → i < off + len → r'[i]? = r[i]?) :
    (r'.drop off).take len = (r.drop off).take len := by
  apply ext_getElem?
  intro i
  rw [List.getElem?_take, List.getElem?_take]
  split
  · rw [List.getElem?_drop, List.getElem?_drop]
    exact h (off + i) (by omega) (by omega)
  · rfl

theorem u64At_congr (h : ∀ i, off ≤ i → i < off + 8 → r'[i]? = r[i]?) : u64At r' off = u64At r off := by
  rw [u64At, u64At, take_drop_congr h]

theorem bytesAt_congr {n : Nat} (h : ∀ i, off ≤ i → i < off + n → r'[i]? = r[i]?) :
    bytesAt n r' off = bytesAt n r off := by
  apply Subtype.ext
  apply map_congr_left
  intro i hi
  rw [mem_range] at hi
  rw [getD_eq_getElem?_getD, getD_eq_getElem?_getD, h (off + i) (by omega) (by omega)]

theorem wordAt_congr (h : ∀ i, off ≤ i → i < off + 32 → r'[i]? = r[i]?) : wordAt r' off = wordAt r off := by
  rw [wordAt, wordAt, bytesAt_congr h]

end

-- Two headers with the same fields up to the first `n`.
structure Agrees (n : Nat) (v v' : BlockHeader) : Prop where
  same : v' = { v with
    baseFeePerGas := v'.baseFeePerGas, withdrawalsRoot := v'.withdrawalsRoot, blobGasUsed := v'.blobGasUsed
    excessBlobGas := v'.excessBlobGas, parentBeaconBlockRoot := v'.parentBeaconBlockRoot
    requestsHash := v'.requestsHash, blockAccessListHash := v'.blockAccessListHash, slotNumber := v'.slotNumber }
  baseFee : 16 ≤ n → v'.baseFeePerGas = v.baseFeePerGas
  withdrawals : 17 ≤ n → v'.withdrawalsRoot = v.withdrawalsRoot
  blobs : 20 ≤ n → v'.blobGasUsed = v.blobGasUsed ∧ v'.excessBlobGas = v.excessBlobGas ∧
    v'.parentBeaconBlockRoot = v.parentBeaconBlockRoot
  requests : 21 ≤ n → v'.requestsHash = v.requestsHash
  accessList : 23 ≤ n → v'.blockAccessListHash = v.blockAccessListHash ∧ v'.slotNumber = v.slotNumber

theorem u32At_congr {r r' : Bytes} {off : Nat} (h : ∀ i, off ≤ i → i < off + 4 → r'[i]? = r[i]?) :
    u32At r' off = u32At r off := by
  rw [u32At, u32At, take_drop_congr h]

theorem view_agrees {record record' : Bytes} (h : ∀ i, Committed record i → record'[i]? = record[i]?) :
    Agrees (hashedFields record) (view record) (view record') := by
  have hbase : ∀ i, i < 512 → record'[i]? = record[i]? := fun i hi => h i (.inl (by omega))
  have hlen : u64At record' 504 = u64At record 504 := u64At_congr fun i _ hi => hbase i (by omega)
  have hmiddle : ∀ i, 544 ≤ i → i < 584 → record'[i]? = record[i]? := fun i hlo hhi => h i (.inr (.inl ⟨hlo, hhi⟩))
  constructor
  case same =>
    have hextra : (record'.drop 512).take (u64At record 504).toNat = (record.drop 512).take (u64At record 504).toNat :=
      take_drop_congr fun i _ hi => h i (.inl hi)
    simp only [view, BlockHeader.mk.injEq, hlen, true_and]
    refine ⟨?_, ?_, ?_, ?_, ?_, ?_, ?_, ?_, ?_, ?_, ?_, ?_, hextra, ?_, ?_, ?_⟩
    all_goals first
      | exact bytesAt_congr fun i _ hi => hbase i (by omega)
      | exact wordAt_congr fun i _ hi => hbase i (by omega)
      | exact u64At_congr fun i _ hi => hbase i (by omega)
      | exact bytesAt_congr fun i hlo hhi => hmiddle i (by omega) (by omega)
      | exact congrArg forkFromFieldCount (u32At_congr fun i _ hi => hbase i (by omega))
  case baseFee =>
    intro hn
    exact wordAt_congr fun i hlo hhi => h i (.inr (.inr (.inl ⟨hn, hlo, hhi⟩)))
  case withdrawals =>
    intro hn
    exact bytesAt_congr fun i hlo hhi => h i (.inr (.inr (.inr (.inl ⟨hn, hlo, hhi⟩))))
  case blobs =>
    intro hn
    have hblobs : ∀ i, 648 ≤ i → i < 696 → record'[i]? = record[i]? := fun i hlo hhi =>
      h i (.inr (.inr (.inr (.inr (.inl ⟨hn, hlo, hhi⟩)))))
    exact ⟨u64At_congr fun i hlo hhi => hblobs i (by omega) (by omega),
      u64At_congr fun i hlo hhi => hblobs i (by omega) (by omega),
      bytesAt_congr fun i hlo hhi => hblobs i (by omega) (by omega)⟩
  case requests =>
    intro hn
    exact bytesAt_congr fun i hlo hhi => h i (.inr (.inr (.inr (.inr (.inr (.inl ⟨hn, hlo, hhi⟩))))))
  case accessList =>
    intro hn
    have hlast : ∀ i, 728 ≤ i → i < 768 → record'[i]? = record[i]? := fun i hlo hhi =>
      h i (.inr (.inr (.inr (.inr (.inr (.inr ⟨hn, hlo, hhi⟩))))))
    exact ⟨bytesAt_congr fun i hlo hhi => hlast i (by omega) (by omega),
      u64At_congr fun i hlo hhi => hlast i (by omega) (by omega)⟩

section

variable {n : Nat} {v v' : BlockHeader}

theorem Agrees.headerFields_eq (h : Agrees n v v') : headerFields v' = headerFields v := by
  rw [h.same]
  rfl

theorem Agrees.forkFields_eq (h : Agrees n v v') : forkFields v' n = forkFields v n := by
  unfold forkFields
  have hbaseFee : 16 ≤ n → [encodeU256 v'.baseFeePerGas] = [encodeU256 v.baseFeePerGas] := fun hn => by
    rw [h.baseFee hn]
  have hwithdrawals : 17 ≤ n → [encode v'.withdrawalsRoot.toList] = [encode v.withdrawalsRoot.toList] := fun hn => by
    rw [h.withdrawals hn]
  have hrequests : 21 ≤ n → [encode v'.requestsHash.toList] = [encode v.requestsHash.toList] := fun hn => by
    rw [h.requests hn]
  refine congrArg₂ _ (congrArg₂ _ (congrArg₂ _ (congrArg₂ _ ?_ ?_) ?_) ?_) ?_
  · exact ite_congr rfl hbaseFee fun _ => rfl
  · exact ite_congr rfl hwithdrawals fun _ => rfl
  · refine ite_congr rfl (fun hn => ?_) fun _ => rfl
    rw [(h.blobs hn).1, (h.blobs hn).2.1, (h.blobs hn).2.2]
  · exact ite_congr rfl hrequests fun _ => rfl
  · refine ite_congr rfl (fun hn => ?_) fun _ => rfl
    rw [(h.accessList hn).1, (h.accessList hn).2]

theorem Agrees.encode_eq (h : Agrees n v v') (hn : n = forkFieldCount v.forkId) :
    encodeBlockHeaderRlp v' = encodeBlockHeaderRlp v := by
  have hfork : v'.forkId = v.forkId := by rw [h.same]
  rw [encodeBlockHeaderRlp, encodeBlockHeaderRlp, hfork, ← hn, h.headerFields_eq, h.forkFields_eq]

theorem Agrees.checkChain_eq (h : Agrees n v v') (views : List BlockHeader) (hashes : List Bytes32) :
    checkChain (v' :: views) hashes = checkChain (v :: views) hashes := by
  have hnumber : v'.number = v.number := by rw [h.same]
  have hparent : v'.parentHash = v.parentHash := by rw [h.same]
  cases views with
  | nil => rfl
  | cons parent views =>
    cases hashes with
    | nil => rfl
    | cons first hashes =>
      cases hashes with
      | nil => rfl
      | cons hash hashes => simp only [checkChain, hnumber, hparent]

theorem Agrees.hashOfNumber_eq (h : Agrees n v v') (views : List BlockHeader) (hashes : List Bytes32) :
    PreviousBlocks.hashOfNumber ⟨v' :: views, hashes⟩ = PreviousBlocks.hashOfNumber ⟨v :: views, hashes⟩ := by
  have hnumber : v'.number = v.number := by rw [h.same]
  funext number
  simp only [PreviousBlocks.hashOfNumber, hnumber]
  split
  · rfl
  · cases (v.number - number).toNat with
    | zero => simp only [List.getElem?_cons_zero, hnumber]
    | succ i => rfl

-- The checks read the base fee from London and the blob fields from Cancun on.
theorem Agrees.checkHeader_eq (h : Agrees n v v') {build : Build} {c : ConsensusInfo}
    (hlondon : (c.forkId build).atLeast .London → 16 ≤ n) (hcancun : (c.forkId build).atLeast .Cancun → 20 ≤ n) :
    checkHeader build c v' = checkHeader build c v := by
  have hstate : v'.stateRoot = v.stateRoot := by rw [h.same]
  have hnumber : v'.number = v.number := by rw [h.same]
  have htime : v'.timestamp = v.timestamp := by rw [h.same]
  have hlimit : v'.gasLimit = v.gasLimit := by rw [h.same]
  have hused : v'.gasUsed = v.gasUsed := by rw [h.same]
  have hexcess : checkExcessBlobGas build c v' = checkExcessBlobGas build c v := by
    unfold checkExcessBlobGas
    cases hfork : (c.forkId build).atLeast .Cancun with
    | false => rfl
    | true =>
      obtain ⟨hblob, hexcess, -⟩ := h.blobs (hcancun hfork)
      have hfee := h.baseFee (by have := hcancun hfork; omega)
      rw [expectedExcessBlobGas, expectedExcessBlobGas, hblob, hexcess, hfee]
  have hfee : checkBaseFee build c v' = checkBaseFee build c v := by
    unfold checkBaseFee
    cases hfork : (c.forkId build).atLeast .London with
    | false => rfl
    | true => rw [expectedBaseFee, expectedBaseFee, h.baseFee (hlondon hfork), hlimit, hused]
  have helastic : elasticGasLimit build c v' = elasticGasLimit build c v := by
    unfold elasticGasLimit
    cases hfork : (c.forkId build).atLeast .London with
    | false => simp [hlimit]
    | true => rw [h.baseFee (hlondon hfork), hlimit]
  have hlineage : checkLineage build c v' = checkLineage build c v := by
    rw [checkLineage, checkLineage, hnumber, htime, helastic]
  rw [checkHeader, checkHeader, hstate, hexcess, hfee, hlineage]

end

section

variable {keccak : Bytes → Bytes32} {head record record' tail : Bytes}

theorem readU64_head (hhead : head.length = 8) (rest : Bytes) : readU64 (head ++ rest) = .ok (leNat head, rest) := by
  unfold readU64
  rw [if_neg (by simp; omega), take_left' hhead, drop_left' hhead]

-- The ancestors' section with another parent record: the views change, the hashes do not.
theorem readPreviousBlocks_alter (hhead : head.length = 8) (hcount : leNat head ≠ 0)
    (hrecord : record.length = kRecordSize) (hrecord' : record'.length = kRecordSize)
    (hsame : ∀ i, Committed record i → record'[i]? = record[i]?) :
    readPreviousBlocks keccak (head ++ (record' ++ tail)) =
      (readPreviousBlocks keccak (head ++ (record ++ tail))).map fun x =>
        (⟨view record' :: x.1.views.tail, x.1.hashes⟩, x.2) := by
  have hagree := view_agrees hsame
  obtain ⟨count, hsucc⟩ := Nat.exists_eq_succ_of_ne_zero hcount
  have hlen : (record' ++ tail).length = (record ++ tail).length := by
    rw [length_append, length_append, hrecord, hrecord']
  have hextra : u64At record' 504 = u64At record 504 := u64At_congr fun i _ hi => hsame i (.inl (by omega))
  have hread : readView record' = (readView record).map fun _ => view record' := by
    rw [readView, readView, hextra]
    split <;> rfl
  have hdrop : (record' ++ tail).drop ((count + 1) * kRecordSize) = (record ++ tail).drop ((count + 1) * kRecordSize) := by
    rw [Nat.add_mul, Nat.one_mul, Nat.add_comm, ← drop_drop, ← drop_drop, drop_left' hrecord,
      drop_left' hrecord']
  have hadvance : advanceChecked ((count + 1) * kRecordSize) (record' ++ tail) =
      advanceChecked ((count + 1) * kRecordSize) (record ++ tail) := by
    rw [advanceChecked, advanceChecked, hlen, hdrop]
  unfold readPreviousBlocks
  rw [readU64_head hhead, readU64_head hhead, hsucc]
  simp only [bind, Except.bind, hlen]
  split
  · rfl
  · split
    · rfl
    · simp only [readViews, bind, Except.bind, take_left' hrecord, take_left' hrecord',
        drop_left' hrecord, drop_left' hrecord', hread, hadvance]
      cases hfirst : readView record with
      | error e => rfl
      | ok v =>
        have hv : v = view record := by
          rw [readView] at hfirst
          split at hfirst <;> cases hfirst
          rfl
        subst hv
        cases readViews count tail with
        | error e => rfl
        | ok views =>
          have hhash : computeBlockHeaderHash keccak (view record') = computeBlockHeaderHash keccak (view record) := by
            rw [computeBlockHeaderHash, computeBlockHeaderHash, hagree.encode_eq rfl]
          simp only [Except.map, pure, Except.pure, map_cons, hhash, hagree.checkChain_eq]
          cases advanceChecked ((count + 1) * kRecordSize) (record ++ tail) with
          | error e => rfl
          | ok rest =>
            cases checkChain (view record :: views)
                (computeBlockHeaderHash keccak (view record) :: views.map (computeBlockHeaderHash keccak)) with
            | error e => rfl
            | ok _ => rfl

theorem readPreviousBlocks_ok (hhead : head.length = 8) (hcount : leNat head ≠ 0) (hrecord : record.length = kRecordSize)
    {ancestors : PreviousBlocks} {rest : Bytes}
    (h : readPreviousBlocks keccak (head ++ (record ++ tail)) = .ok (ancestors, rest)) :
    u64At record 504 ≤ 32 ∧
      ∃ views hash hashes, ancestors = ⟨view record :: views, hash :: hashes⟩ := by
  obtain ⟨count, hsucc⟩ := Nat.exists_eq_succ_of_ne_zero hcount
  unfold readPreviousBlocks at h
  rw [readU64_head hhead, hsucc] at h
  simp only [bind, Except.bind] at h
  split at h
  · cases h
  · split at h
    · cases h
    · obtain ⟨views, hviews, h⟩ := bind_eq_ok.1 h
      obtain ⟨_, _, h⟩ := bind_eq_ok.1 h
      obtain ⟨_, _, h⟩ := bind_eq_ok.1 h
      cases h
      obtain ⟨first, hfirst, hviews⟩ := bind_eq_ok.1 hviews
      obtain ⟨others, _, heq⟩ := bind_eq_ok.1 hviews
      cases heq
      rw [take_left' hrecord, readView] at hfirst
      split at hfirst
      · cases hfirst
      · next hextra =>
        cases hfirst
        exact ⟨UInt64.not_lt.1 hextra, others, _, _, rfl⟩

end

section

variable {build : Build} {p : Platform} {x x' : Input} {lead : Leading} {front head record record' tail : Bytes}

theorem HasParent.alter (h : HasParent build p x lead front head record tail) (hrecord' : record'.length = kRecordSize)
    (hx' : x'.val = front ++ (head ++ (record' ++ tail))) : HasParent build p x' lead front head record' tail := by
  obtain ⟨front', hcut, hread⟩ := local_readLeading build p x.val lead _ h.read
  have hfront : front' = front := append_cancel_right (hcut.symm.trans h.cut)
  refine ⟨hx', ?_, h.head_length, h.count, hrecord'⟩
  rw [hx', ← hfront]
  apply hread
  simp only [length_append, h.record_length, hrecord']

theorem HasParent.runBlock_eq (h : HasParent build p x lead front head record tail) :
    runBlock build p x = readPreviousBlocks p.keccak (head ++ (record ++ tail)) >>= fun y =>
      match y.1.views, y.1.hashes with
      | parent :: _, parentHash :: _ => do
        checkHeader build lead.consensus parent
        proceed build p lead y.1 parentHash y.2
      | _, _ => .error "PreviousBlocks: must include at least the parent block" := by
  rw [runBlock, h.read]
  rfl

theorem HasParent.run_congr (h : HasParent build p x lead front head record tail) (hrecord' : record'.length = kRecordSize)
    (hx' : x'.val = front ++ (head ++ (record' ++ tail))) (hsame : ∀ i, Committed record i → record'[i]? = record[i]?)
    (hcovers : ParentCovers build p x) : run build p x' = run build p x := by
  obtain ⟨hlondon, hcancun⟩ := hcovers _ _ _ _ _ h
  have hagree := view_agrees hsame
  rw [run, run, (h.alter hrecord' hx').runBlock_eq, h.runBlock_eq,
    readPreviousBlocks_alter h.head_length h.count h.record_length hrecord' hsame]
  cases hread : readPreviousBlocks p.keccak (head ++ (record ++ tail)) with
  | error e => rfl
  | ok y =>
    obtain ⟨ancestors, rest⟩ := y
    obtain ⟨-, views, hash, hashes, rfl⟩ := readPreviousBlocks_ok h.head_length h.count h.record_length hread
    simp only [Except.map, bind, Except.bind, tail_cons, hagree.checkHeader_eq hlondon hcancun, proceed,
      hagree.hashOfNumber_eq]

theorem HasParent.accepted (h : HasParent build p x lead front head record tail) {out : Published}
    (hrun : run build p x = .ok out) (hcancun : (lead.consensus.forkId build).atLeast .Cancun = true) :
    u64At record 504 ≤ 32 ∧
      lead.consensus.excessBlobGas = expectedExcessBlobGas build lead.consensus (view record) := by
  obtain ⟨completed, hrun, -⟩ := map_eq_ok.1 hrun
  rw [h.runBlock_eq] at hrun
  obtain ⟨⟨ancestors, rest⟩, hread, hrun⟩ := bind_eq_ok.1 hrun
  obtain ⟨hextra, views, hash, hashes, rfl⟩ := readPreviousBlocks_ok h.head_length h.count h.record_length hread
  obtain ⟨_, hheader, -⟩ := bind_eq_ok.1 hrun
  obtain ⟨_, _, hheader⟩ := bind_eq_ok.1 hheader
  obtain ⟨_, hexcess, _⟩ := bind_eq_ok.1 hheader
  refine ⟨hextra, ?_⟩
  rw [checkExcessBlobGas, hcancun, requireThat] at hexcess
  split at hexcess
  · next heq => simpa using heq
  · cases hexcess

end

-- A record with other blob fields.

def withBlobs (record : Bytes) (used excess : UInt64) : Bytes :=
  record.take 648 ++ (Ssz.leBytes 8 used.toNat ++ (Ssz.leBytes 8 excess.toNat ++ record.drop 664))

section

variable {record : Bytes} (hrecord : record.length = kRecordSize) (used excess : UInt64)

include hrecord

theorem length_withBlobs : (withBlobs record used excess).length = kRecordSize := by
  simp only [withBlobs, length_append, length_take, length_drop, length_leBytes, hrecord, kRecordSize]
  decide

theorem withBlobs_used : (view (withBlobs record used excess)).blobGasUsed = used := by
  have hfront : (record.take 648).length = 648 := by
    rw [length_take, hrecord]
    decide
  simp only [view, u64At, withBlobs, drop_left' hfront, take_left' (length_leBytes 8 _), leNat_leBytes]
  simp

theorem withBlobs_excess : (view (withBlobs record used excess)).excessBlobGas = excess := by
  have hfront : (record.take 648 ++ Ssz.leBytes 8 used.toNat).length = 656 := by
    rw [length_append, length_leBytes, length_take, hrecord]
    decide
  simp only [view, u64At, withBlobs, ← append_assoc]
  rw [append_assoc, drop_left' hfront, take_left' (length_leBytes 8 _), leNat_leBytes]
  simp

theorem withBlobs_committed (hextra : u64At record 504 ≤ 32) (hfields : hashedFields record < 20) (i : Nat)
    (hi : Committed record i) : (withBlobs record used excess)[i]? = record[i]? := by
  have hout : i < 648 ∨ 664 ≤ i := by
    have hextra : (u64At record 504).toNat ≤ 32 := UInt64.le_iff_toNat_le.1 hextra
    unfold Committed at hi
    omega
  have hfront : (record.take 648).length = 648 := by
    rw [length_take, hrecord]
    decide
  obtain hi | hi := hout
  · rw [withBlobs, List.getElem?_append_left (by omega), List.getElem?_take_of_lt hi]
  · rw [withBlobs, List.getElem?_append_right (by omega), List.getElem?_append_right (by rw [length_leBytes]; omega),
      List.getElem?_append_right (by rw [length_leBytes, length_leBytes]; omega), List.getElem?_drop, hfront,
      length_leBytes, length_leBytes, show 664 + (i - 648 - 8 - 8) = i by omega]

end

theorem atLeast_london {fork : ForkId} (h : fork.atLeast .Cancun = true) : fork.atLeast .London = true := by
  revert h
  cases fork <;> decide

-- The scheduled forks: from Cancun on, and with room for a blob.
theorem scheduled (build : Build) (hbuild : build.forkFromInput = false) (c : ConsensusInfo)
    (hlondon : (c.forkId build).atLeast .London = true) :
    (c.forkId build).atLeast .Cancun = true ∧ 0 < c.targetBlobGasPerBlock build ∧
      (c.targetBlobGasPerBlock build).toNat < 2 ^ 32 := by
  have hrows : ∀ chain, ∀ row ∈ kForkSchedule chain, row.params.fork.atLeast .Cancun = true ∧
      0 < row.params.targetBlobGas ∧ row.params.targetBlobGas.toNat < 2 ^ 32 := by
    intro chain
    cases chain <;> decide
  simp only [ConsensusInfo.forkId, ConsensusInfo.targetBlobGasPerBlock, hbuild, Bool.false_eq_true, if_false,
    forkParamsAt] at hlondon ⊢
  cases hfind : (kForkSchedule build.chain).find? fun row => row.activation ≤ c.timestamp with
  | none =>
    rw [hfind] at hlondon
    cases hlondon
  | some row => exact hrows build.chain row (mem_of_find?_eq_some hfind)

theorem expectedExcessBlobGas_zero (build : Build) (c : ConsensusInfo) {parent : BlockHeader}
    (htarget : 0 < c.targetBlobGasPerBlock build) (hused : parent.blobGasUsed = 0) (hexcess : parent.excessBlobGas = 0) :
    expectedExcessBlobGas build c parent = 0 := by
  simp only [expectedExcessBlobGas, hused, hexcess, UInt64.add_zero]
  rw [if_pos htarget]

theorem expectedExcessBlobGas_ne_zero (build : Build) (c : ConsensusInfo) {parent : BlockHeader}
    (htarget : (c.targetBlobGasPerBlock build).toNat < 2 ^ 32) (hused : parent.blobGasUsed = 0)
    (hexcess : parent.excessBlobGas = c.targetBlobGasPerBlock build + 1) :
    expectedExcessBlobGas build c parent ≠ 0 := by
  simp only [expectedExcessBlobGas, hused, hexcess, UInt64.add_zero]
  generalize c.targetBlobGasPerBlock build = target at htarget
  have hsucc : (target + 1).toNat = target.toNat + 1 := by
    rw [UInt64.toNat_add, UInt64.toNat_one]
    omega
  have hless : ¬ target + 1 < target := by
    rw [UInt64.lt_iff_toNat_lt, hsucc]
    omega
  have hone : target + 1 - target ≠ 0 := by
    rw [UInt64.add_comm, UInt64.add_sub_cancel]
    decide
  rw [if_neg hless]
  split
  · split
    · have hzero : word 0 * word (c.maxBlobGasPerBlock build - target) / word (c.maxBlobGasPerBlock build) = 0#256 := by
        rw [show word 0 = 0#256 from rfl, BitVec.zero_mul, BitVec.zero_udiv]
      rw [hzero]
      intro h
      have := congrArg UInt64.toNat h
      simp [hsucc] at this
    · exact hone
  · exact hone

-- For every input: where the parent's hash covers what the checks read, bytes it does not cover have no
-- effect; and an input of the deployed builds that is accepted is free of such bytes only then.
theorem uncommitted_parent_bytes (build : Build) (p : Platform) (x : Input) :
    (ParentCovers build p x →
      ∀ x', DifferUncommitted build p x x' → (run build p x').toOption = (run build p x).toOption) ∧
    (build.forkFromInput = false → (run build p x).isOk = true →
      ((∀ x', DifferUncommitted build p x x' → (run build p x').toOption = (run build p x).toOption) ↔
        ParentCovers build p x)) := by
  have hforward : ParentCovers build p x →
      ∀ x', DifferUncommitted build p x x' → (run build p x').toOption = (run build p x).toOption := by
    rintro hcovers x' ⟨lead, front, head, record, record', tail, hparent, hx', hrecord', hsame⟩
    rw [hparent.run_congr hrecord' hx' hsame hcovers]
  refine ⟨hforward, fun hbuild haccepted => ⟨fun hsame => ?_, hforward⟩⟩
  obtain ⟨out, hout⟩ : ∃ out, run build p x = .ok out := by
    cases hrun : run build p x with
    | error e => rw [hrun] at haccepted; cases haccepted
    | ok out => exact ⟨out, rfl⟩
  intro lead front head record tail hparent
  by_contra hnot
  have hlondon : (lead.consensus.forkId build).atLeast .London = true ∧ hashedFields record < 20 := by
    by_contra hfew
    refine hnot ⟨fun hlondon => ?_, fun hcancun => ?_⟩
    · have : ¬ hashedFields record < 20 := fun hlt => hfew ⟨hlondon, hlt⟩
      omega
    · have : ¬ hashedFields record < 20 := fun hlt => hfew ⟨atLeast_london hcancun, hlt⟩
      omega
  obtain ⟨hcancun, hpos, hsmall⟩ := scheduled build hbuild lead.consensus hlondon.1
  have hextra := (hparent.accepted hout hcancun).1
  -- Whatever the record says of its blobs, the block's excess has to be what the formula makes of it.
  have hexpected : ∀ used excess, lead.consensus.excessBlobGas =
      expectedExcessBlobGas build lead.consensus (view (withBlobs record used excess)) := by
    intro used excess
    have hrecord' := length_withBlobs hparent.record_length used excess
    let x' : Input := ⟨front ++ (head ++ (withBlobs record used excess ++ tail)), by
      have := x.property
      rw [hparent.cut] at this
      simpa [hparent.record_length, hrecord'] using this⟩
    have hrun : run build p x' = .ok out := by
      have := hsame x' ⟨lead, front, head, record, _, tail, hparent, rfl, hrecord',
        withBlobs_committed hparent.record_length used excess hextra hlondon.2⟩
      rw [hout] at this
      cases hrun : run build p x' with
      | error e => rw [hrun] at this; cases this
      | ok out' => rw [hrun] at this; exact congrArg Except.ok (Option.some.inj this)
    exact ((hparent.alter hrecord' rfl).accepted hrun hcancun).2
  have hzero := hexpected 0 0
  have hmore := hexpected 0 (lead.consensus.targetBlobGasPerBlock build + 1)
  rw [expectedExcessBlobGas_zero build _ hpos (withBlobs_used hparent.record_length _ _)
    (withBlobs_excess hparent.record_length _ _)] at hzero
  exact expectedExcessBlobGas_ne_zero build _ hsmall (withBlobs_used hparent.record_length _ _)
    (withBlobs_excess hparent.record_length _ _) (hmore.symm.trans hzero)

-- Cancun's activation block on mainnet, over a parent of seventeen fields and an empty state, whose one row is
-- the predeploy that every Cancun block calls.

def beaconRoots : Address := addressOf 0x000F3df6D732807Ef1319fB7B8bB8522d0Beac02

def beaconRootsHash : Bytes32 := digestOf 0x37d65eaa92c6bc4c13a5ec45527f0c18ea8932588728769ec7aecfe6d9f32e42

def quietExecution : Executed where
  now := ⟨fun _ => ⟨0, 0, kEmptyCodeHash⟩, fun _ => 0⟩
  receiptsRoot := kEmptyTrieRoot
  logsBloom := List.Vector.replicate 256 0
  gasUsed := 0
  blobGasUsed := 0
  requestOutput := fun _ => []
  blockAccessListRlp := []
  outputSize := by simp
  blockAccessListSize := by simp

-- The hashes where they are compared with something.
def quietPlatform : Platform where
  keccak := tableKeccak [([0x80], kEmptyTrieRoot), (beaconRoots.toList, beaconRootsHash)]
  sha256 := tableKeccak []
  ecrecover := fun _ _ _ _ => none
  execute := fun _ => .ok quietExecution

def u64Bytes (n : Nat) : Bytes := Ssz.leBytes 8 n

def zeros (n : Nat) : Bytes := List.replicate n 0

def activationTime : Nat := 1710338135

def activationConsensus : Bytes :=
  kEmptyTrieRoot.toList ++ zeros 24 ++ u64Bytes 2 ++ u64Bytes 30000000 ++ u64Bytes activationTime ++ u64Bytes 0 ++
    zeros 96 ++ bytesOf 32 7 ++ u64Bytes 0 ++ u64Bytes 0 ++ zeros 72 ++ kEmptyOmmersHash.toList ++ u64Bytes 5 ++ zeros 32

def parentRecord (fieldCount : UInt8) : Bytes :=
  zeros 84 ++ [fieldCount, 0, 0, 0] ++ kEmptyTrieRoot.toList ++ zeros 352 ++ u64Bytes 1 ++ u64Bytes 30000000 ++
    u64Bytes 15000000 ++ u64Bytes (activationTime - 12) ++ u64Bytes 0 ++ zeros 72 ++ bytesOf 32 7 ++ zeros 152

def emptyState : Bytes :=
  u64Bytes 1 ++ u64Bytes 1 ++ u64Bytes 0 ++ u64Bytes 0 ++ u64Bytes 3 ++ u64Bytes 64 ++ beaconRootsHash.toList ++
    beaconRoots.toList ++ zeros 44 ++ kEmptyCodeHash.toList ++ u64Bytes (2 ^ 64 - 1) ++ u64Bytes (2 ^ 64 - 1) ++ u64Bytes 0

def activationFront : Bytes :=
  [0x5A, 0x45, 0x47, 0x30, 13, 0, 0, 0] ++ zeros 16 ++ activationConsensus ++ u64Bytes 0 ++ u64Bytes 0

def mainnet : Build := ⟨.Mainnet, false⟩

def activationBytes (record : Bytes) : Bytes := activationFront ++ (u64Bytes 1 ++ (record ++ emptyState))

def honestActivation : Input := ⟨activationBytes (parentRecord 17), by decide +kernel⟩

def forgedParent : Bytes := withBlobs (parentRecord 17) 0 393217

def forgedActivation : Input := ⟨activationBytes forgedParent, by decide +kernel⟩

def activationLead : Leading := ⟨ConsensusInfo.ofPrefix activationConsensus, [], []⟩

theorem activation_hasParent (fieldCount : UInt8) (x : Input) (hx : x.val = activationBytes (parentRecord fieldCount)) :
    HasParent mainnet quietPlatform x activationLead activationFront (u64Bytes 1) (parentRecord fieldCount) emptyState := by
  have hread : readLeading mainnet quietPlatform (activationBytes (parentRecord 17)) =
      .ok (activationLead, u64Bytes 1 ++ (parentRecord 17 ++ emptyState)) := by decide +kernel
  have hrecord : ∀ count, (parentRecord count).length = kRecordSize := fun count => by
    simp only [parentRecord, length_append, length_cons, length_nil]
    decide +kernel
  obtain ⟨front, hcut, hlocal⟩ := local_readLeading _ _ _ _ _ hread
  have hfront : front = activationFront := append_cancel_right hcut.symm
  refine ⟨hx, ?_, by decide +kernel, by decide +kernel, hrecord fieldCount⟩
  rw [hx, activationBytes, ← hfront]
  apply hlocal
  simp only [length_append, hrecord]

-- The parent's hash does not cover the blob fields, yet the block stands or falls with them.
theorem activation_reads_uncommitted :
    DifferUncommitted mainnet quietPlatform honestActivation forgedActivation ∧
      (run mainnet quietPlatform honestActivation).isOk = true ∧
      (run mainnet quietPlatform forgedActivation).isOk = false := by
  have hparent := activation_hasParent 17 honestActivation rfl
  refine ⟨⟨_, _, _, _, forgedParent, _, hparent, rfl, length_withBlobs hparent.record_length _ _, ?_⟩, ?_, ?_⟩
  · exact withBlobs_committed hparent.record_length _ _ (by decide +kernel) (by decide +kernel)
  · decide +kernel
  · decide +kernel

def coveredActivation : Input := ⟨activationBytes (parentRecord 20), by decide +kernel⟩

theorem uncommitted_parent_bytes_covered :
    ParentCovers mainnet quietPlatform coveredActivation ∧
      (run mainnet quietPlatform coveredActivation).isOk = true ∧
      ∀ x', DifferUncommitted mainnet quietPlatform coveredActivation x' →
        (run mainnet quietPlatform x').toOption = (run mainnet quietPlatform coveredActivation).toOption := by
  have hcovers : ParentCovers mainnet quietPlatform coveredActivation := by
    intro lead front head record tail hparent
    have hthis := activation_hasParent 20 coveredActivation rfl
    have hcursor := congrArg Prod.snd (Except.ok.inj (hparent.read.symm.trans hthis.read))
    have hrest := List.append_inj_right hcursor (hparent.head_length.trans hthis.head_length.symm)
    rw [List.append_inj_left hrest (hparent.record_length.trans hthis.record_length.symm)]
    exact ⟨fun _ => by decide +kernel, fun _ => by decide +kernel⟩
  have haccepted : (run mainnet quietPlatform coveredActivation).isOk = true := by decide +kernel
  exact ⟨hcovers, haccepted, ((uncommitted_parent_bytes mainnet quietPlatform coveredActivation).2 rfl haccepted).2 hcovers⟩

end Zeg.Run
