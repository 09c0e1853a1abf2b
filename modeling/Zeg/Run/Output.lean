import Zeg.Header.Binding
import Zeg.Mpt.Binding
import Zeg.PayloadRequest.Binding
import Zeg.Run.Parent
import Zeg.Transactions.Canonical

-- The published output and the block determine each other.
namespace Zeg.Run

open Base RlpCodec Zeg.Stream Fork Header Consensus PayloadRequest List
open Transactions (View readEnvelope readEnvelopes readSection)

-- Sizes of what the sections hold.

variable {cursor rest : Bytes}

theorem advanceChecked_ok {n : Nat} (h : advanceChecked n cursor = .ok rest) :
    n + rest.length = cursor.length := by
  unfold advanceChecked at h
  split at h
  · cases h
  · cases h
    rw [length_drop]
    omega

theorem readU64_ok {n : Nat} (h : readU64 cursor = .ok (n, rest)) :
    rest.length + 8 = cursor.length := by
  unfold readU64 at h
  split at h
  · cases h
  · cases h
    rw [length_drop]
    omega

theorem length_readWithdrawals {n : Nat} {withdrawals : List Withdrawal}
    (h : readWithdrawals n cursor = .ok (withdrawals, rest))
    : withdrawals.length = n ∧ rest.length ≤ cursor.length := by
  induction n generalizing cursor withdrawals with
  | zero =>
    cases h
    exact ⟨rfl, Nat.le_refl _⟩
  | succ n ih =>
    obtain ⟨next, hnext, h⟩ := bind_eq_ok.1 h
    obtain ⟨⟨others, rest'⟩, hothers, h⟩ := bind_eq_ok.1 h
    cases h
    have hlen := advanceChecked_ok hnext
    obtain ⟨hcount, hrest⟩ := ih hothers
    exact ⟨by rw [length_cons, hcount], by omega⟩

variable {build : Build}

theorem readConsensusInfo_ok {c : ConsensusInfo} (h : readConsensusInfo build cursor = .ok (c, rest)) :
    rest.length + kFixedPrefixSize ≤ cursor.length ∧ c.extraData.length ≤ 32 ∧ c.withdrawals.length < 2 ^ 64 := by
  obtain ⟨next, hnext, h⟩ := bind_eq_ok.1 h
  obtain ⟨_, hcheck, h⟩ := bind_eq_ok.1 h
  split at h
  · cases h
  · obtain ⟨⟨withdrawals, rest'⟩, hwithdrawals, h⟩ := bind_eq_ok.1 h
    cases h
    have hlen := advanceChecked_ok hnext
    obtain ⟨hcount, hrest⟩ := length_readWithdrawals hwithdrawals
    refine ⟨by omega, ?_, by rw [hcount]; exact UInt64.toNat_lt _⟩
    unfold ConsensusInfo.check at hcheck
    split at hcheck
    · cases hcheck
    · next hextra =>
      have hle : (u64At (cursor.take kFixedPrefixSize) 80).toNat ≤ 32 := UInt64.le_iff_toNat_le.1 (UInt64.not_lt.1 hextra)
      exact Nat.le_trans (length_take_le _ _) hle

section

variable {keccak : Bytes → Bytes32} {ecrecover : Bytes32 → Word → Word → Nat → Option Address}

-- A view holds the envelope it was read from, so reading that one again gives it again.
theorem readEnvelopes_ok {count : Nat} {cursor rest : Bytes} {views : List View}
    (h : readEnvelopes keccak ecrecover count cursor = .ok (views, rest)) :
    views.length = count ∧
      ∀ v ∈ views, readEnvelope keccak ecrecover v.envelope = .ok v ∧ v.envelope.length + 8 ≤ cursor.length := by
  induction count generalizing cursor views with
  | zero =>
    cases h
    exact ⟨rfl, nofun⟩
  | succ count ih =>
    obtain ⟨⟨size, next⟩, hsize, h⟩ := bind_eq_ok.1 h
    obtain ⟨padded, hpadded, h⟩ := bind_eq_ok.1 h
    obtain ⟨following, hfollowing, h⟩ := bind_eq_ok.1 h
    obtain ⟨v, hv, h⟩ := bind_eq_ok.1 h
    obtain ⟨⟨others, rest'⟩, hothers, h⟩ := bind_eq_ok.1 h
    cases h
    have hnext := readU64_ok hsize
    have hlen := advanceChecked_ok hpadded
    have hlen' := advanceChecked_ok hfollowing
    obtain ⟨hcount, hviews⟩ := ih hothers
    refine ⟨by rw [length_cons, hcount], forall_mem_cons.2 ⟨?_, fun w hw => ?_⟩⟩
    · have henvelope : v.envelope = next.take size := (Transactions.accepted_of_readEnvelope hv).envelope
      rw [henvelope]
      refine ⟨hv, ?_⟩
      rw [length_take]
      omega
    · obtain ⟨hread, hbound⟩ := hviews w hw
      exact ⟨hread, by omega⟩

theorem readSection_ok {cursor rest : Bytes} {views : List View}
    (h : readSection keccak ecrecover cursor = .ok (views, rest)) :
    views.length ≤ cursor.length ∧
      ∀ v ∈ views, readEnvelope keccak ecrecover v.envelope = .ok v ∧ v.envelope.length ≤ cursor.length := by
  obtain ⟨⟨count, next⟩, hcount, h⟩ := bind_eq_ok.1 h
  have hlen := readU64_ok hcount
  dsimp only at h
  split at h
  · cases h
  · obtain ⟨hviews, hall⟩ := readEnvelopes_ok h
    refine ⟨by omega, fun v hv => ⟨(hall v hv).1, ?_⟩⟩
    have := (hall v hv).2
    omega

end

-- What a run that went through says of what it returns.
structure Accepted (build : Build) (p : Platform) (r : Completed) : Prop where
  extraData : r.lead.consensus.extraData.length ≤ 32
  withdrawals : r.lead.consensus.withdrawals.length < 2 ^ 64
  transactions : r.lead.transactions.length < 2 ^ 64
  read : ∀ tx ∈ r.lead.transactions, readEnvelope p.keccak p.ecrecover tx.envelope = .ok tx
  envelopes : ∀ tx ∈ r.lead.transactions, tx.envelope.length ≤ 2 ^ 64 - 400
  header : r.header = blockHeader build p r.lead.consensus r.lead.transactions r.header.parentHash r.header.stateRoot r.done
  blockHash : r.published.blockHash = computeBlockHeaderHash p.keccak r.header
  out : newPayloadRequestRoot p.sha256 r.header r.published.blockHash r.lead.transactions
    r.lead.consensus.withdrawals (collectRequests build r.lead.consensus r.done)
    (blockAccessListRlp build r.lead.consensus r.done) = .ok r.published.out

theorem readLeading_ok {p : Platform} {input : Bytes} {lead : Leading} (hinput : input.length < 2 ^ 64)
    (h : readLeading build p input = .ok (lead, rest)) :
    lead.consensus.extraData.length ≤ 32 ∧ lead.consensus.withdrawals.length < 2 ^ 64 ∧
      lead.transactions.length < 2 ^ 64 ∧ ∀ tx ∈ lead.transactions,
        readEnvelope p.keccak p.ecrecover tx.envelope = .ok tx ∧ tx.envelope.length ≤ 2 ^ 64 - 400 := by
  obtain ⟨cursor, hpreamble, h⟩ := bind_eq_ok.1 h
  obtain ⟨⟨consensus, cursor'⟩, hconsensus, h⟩ := bind_eq_ok.1 h
  obtain ⟨⟨views, cursor''⟩, hviews, h⟩ := bind_eq_ok.1 h
  obtain ⟨⟨codes, rest'⟩, _, h⟩ := bind_eq_ok.1 h
  cases h
  have hseed : cursor.length + 24 ≤ input.length := by
    unfold readPreamble at hpreamble
    split_ifs at hpreamble
    cases hpreamble
    rw [length_drop]
    omega
  obtain ⟨hlen, hextra, hwithdrawals⟩ := readConsensusInfo_ok hconsensus
  obtain ⟨hcount, hall⟩ := readSection_ok hviews
  have hroom : cursor'.length + 400 ≤ input.length := by
    rw [kFixedPrefixSize] at hlen
    omega
  refine ⟨hextra, hwithdrawals, Nat.lt_of_le_of_lt hcount (by omega), fun tx htx => ⟨(hall tx htx).1, ?_⟩⟩
  have := (hall tx htx).2
  omega

theorem accepted_of_runBlock {p : Platform} {x : Input} {r : Completed} (h : runBlock build p x = .ok r)
    : Accepted build p r := by
  obtain ⟨⟨lead, cursor⟩, hlead, h⟩ := bind_eq_ok.1 h
  obtain ⟨⟨ancestors, cursor'⟩, _, h⟩ := bind_eq_ok.1 h
  obtain ⟨hextra, hwithdrawals, htransactions, hread⟩ := readLeading_ok x.property hlead
  dsimp only at h
  split at h
  · obtain ⟨_, _, h⟩ := bind_eq_ok.1 h
    obtain ⟨state, _, h⟩ := bind_eq_ok.1 h
    obtain ⟨done, _, h⟩ := bind_eq_ok.1 h
    obtain ⟨_, _, h⟩ := bind_eq_ok.1 h
    obtain ⟨newStateRoot, _, h⟩ := bind_eq_ok.1 h
    obtain ⟨_, _, h⟩ := bind_eq_ok.1 h
    obtain ⟨out, hout, h⟩ := bind_eq_ok.1 h
    cases h
    exact ⟨hextra, hwithdrawals, htransactions, fun tx htx => (hread tx htx).1, fun tx htx => (hread tx htx).2,
      rfl, rfl, hout⟩
  · cases h

-- What the two hashes are asked for.

section

variable (build : Build) (p : Platform) (r : Completed)

def requestBodies (type : Fin 5) : Bytes :=
  if type ∈ requestTypes build r.lead.consensus then r.done.requestOutput type else []

def contents : Contents where
  header := r.header
  blockHash := r.published.blockHash
  txs := r.lead.transactions
  withdrawals := r.lead.consensus.withdrawals
  bodies := requestBodies build r
  blockAccessListRlp := blockAccessListRlp build r.lead.consensus r.done

-- The header, the two tries, and from Amsterdam on the access list.
def keccakInputs : Set Bytes :=
  {encodeBlockHeaderRlp r.header} ∪
    ((Mpt.indexTrie (r.lead.transactions.map View.envelope)).strings p.keccak ∪
      (Mpt.indexTrie (r.lead.consensus.withdrawals.map withdrawalRecord)).strings p.keccak) ∪
    { s | (r.lead.consensus.forkId build).atLeast .Amsterdam = true ∧ s = r.done.blockAccessListRlp }

-- The requests, their digests in a row, and the nodes of the published tree.
def sha256Inputs : List Bytes :=
  let requests := collectRequests build r.lead.consensus r.done
  (requests.flatMap fun request => (p.sha256 request).toList) :: requests ++
    (((contents build r).tree p.sha256).pairs (Ssz.hash p.sha256)).map fun pair => pair.1.toList ++ pair.2.toList

end

section

variable {build : Build} {p : Platform} {r r' : Completed}

theorem requestTypes_eq (c : ConsensusInfo) :
    requestTypes build c = (List.finRange 5).filter fun type => type ∈ requestTypes build c := by
  have htypes : ∀ types ∈ [[], [0, 1, 2], [0, 1, 2, 3, (4 : Fin 5)]],
      types = (List.finRange 5).filter fun type => type ∈ types := by decide
  apply htypes
  unfold requestTypes
  split_ifs <;> simp

theorem collectRequests_eq_blobs : collectRequests build r.lead.consensus r.done = blobs (requestBodies build r) := by
  have hfilter : (requestTypes build r.lead.consensus).filter (fun type => r.done.requestOutput type ≠ []) =
      (List.finRange 5).filter fun type => requestBodies build r type ≠ [] := by
    rw [requestTypes_eq, filter_filter]
    refine filter_congr fun type _ => ?_
    unfold requestBodies
    split <;> simp [*]
  rw [collectRequests, blobs, hfilter]
  refine map_congr_left fun type htype => ?_
  have hbody := of_decide_eq_true (mem_filter.1 htype).2
  unfold blobOf
  unfold requestBodies at hbody ⊢
  split at hbody
  · next hmem => rw [if_pos hmem]
  · exact absurd rfl hbody

theorem Accepted.fits (h : Accepted build p r) : (contents build r).Fits where
  txs := h.transactions
  envelopes := fun tx htx => Nat.lt_of_le_of_lt (h.envelopes tx htx) (by decide)
  withdrawals := h.withdrawals
  bodies := by
    intro type
    unfold contents requestBodies
    dsimp only
    split
    · exact r.done.outputSize type
    · exact Nat.pow_pos (by decide)
  blockAccessListRlp := by
    unfold contents blockAccessListRlp
    dsimp only
    split
    · exact r.done.blockAccessListSize
    · exact Nat.pow_pos (by decide)

theorem Accepted.root (h : Accepted build p r) : (contents build r).root p.sha256 = .ok r.published.out := by
  have hout := h.out
  rwa [collectRequests_eq_blobs] at hout

-- The schedule starts at Cancun; before it the fork is unknown and counts as Prague.
theorem forkParamsAt_cases (chain : Chain) (timestamp : UInt64) :
    (forkParamsAt chain timestamp).fork ∈ [ForkId.Unknown, .Cancun, .Prague, .Osaka, .Amsterdam] := by
  have hrows : ∀ row ∈ kForkSchedule chain, row.params.fork ∈ [ForkId.Cancun, .Prague, .Osaka, .Amsterdam] := by
    cases chain <;> decide
  unfold forkParamsAt
  cases hfind : (kForkSchedule chain).find? fun row => row.activation ≤ timestamp with
  | none => exact .head _
  | some row => exact .tail _ (hrows row (mem_of_find?_eq_some hfind))

theorem Accepted.transactions_eq (h : Accepted build p r) (h' : Accepted build p r')
    (henvelopes : r.lead.transactions.map View.envelope = r'.lead.transactions.map View.envelope) :
    r.lead.transactions = r'.lead.transactions := by
  refine Merkle.eq_of_map_eq (fun tx htx tx' htx' heq => ?_) henvelopes
  have hread := h.read tx htx
  rw [heq, h'.read tx' htx'] at hread
  exact (Except.ok.inj hread).symm

end

def withdrawalStrings (w : Withdrawal) : List Bytes :=
  [Rlp.beBytes w.index.toNat, Rlp.beBytes w.validatorIndex.toNat, w.address.toList, Rlp.beBytes w.amountGwei.toNat]

theorem withdrawalRecord_eq (w : Withdrawal) :
    withdrawalRecord w = Rlp.encode (.Lst ((withdrawalStrings w).map .Str)) ∧ (withdrawalRecord w).length ≤ 200 := by
  have hstrings : ∀ s ∈ withdrawalStrings w, s.length ≤ 32 := by
    have hindex := length_beBytes_u64 w.index
    have hvalidator := length_beBytes_u64 w.validatorIndex
    have hamount := length_beBytes_u64 w.amountGwei
    simp only [withdrawalStrings, mem_cons, not_mem_nil, or_false, forall_eq_or_imp, forall_eq,
      List.Vector.toList_length]
    omega
  have hcount : (withdrawalStrings w).length = 4 := rfl
  have hsize := length_strings_le (by omega) hstrings
  have hlist := encodeList_strings (by omega) fun s hs => Nat.lt_of_le_of_lt (hstrings s hs) (by decide)
  have hencode : withdrawalRecord w = Rlp.encode (.Lst ((withdrawalStrings w).map .Str)) := hlist
  exact ⟨hencode, by rw [hencode]; omega⟩

theorem withdrawalRecord_injective {w w' : Withdrawal} (h : withdrawalRecord w = withdrawalRecord w') : w = w' := by
  obtain ⟨hencode, hlen⟩ := withdrawalRecord_eq w
  rw [hencode] at hlen
  rw [hencode, (withdrawalRecord_eq w').1] at h
  have hstrings := map_injective_iff.2 (fun _ _ h => Rlp.Item.Str.inj h)
    (Rlp.Item.Lst.inj (Rlp.encode_injective (Nat.lt_of_le_of_lt hlen (by decide)) h))
  simp only [withdrawalStrings, List.cons.injEq, and_true] at hstrings
  obtain ⟨hindex, hvalidator, haddress, hamount⟩ := hstrings
  exact Withdrawal.ext (beBytes_u64_injective hindex) (beBytes_u64_injective hvalidator) (List.Vector.eq _ _ haddress)
    (beBytes_u64_injective hamount)

theorem digests_injective {digests digests' : List Bytes32}
    (h : digests.flatMap List.Vector.toList = digests'.flatMap List.Vector.toList) : digests = digests' := by
  induction digests generalizing digests' with
  | nil =>
    cases digests' with
    | nil => rfl
    | cons d' digests' =>
      have hlen := congrArg List.length h
      rw [flatMap_nil, flatMap_cons, length_append, List.Vector.toList_length, length_nil] at hlen
      omega
  | cons d digests ih =>
    cases digests' with
    | nil =>
      have hlen := congrArg List.length h
      rw [flatMap_nil, flatMap_cons, length_append, List.Vector.toList_length, length_nil] at hlen
      omega
    | cons d' digests' =>
      rw [flatMap_cons, flatMap_cons] at h
      obtain ⟨hfirst, hrest⟩ := append_inj h (by simp)
      rw [List.Vector.eq _ _ hfirst, ih hrest]

theorem not_prague {fork : ForkId} (hcancun : 20 ≤ forkFieldCount fork) (hcount : forkFieldCount fork < 21) :
    (forkToRevision fork).atLeast .Prague = false := by
  cases fork <;> revert hcancun hcount <;> decide

theorem not_amsterdam {fork : ForkId} (hcount : forkFieldCount fork < 23) : fork.atLeast .Amsterdam = false := by
  cases fork <;> revert hcount <;> decide

section

variable {build : Build} {p : Platform} {r : Completed}

-- What a header of an earlier fork does not hold is a constant.
theorem Accepted.requestsHash_nil (h : Accepted build p r) (hcancun : 20 ≤ forkFieldCount r.header.forkId)
    (hcount : forkFieldCount r.header.forkId < 21) :
    collectRequests build r.lead.consensus r.done = [] ∧ r.header.requestsHash = requestsHash p [] := by
  have hrevision := not_prague hcancun hcount
  rw [h.header] at hrevision ⊢
  have htypes : requestTypes build r.lead.consensus = [] := if_neg (Bool.eq_false_iff.1 hrevision)
  have hrequests : collectRequests build r.lead.consensus r.done = [] := by
    rw [collectRequests, htypes]
    rfl
  exact ⟨hrequests, congrArg (requestsHash p) hrequests⟩

theorem Accepted.blockAccessListHash_zero (h : Accepted build p r) (hcount : forkFieldCount r.header.forkId < 23) :
    r.header.blockAccessListHash = digestOf 0 ∧ r.header.slotNumber = 0 := by
  have hfork := not_amsterdam hcount
  rw [h.header] at hfork ⊢
  exact ⟨if_neg (Bool.eq_false_iff.1 hfork), if_neg (Bool.eq_false_iff.1 hfork)⟩

end

section

variable {chain : Chain} {p : Platform} {r r' : Completed} (h : Accepted ⟨chain, false⟩ p r)
  (h' : Accepted ⟨chain, false⟩ p r')
  (hkeccak : Set.InjOn p.keccak (keccakInputs ⟨chain, false⟩ p r ∪ keccakInputs ⟨chain, false⟩ p r'))
  (hsha256 : Set.InjOn p.sha256 { s | s ∈ sha256Inputs ⟨chain, false⟩ p r ++ sha256Inputs ⟨chain, false⟩ p r' })

include h h' hkeccak

-- One block hash, one header: what a header of its fork leaves out is the same in all of them.
theorem header_eq (hhash : r.published.blockHash = r'.published.blockHash) : r.header = r'.header := by
  have hfork : r.header.forkId = (forkParamsAt chain r.header.timestamp).fork := by rw [h.header]; rfl
  have hfork' : r'.header.forkId = (forkParamsAt chain r'.header.timestamp).fork := by rw [h'.header]; rfl
  rw [h.blockHash, h'.blockHash] at hhash
  have hencode := hkeccak (.inl (.inl (.inl rfl))) (.inr (.inl (.inl rfl))) hhash
  have hscheduled := forkParamsAt_cases chain r.header.timestamp
  rw [← hfork] at hscheduled
  have hcancun : 20 ≤ forkFieldCount r.header.forkId := by
    have hcounts : ∀ fork ∈ [ForkId.Unknown, .Cancun, .Prague, .Osaka, .Amsterdam], 20 ≤ forkFieldCount fork := by decide
    exact hcounts _ hscheduled
  refine eq_of_encoding ?_ ?_ hencode ?_ hcancun ?_ ?_
  · rw [h.header]
    exact h.extraData
  · rw [h'.header]
    exact h'.extraData
  · intro htime
    rw [hfork, hfork', htime]
  · intro hsame hcount
    rw [(h.requestsHash_nil hcancun hcount).2, (h'.requestsHash_nil (hsame ▸ hcancun) (hsame ▸ hcount)).2]
  · intro hsame hcount
    obtain ⟨hlist, hslot⟩ := h.blockAccessListHash_zero hcount
    obtain ⟨hlist', hslot'⟩ := h'.blockAccessListHash_zero (hsame ▸ hcount)
    exact ⟨hlist.trans hlist'.symm, hslot.trans hslot'.symm⟩

theorem transactions_eq_of_header (hheader : r.header = r'.header) : r.lead.transactions = r'.lead.transactions := by
  have hroot : transactionsRoot p r.lead.transactions = transactionsRoot p r'.lead.transactions := by
    have hfield := congrArg BlockHeader.transactionsRoot hheader
    rwa [h.header, h'.header] at hfield
  have hsizes {s : Completed} (hs : Accepted ⟨chain, false⟩ p s) :
      ∀ value ∈ s.lead.transactions.map View.envelope, value.length ≤ 2 ^ 64 - 400 := by
    intro value hvalue
    obtain ⟨tx, htx, rfl⟩ := mem_map.1 hvalue
    exact hs.envelopes tx htx
  refine h.transactions_eq h' (Mpt.rootHash_binding ?_ ?_ hkeccak (by decide) (hsizes h) (hsizes h') ?_ ?_ hroot)
  · rw [length_map]
    exact Nat.le_of_lt h.transactions
  · rw [length_map]
    exact Nat.le_of_lt h'.transactions
  · exact fun s hs => .inl (.inl (.inr (.inl hs)))
  · exact fun s hs => .inr (.inl (.inr (.inl hs)))

theorem withdrawals_eq_of_header (hheader : r.header = r'.header) :
    r.lead.consensus.withdrawals = r'.lead.consensus.withdrawals := by
  have hroot : withdrawalsRoot p r.lead.consensus.withdrawals = withdrawalsRoot p r'.lead.consensus.withdrawals := by
    have hfield := congrArg BlockHeader.withdrawalsRoot hheader
    rwa [h.header, h'.header] at hfield
  have hsizes (withdrawals : List Withdrawal) : ∀ value ∈ withdrawals.map withdrawalRecord, value.length ≤ 200 := by
    intro value hvalue
    obtain ⟨w, -, rfl⟩ := mem_map.1 hvalue
    exact (withdrawalRecord_eq w).2
  refine Merkle.eq_of_map_eq (fun w _ w' _ => withdrawalRecord_injective)
    (Mpt.rootHash_binding ?_ ?_ hkeccak (by decide) (hsizes _) (hsizes _) ?_ ?_ hroot)
  · rw [length_map]
    exact Nat.le_of_lt h.withdrawals
  · rw [length_map]
    exact Nat.le_of_lt h'.withdrawals
  · exact fun s hs => .inl (.inl (.inr (.inr hs)))
  · exact fun s hs => .inr (.inl (.inr (.inr hs)))

omit hkeccak in
theorem forkId_eq_of_header (hheader : r.header = r'.header) :
    r.lead.consensus.forkId ⟨chain, false⟩ = r'.lead.consensus.forkId ⟨chain, false⟩ := by
  have hfield := congrArg BlockHeader.forkId hheader
  rwa [h.header, h'.header] at hfield

theorem accessList_eq_of_header (hheader : r.header = r'.header) :
    blockAccessListRlp ⟨chain, false⟩ r.lead.consensus r.done =
      blockAccessListRlp ⟨chain, false⟩ r'.lead.consensus r'.done := by
  have hfork := forkId_eq_of_header h h' hheader
  have hhash : blockAccessListHash ⟨chain, false⟩ p r.lead.consensus r.done =
      blockAccessListHash ⟨chain, false⟩ p r'.lead.consensus r'.done := by
    have hfield := congrArg BlockHeader.blockAccessListHash hheader
    rwa [h.header, h'.header] at hfield
  unfold blockAccessListHash at hhash
  unfold blockAccessListRlp
  rw [← hfork] at hhash ⊢
  split
  · next hamsterdam =>
    rw [if_pos hamsterdam, if_pos hamsterdam] at hhash
    exact hkeccak (.inl (.inr ⟨hamsterdam, rfl⟩)) (.inr (.inr ⟨hfork ▸ hamsterdam, rfl⟩)) hhash
  · rfl

end

section

variable {build : Build} {p : Platform} {r r' : Completed}
  (hsha256 : Set.InjOn p.sha256 { s | s ∈ sha256Inputs build p r ++ sha256Inputs build p r' })

include hsha256

theorem requests_eq_of_hash
    (hhash : requestsHash p (collectRequests build r.lead.consensus r.done) =
      requestsHash p (collectRequests build r'.lead.consensus r'.done)) :
    collectRequests build r.lead.consensus r.done = collectRequests build r'.lead.consensus r'.done := by
  have hdigests := hsha256 (mem_append_left _ (.head _)) (mem_append_right _ (.head _)) hhash
  have hflat (requests : List Bytes) : (requests.flatMap fun request => (p.sha256 request).toList) =
      (requests.map p.sha256).flatMap List.Vector.toList := by rw [flatMap_map]
  rw [hflat, hflat] at hdigests
  refine Merkle.eq_of_map_eq (fun request hrequest request' hrequest' heq => ?_) (digests_injective hdigests)
  exact hsha256 (mem_append_left _ (mem_append_left _ (.tail _ hrequest)))
    (mem_append_right _ (mem_append_left _ (.tail _ hrequest'))) heq

theorem injOn_pairs :
    Set.InjOn (Function.uncurry (Ssz.hash p.sha256))
      { pair | pair ∈ ((contents build r).tree p.sha256).pairs (Ssz.hash p.sha256) ++
        ((contents build r').tree p.sha256).pairs (Ssz.hash p.sha256) } := by
  have hmem {pair : Ssz.Chunk × Ssz.Chunk}
      (hpair : pair ∈ ((contents build r).tree p.sha256).pairs (Ssz.hash p.sha256) ++
        ((contents build r').tree p.sha256).pairs (Ssz.hash p.sha256)) :
      pair.1.toList ++ pair.2.toList ∈ sha256Inputs build p r ++ sha256Inputs build p r' := by
    obtain hpair | hpair := mem_append.1 hpair
    · exact mem_append_left _ (mem_append_right _ (mem_map_of_mem hpair))
    · exact mem_append_right _ (mem_append_right _ (mem_map_of_mem hpair))
  intro pair hpair pair' hpair' heq
  obtain ⟨hleft, hright⟩ := append_inj (hsha256 (hmem hpair) (hmem hpair') heq) (by simp)
  exact Prod.ext (List.Vector.eq _ _ hleft) (List.Vector.eq _ _ hright)

end

-- Where the two hashes do not collide on what the runs hash, the published root is a function of the
-- block hash, and it commits to the block.
theorem output_determines_block (chain : Chain) (p : Platform) (x x' : Input) (r r' : Completed)
    (h : runBlock ⟨chain, false⟩ p x = .ok r) (h' : runBlock ⟨chain, false⟩ p x' = .ok r')
    (hkeccak : Set.InjOn p.keccak (keccakInputs ⟨chain, false⟩ p r ∪ keccakInputs ⟨chain, false⟩ p r'))
    (hsha256 : Set.InjOn p.sha256 { s | s ∈ sha256Inputs ⟨chain, false⟩ p r ++ sha256Inputs ⟨chain, false⟩ p r' }) :
    (r.published.blockHash = r'.published.blockHash → r.published.out = r'.published.out) ∧
      (r.published.out = r'.published.out →
        r.published.blockHash = r'.published.blockHash ∧
        r.lead.transactions = r'.lead.transactions ∧
        r.lead.consensus.withdrawals = r'.lead.consensus.withdrawals ∧
        collectRequests ⟨chain, false⟩ r.lead.consensus r.done =
          collectRequests ⟨chain, false⟩ r'.lead.consensus r'.done ∧
        ((r.lead.consensus.forkId ⟨chain, false⟩).atLeast .Amsterdam = true →
          r.done.blockAccessListRlp = r'.done.blockAccessListRlp)) := by
  have hr := accepted_of_runBlock h
  have hr' := accepted_of_runBlock h'
  constructor
  · intro hhash
    have hheader := header_eq hr hr' hkeccak hhash
    have hrequests : collectRequests ⟨chain, false⟩ r.lead.consensus r.done =
        collectRequests ⟨chain, false⟩ r'.lead.consensus r'.done := by
      apply requests_eq_of_hash hsha256
      have hfield := congrArg BlockHeader.requestsHash hheader
      rwa [hr.header, hr'.header] at hfield
    have hout := hr.out
    rw [hheader, hhash, transactions_eq_of_header hr hr' hkeccak hheader,
      withdrawals_eq_of_header hr hr' hkeccak hheader, hrequests, accessList_eq_of_header hr hr' hkeccak hheader,
      hr'.out] at hout
    exact (Except.ok.inj hout).symm
  · intro hout
    obtain ⟨hhash, henvelopes, hwithdrawals, hbodies, hlist⟩ := Contents.root_binding (injOn_pairs hsha256) hr.fits hr'.fits
      (List.subset_append_left _ _) (List.subset_append_right _ _) hr.root (hout ▸ hr'.root)
    have hheader := header_eq hr hr' hkeccak hhash
    refine ⟨hhash, hr.transactions_eq hr' henvelopes, hwithdrawals, ?_, fun hamsterdam => ?_⟩
    · rw [collectRequests_eq_blobs, collectRequests_eq_blobs]
      exact congrArg blobs hbodies
    · have hamsterdam' : (r'.lead.consensus.forkId ⟨chain, false⟩).atLeast .Amsterdam = true :=
        forkId_eq_of_header hr hr' hheader ▸ hamsterdam
      have hlist : blockAccessListRlp _ _ _ = blockAccessListRlp _ _ _ := hlist
      rwa [blockAccessListRlp, blockAccessListRlp, if_pos hamsterdam, if_pos hamsterdam'] at hlist

-- One block behind two hash seeds, with digests that tell apart the strings of such a run.

def remainderDigest (bytes : Bytes) : Bytes32 :=
  digestOf ((Rlp.readBe bytes + bytes.length + 1) * (2 ^ 200 + 235) % (2 ^ 256 - 189))

def apartPlatform : Platform := { quietPlatform with sha256 := remainderDigest }

def seededActivation (seed : UInt8) : Bytes := (activationBytes (parentRecord 20)).set 8 seed

def firstSeed : Input := ⟨seededActivation 1, by decide +kernel⟩

def secondSeed : Input := ⟨seededActivation 2, by decide +kernel⟩

def apart (hash : Bytes → Bytes32) (strings : List Bytes) : Bool :=
  strings.all fun s => strings.all fun t => hash s != hash t || s == t

theorem injOn_of_apart {hash : Bytes → Bytes32} {strings : List Bytes} (h : apart hash strings = true) :
    Set.InjOn hash { s | s ∈ strings } := by
  intro s hs t ht heq
  simpa [heq] using all_eq_true.1 (all_eq_true.1 h s hs) t ht

def isQuiet (r : Completed) : Bool :=
  r.lead.transactions == [] && r.lead.consensus.withdrawals == [] &&
    !(r.lead.consensus.forkId mainnet).atLeast .Amsterdam

theorem keccakInputs_quiet {r : Completed} (h : isQuiet r = true) :
    keccakInputs mainnet apartPlatform r ⊆ { s | s ∈ [encodeBlockHeaderRlp r.header, [0x80]] } := by
  simp only [isQuiet, Bool.and_eq_true, beq_iff_eq, Bool.not_eq_true'] at h
  obtain ⟨⟨htransactions, hwithdrawals⟩, hfork⟩ := h
  have htrie : (Mpt.indexTrie []).strings apartPlatform.keccak = {[0x80]} := by
    simp [Mpt.indexTrie, Mpt.indexEntries, Mpt.indexed, Mpt.sortEntries, Mpt.trieOf, Patricia.Trie.strings,
      Patricia.Trie.encoding, Patricia.Trie.item, Rlp.encode, Rlp.encodeStr, Rlp.header]
  rw [keccakInputs, htransactions, hwithdrawals, map_nil, map_nil, htrie, hfork]
  rintro s ((rfl | rfl | rfl) | ⟨hfalse, -⟩)
  · exact .head _
  · exact .tail _ (.head _)
  · exact .tail _ (.head _)
  · cases hfalse

def sameQuietBlock (r r' : Completed) : Bool :=
  isQuiet r && isQuiet r' && r.header == r'.header && r.published == r'.published &&
    sha256Inputs mainnet apartPlatform r == sha256Inputs mainnet apartPlatform r' &&
    apart apartPlatform.keccak [encodeBlockHeaderRlp r.header, [0x80]] &&
    apart apartPlatform.sha256 (sha256Inputs mainnet apartPlatform r)

def bothSeeds (check : Completed → Completed → Bool) : Bool :=
  match runBlock mainnet apartPlatform firstSeed, runBlock mainnet apartPlatform secondSeed with
  | .ok r, .ok r' => check r r'
  | _, _ => false

theorem output_determines_block_reseeded :
    firstSeed ≠ secondSeed ∧ ∃ r r', runBlock mainnet apartPlatform firstSeed = .ok r ∧
      runBlock mainnet apartPlatform secondSeed = .ok r' ∧ r.published.out = r'.published.out ∧
      r.lead.transactions = r'.lead.transactions := by
  have hsame : bothSeeds sameQuietBlock = true := by decide +kernel
  refine ⟨by decide +kernel, ?_⟩
  unfold bothSeeds at hsame
  split at hsame
  · next r r' hr hr' =>
      simp only [sameQuietBlock, Bool.and_eq_true, beq_iff_eq] at hsame
      obtain ⟨⟨⟨⟨⟨⟨hquiet, hquiet'⟩, hheader⟩, hpublished⟩, hinputs⟩, hkeccak⟩, hsha256⟩ := hsame
      have hblock := output_determines_block .Mainnet apartPlatform firstSeed secondSeed r r' hr hr'
        ((injOn_of_apart hkeccak).mono (Set.union_subset (keccakInputs_quiet hquiet)
          (hheader ▸ keccakInputs_quiet hquiet')))
        ((injOn_of_apart hsha256).mono fun s hs => (List.mem_append.1 hs).elim id fun hs => hinputs ▸ hs)
      have hout := hblock.1 (congrArg Published.blockHash hpublished)
      exact ⟨r, r', hr, hr', hout, (hblock.2 hout).2.1⟩
  · cases hsame

end Zeg.Run
