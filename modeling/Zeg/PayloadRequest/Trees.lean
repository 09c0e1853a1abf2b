import Zeg.PayloadRequest
import Zeg.Ssz.Trees

-- The request's root as the root of one tree, and what that tree commits to.
namespace Zeg.PayloadRequest

open Base Base.Merkle Zeg.Stream Ssz Header Consensus List
open Transactions (View)

def lengthMark (n : Nat) : Chunk := uint64Root (UInt64.ofNat n)

def fieldsMark (n : Nat) : Chunk := bytesAt 32 (leBytes 32 (2 ^ n - 1)) 0

def leaves (chunks : List Chunk) : List (HashTree Chunk) := chunks.map .Leaf

def bytesTree (bytes : Bytes) : HashTree Chunk := marked zeroChunk (lengthMark bytes.length) (leaves (pack bytes))

def listTree (ts : List (HashTree Chunk)) : HashTree Chunk := marked zeroChunk (lengthMark ts.length) ts

def containerTree (ts : List (HashTree Chunk)) : HashTree Chunk := marked zeroChunk (fieldsMark ts.length) ts

def recordTree (ts : List (HashTree Chunk)) : HashTree Chunk := perfect zeroChunk (depthFor ts.length) ts

def withdrawalFields (w : Withdrawal) : List Chunk :=
  [uint64Root w.index, uint64Root w.validatorIndex, addressRoot w.address, uint64Root w.amountGwei]

def withdrawalTree (w : Withdrawal) : HashTree Chunk := recordTree (leaves (withdrawalFields w))

def fieldTrees : List Nat → Bytes → List (HashTree Chunk)
  | [], _ => []
  | width :: widths, record => recordTree (leaves (pack (record.take width))) :: fieldTrees widths (record.drop width)

def requestTrees (widths : List Nat) : Nat → Bytes → List (HashTree Chunk)
  | 0, _ => []
  | n + 1, body => recordTree (fieldTrees widths body) :: requestTrees widths n (body.drop widths.sum)

-- The list of one request type. A type without a blob has an empty body.
def requestListTree (widths : List Nat) (body : Bytes) : HashTree Chunk :=
  listTree (requestTrees widths (body.length / widths.sum) body)

def widthsOf (type : Fin 5) : List Nat := kRequestTypes.get type

def requestsTree (bodies : Fin 5 → Bytes) : HashTree Chunk :=
  containerTree (List.ofFn fun type => requestListTree (widthsOf type) (bodies type))

def blobOf (bodies : Fin 5 → Bytes) (type : Fin 5) : Bytes := UInt8.ofNat type.val :: bodies type

def blobs (bodies : Fin 5 → Bytes) : List Bytes :=
  ((List.finRange 5).filter fun type => bodies type ≠ []).map (blobOf bodies)

-- What a request is made of. The bodies of its blobs stand for the blobs.
structure Contents where
  header : BlockHeader
  blockHash : Bytes32
  txs : List View
  withdrawals : List Withdrawal
  bodies : Fin 5 → Bytes
  blockAccessListRlp : Bytes

structure Contents.Fits (c : Contents) : Prop where
  txs : c.txs.length < 2 ^ 64
  envelopes : ∀ tx ∈ c.txs, tx.envelope.length < 2 ^ 64
  withdrawals : c.withdrawals.length < 2 ^ 64
  bodies : ∀ type, (c.bodies type).length < 2 ^ 64
  blockAccessListRlp : c.blockAccessListRlp.length < 2 ^ 64

section

variable (sha256 : Bytes → Bytes32)

def leafOf (root : Except String Chunk) : HashTree Chunk := .Leaf (root.toOption.getD zeroChunk)

def Contents.payloadParts (c : Contents) : List (HashTree Chunk) :=
  let h := c.header
  [.Leaf h.parentHash, .Leaf (addressRoot h.coinbase), .Leaf h.stateRoot, .Leaf h.receiptsRoot,
   leafOf (byteVectorRoot sha256 h.logsBloom.toList), .Leaf h.prevRandao, .Leaf (uint64Root h.number),
   .Leaf (uint64Root h.gasLimit), .Leaf (uint64Root h.gasUsed), .Leaf (uint64Root h.timestamp),
   leafOf (byteListRoot sha256 h.extraData kMaxExtraDataBytes), .Leaf (uint256Root h.baseFeePerGas),
   .Leaf c.blockHash, listTree (c.txs.map fun tx => bytesTree tx.envelope), listTree (c.withdrawals.map withdrawalTree),
   .Leaf (uint64Root h.blobGasUsed), .Leaf (uint64Root h.excessBlobGas), bytesTree c.blockAccessListRlp,
   .Leaf (uint64Root h.slotNumber)]

def Contents.parts (c : Contents) : List (HashTree Chunk) :=
  [containerTree (c.payloadParts sha256), leafOf (versionedHashesRoot sha256 c.txs),
   .Leaf c.header.parentBeaconBlockRoot, requestsTree c.bodies]

def Contents.tree (c : Contents) : HashTree Chunk := containerTree (c.parts sha256)

def Contents.root (c : Contents) : Except String Bytes32 :=
  newPayloadRequestRoot sha256 c.header c.blockHash c.txs c.withdrawals (blobs c.bodies) c.blockAccessListRlp

theorem leaves_roots (chunks : List Chunk) : (leaves chunks).map (HashTree.root (hash sha256)) = chunks := by
  rw [leaves, map_map]
  exact map_id chunks

theorem length_leaves (chunks : List Chunk) : (leaves chunks).length = chunks.length := length_map _

theorem chunkCount_le (n : Nat) : chunkCount n ≤ n := by
  unfold chunkCount
  omega

variable {ts : List (HashTree Chunk)}

theorem containerRoot_eq :
    containerRoot sha256 (ts.map (HashTree.root (hash sha256))) = .ok ((recordTree ts).root (hash sha256)) := by
  rw [containerRoot, merkleize_eq sha256 (by rw [length_map]), length_map]
  rfl

theorem byteVectorRoot_eq (bytes : Bytes) :
    byteVectorRoot sha256 bytes = .ok ((recordTree (leaves (pack bytes))).root (hash sha256)) := by
  have h := @containerRoot_eq sha256 (leaves (pack bytes))
  rwa [leaves_roots] at h

theorem progressiveByteListRoot_eq {bytes : Bytes} (h : bytes.length < 2 ^ 64) :
    progressiveByteListRoot sha256 bytes = .ok ((bytesTree bytes).root (hash sha256)) := by
  have hlen : (leaves (pack bytes)).length < 2 ^ 64 := by
    rw [length_leaves, length_pack]
    exact Nat.lt_of_le_of_lt (chunkCount_le _) h
  have hroot := merkleizeProgressive_eq sha256 hlen
  rw [leaves_roots] at hroot
  rw [progressiveByteListRoot, hroot]
  rfl

theorem progressiveListRoot_eq (h : ts.length < 2 ^ 64) :
    progressiveListRoot sha256 (ts.map (HashTree.root (hash sha256))) = .ok ((listTree ts).root (hash sha256)) := by
  rw [progressiveListRoot, merkleizeProgressive_eq sha256 h, length_map]
  rfl

theorem progressiveContainerRoot_eq (hpos : 0 < ts.length) (h : ts.length ≤ 256) :
    progressiveContainerRoot sha256 (ts.map (HashTree.root (hash sha256))) =
      .ok ((containerTree ts).root (hash sha256)) := by
  have hroot := merkleizeProgressive_eq sha256 (Nat.lt_of_le_of_lt h (by decide))
  rw [progressiveContainerRoot, hroot, length_map]
  exact if_neg (by omega)

theorem transactionsRoot_eq {txs : List View} (hlen : txs.length < 2 ^ 64)
    (h : ∀ tx ∈ txs, tx.envelope.length < 2 ^ 64) :
    transactionsRoot sha256 txs =
      .ok ((listTree (txs.map fun tx => bytesTree tx.envelope)).root (hash sha256)) := by
  rw [transactionsRoot, mapM_eq_ok_map fun tx htx => progressiveByteListRoot_eq sha256 (h tx htx)]
  have hroot := @progressiveListRoot_eq sha256 (txs.map fun tx => bytesTree tx.envelope) (by rwa [length_map])
  rwa [map_map] at hroot

theorem withdrawalRoot_eq (w : Withdrawal) :
    withdrawalRoot sha256 w = .ok ((withdrawalTree w).root (hash sha256)) := by
  have h := @containerRoot_eq sha256 (leaves (withdrawalFields w))
  rwa [leaves_roots] at h

theorem withdrawalsRoot_eq {withdrawals : List Withdrawal} (hlen : withdrawals.length < 2 ^ 64) :
    withdrawalsRoot sha256 withdrawals = .ok ((listTree (withdrawals.map withdrawalTree)).root (hash sha256)) := by
  rw [withdrawalsRoot, mapM_eq_ok_map fun w _ => withdrawalRoot_eq sha256 w]
  have hroot := @progressiveListRoot_eq sha256 (withdrawals.map withdrawalTree) (by rwa [length_map])
  rwa [map_map] at hroot

theorem fieldRoots_eq (widths : List Nat) (record : Bytes) :
    fieldRoots sha256 widths record = .ok ((fieldTrees widths record).map (HashTree.root (hash sha256))) := by
  induction widths generalizing record with
  | nil => rfl
  | cons width widths ih =>
    rw [fieldRoots, byteVectorRoot_eq, ih]
    rfl

theorem recordRoots_eq (widths : List Nat) (n : Nat) (body : Bytes) :
    recordRoots sha256 widths n body = .ok ((requestTrees widths n body).map (HashTree.root (hash sha256))) := by
  induction n generalizing body with
  | zero => rfl
  | succ n ih =>
    have hroot : requestRoot sha256 widths body = .ok ((recordTree (fieldTrees widths body)).root (hash sha256)) := by
      rw [requestRoot, fieldRoots_eq]
      exact containerRoot_eq sha256
    rw [recordRoots, hroot, ih]
    rfl

theorem length_fieldTrees (widths : List Nat) (record : Bytes) : (fieldTrees widths record).length = widths.length := by
  induction widths generalizing record with
  | nil => rfl
  | cons width widths ih => rw [fieldTrees, length_cons, ih, length_cons]

theorem length_requestTrees (widths : List Nat) (n : Nat) (body : Bytes) : (requestTrees widths n body).length = n := by
  induction n generalizing body with
  | zero => rfl
  | succ n ih => rw [requestTrees, length_cons, ih]

variable {bodies : Fin 5 → Bytes} {root : Chunk}

theorem requestList_ok {last : Nat} {type : Fin 5} {kind : Nat} (hsize : (bodies type).length < 2 ^ 64)
    (h : requestList sha256 last (blobOf bodies type) = .ok (kind, root)) :
    kind = type.val ∧ root = (requestListTree (widthsOf type) (bodies type)).root (hash sha256) ∧
      (bodies type).length % (widthsOf type).sum = 0 := by
  have hkind : (UInt8.ofNat type.val).toNat = type.val := by
    rw [UInt8.toNat_ofNat']
    exact Nat.mod_eq_of_lt (Nat.lt_trans type.isLt (by decide))
  have hwidths : kRequestTypes[(UInt8.ofNat type.val).toNat]? = some (widthsOf type) := by
    rw [hkind]
    exact List.getElem?_eq_getElem type.isLt
  have hcount : (requestTrees (widthsOf type) ((bodies type).length / (widthsOf type).sum) (bodies type)).length <
      2 ^ 64 := by
    rw [length_requestTrees]
    exact Nat.lt_of_le_of_lt (Nat.div_le_self _ _) hsize
  rw [blobOf, requestList] at h
  simp only [hwidths] at h
  rw [recordRoots_eq] at h
  split at h
  · cases h
  · split at h
    · cases h
    · next hbody =>
      simp only [bind, Except.bind, progressiveListRoot_eq sha256 hcount] at h
      cases h
      exact ⟨hkind, rfl, not_not.1 fun hmod => hbody (.inr hmod)⟩

theorem requestLists_ok (hsize : ∀ type, (bodies type).length < 2 ^ 64) {types : List (Fin 5)} {last : Nat}
    {lists lists' : List Chunk} (hlen : lists.length = 5)
    (h : requestLists sha256 (types.map (blobOf bodies)) last lists = .ok lists') :
    lists'.length = 5 ∧ (∀ type ∈ types, (bodies type).length % (widthsOf type).sum = 0) ∧
      ∀ type : Fin 5, lists'[type.val]? = if type ∈ types then
        some ((requestListTree (widthsOf type) (bodies type)).root (hash sha256)) else lists[type.val]? := by
  induction types generalizing last lists with
  | nil =>
    cases h
    exact ⟨hlen, nofun, fun _ => rfl⟩
  | cons first types ih =>
    rw [map_cons, requestLists] at h
    obtain ⟨⟨kind, root⟩, hlist, hrest⟩ := bind_eq_ok.1 h
    obtain ⟨rfl, rfl, hmod⟩ := requestList_ok sha256 (hsize first) hlist
    obtain ⟨hlen', hmods, hget⟩ := ih (by rw [length_set, hlen]) hrest
    refine ⟨hlen', forall_mem_cons.2 ⟨hmod, hmods⟩, fun type => ?_⟩
    rw [hget type]
    by_cases htypes : type ∈ types
    · rw [if_pos htypes, if_pos (mem_cons_of_mem first htypes)]
    · by_cases hfirst : type = first
      · subst hfirst
        rw [if_neg htypes, if_pos mem_cons_self, List.getElem?_set_self (by rw [hlen]; exact type.isLt)]
      · rw [if_neg htypes, if_neg (by simp [hfirst, htypes]),
          List.getElem?_set_ne fun heq => hfirst (Fin.ext heq.symm)]

theorem executionRequestsRoot_ok (hsize : ∀ type, (bodies type).length < 2 ^ 64)
    (h : executionRequestsRoot sha256 (blobs bodies) = .ok root) :
    root = (requestsTree bodies).root (hash sha256) ∧
      ∀ type, (bodies type).length % (widthsOf type).sum = 0 := by
  have hempty := @progressiveListRoot_eq sha256 [] (by decide)
  rw [executionRequestsRoot, ← @List.map_nil _ _ (HashTree.root (hash sha256)), hempty] at h
  obtain ⟨_, hok, h⟩ := bind_eq_ok.1 h
  obtain rfl := Except.ok.inj hok
  obtain ⟨lists, hlists, hroot⟩ := bind_eq_ok.1 h
  obtain ⟨hlen, hmods, hget⟩ := requestLists_ok sha256 hsize length_replicate hlists
  have hbody : ∀ type, type ∉ (List.finRange 5).filter (fun type => bodies type ≠ []) → bodies type = [] := by
    intro type hnot
    simpa using hnot
  have hall : lists = (List.ofFn fun type => requestListTree (widthsOf type) (bodies type)).map
      (HashTree.root (hash sha256)) := by
    apply ext_getElem (by rw [hlen, length_map, length_ofFn])
    intro i hi _
    have hplace := hget ⟨i, hlen ▸ hi⟩
    rw [List.getElem?_eq_getElem hi] at hplace
    rw [List.getElem_map, List.getElem_ofFn]
    split at hplace
    · exact Option.some.inj hplace
    · next hnot =>
      rw [List.getElem?_replicate, if_pos (show i < 5 from hlen ▸ hi)] at hplace
      rw [Option.some.inj hplace, hbody _ hnot, requestListTree, length_nil, Nat.zero_div]
      rfl
  rw [hall, progressiveContainerRoot_eq sha256 (by simp) (by simp)] at hroot
  refine ⟨(Except.ok.inj hroot).symm, fun type => ?_⟩
  by_cases hmem : type ∈ (List.finRange 5).filter fun type => bodies type ≠ []
  · exact hmods type hmem
  · rw [hbody type hmem, length_nil, Nat.zero_mod]

theorem leafOf_root {root : Except String Chunk} {chunk : Chunk} (h : root = .ok chunk) :
    (leafOf root).root (hash sha256) = chunk := by
  rw [h]
  rfl

theorem Contents.executionPayloadRoot_ok {c : Contents} (hfits : c.Fits)
    (h : executionPayloadRoot sha256 c.header c.blockHash c.txs c.withdrawals c.blockAccessListRlp = .ok root) :
    root = (containerTree (c.payloadParts sha256)).root (hash sha256) := by
  rw [executionPayloadRoot, transactionsRoot_eq sha256 hfits.txs hfits.envelopes,
    withdrawalsRoot_eq sha256 hfits.withdrawals, progressiveByteListRoot_eq sha256 hfits.blockAccessListRlp] at h
  obtain ⟨logsBloom, hbloom, h⟩ := bind_eq_ok.1 h
  obtain ⟨extraData, hextra, h⟩ := bind_eq_ok.1 h
  rw [← leafOf_root sha256 hbloom, ← leafOf_root sha256 hextra] at h
  have hroot := @progressiveContainerRoot_eq sha256 (c.payloadParts sha256) (Nat.succ_pos _) (Nat.le_of_ble_eq_true rfl)
  exact Except.ok.inj (h.symm.trans hroot)

theorem Contents.root_ok {c : Contents} (hfits : c.Fits) {out : Bytes32} (h : c.root sha256 = .ok out) :
    out = (c.tree sha256).root (hash sha256) ∧ ∀ type, (c.bodies type).length % (widthsOf type).sum = 0 := by
  rw [Contents.root, newPayloadRequestRoot] at h
  obtain ⟨payload, hpayload, h⟩ := bind_eq_ok.1 h
  obtain ⟨hashes, hhashes, h⟩ := bind_eq_ok.1 h
  obtain ⟨requests, hrequests, h⟩ := bind_eq_ok.1 h
  obtain ⟨hrequests, hwhole⟩ := executionRequestsRoot_ok sha256 hfits.bodies hrequests
  rw [c.executionPayloadRoot_ok sha256 hfits hpayload, ← leafOf_root sha256 hhashes, hrequests] at h
  have hroot := @progressiveContainerRoot_eq sha256 (c.parts sha256) (Nat.succ_pos _) (Nat.le_of_ble_eq_true rfl)
  exact ⟨Except.ok.inj (h.symm.trans hroot), hwhole⟩

end

end Zeg.PayloadRequest
