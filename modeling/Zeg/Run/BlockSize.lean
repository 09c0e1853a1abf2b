import Zeg.Header.Fields
import Zeg.Receipt
import Zeg.Run.Output

-- The size of a block that is never built, and the encodings it is the size of.
namespace Zeg.Run

open Base Base.Writer RlpCodec Fork Header Consensus List
open Base.Rlp (beBytes encodeStr encodeAll wrap header length_wrap)
open Transactions (View Field unsignedFields signatureFields typePrefix)
open AccessList.Encoder (itemSize itemSize_eq length_header_eq encodeStr_of_not encodeAll_map)

def TxItem (tx : View) (x : Rlp.Item) : Prop :=
  if tx.type = .Legacy then (∃ fields, x = .Lst fields) ∧ Rlp.encode x = tx.envelope else x = .Str tx.envelope

def withdrawalItem (w : Withdrawal) : Rlp.Item := .Lst ((withdrawalStrings w).map .Str)

-- rlp([header, transactions, [], withdrawals])
def blockItem (h : BlockHeader) (txs : List Rlp.Item) (withdrawals : List Withdrawal) : Rlp.Item :=
  .Lst [.Lst ((strings h).map .Str), .Lst txs, .Lst [], .Lst (withdrawals.map withdrawalItem)]

-- The same sizes with the counters of std::size_t, and with the five bytes that item_size has for a header.
def txSize (tx : View) : Except String Nat :=
  if tx.type = .Legacy then .ok tx.envelope.length else itemSize tx.envelope.length

def measuredSize (h : BlockHeader) (txs : List View) (withdrawals : List Withdrawal) : Except String Nat := do
  let txPayload ← sumSizes txSize txs 0
  let withdrawalPayload ← sumSizes (fun w => .ok (withdrawalRecord w).length) withdrawals 0
  itemSize (sizeT ((encodeBlockHeaderRlp h).length + (← itemSize txPayload) + 1 + (← itemSize withdrawalPayload)))

theorem mptItemSize_eq (payload : Bytes) : Mpt.itemSize payload.length = (wrap payload).length := by
  rw [Mpt.itemSize, wrap, length_append, length_header_eq 0x80 0xb7 0xc0 0xf7]

theorem legacy_strings (v : View) : ∃ fields : List Bytes,
    (unsignedFields .Legacy ++ signatureFields).flatMap (Field.canonical v) = encodeAll (fields.map .Str) := by
  refine ⟨[beBytes v.nonce.toNat, beBytes v.gasPrice.toNat, beBytes v.gasLimit.toNat,
    (v.to?.map List.Vector.toList).getD [], beBytes v.value.toNat, v.data, beBytes v.vOrYParity.toNat, beBytes v.r.toNat,
    beBytes v.s.toNat], ?_⟩
  simp only [unsignedFields, signatureFields, cons_append, nil_append, flatMap_cons, flatMap_nil,
    Field.canonical, map_cons, map_nil, encodeAll, Rlp.encode]

variable {tx : View}

theorem exists_txItem (h : Transactions.Accepted tx.envelope tx) : ∃ x, TxItem tx x := by
  by_cases hlegacy : tx.type = .Legacy
  · obtain ⟨fields, hfields⟩ := legacy_strings tx
    refine ⟨.Lst (fields.map .Str), ?_⟩
    rw [TxItem, if_pos hlegacy]
    refine ⟨⟨_, rfl⟩, ?_⟩
    have henvelope := h.reencode
    rw [View.reencode, hlegacy, hfields] at henvelope
    rw [Rlp.encode, ← henvelope]
    rfl
  · exact ⟨.Str tx.envelope, by rw [TxItem, if_neg hlegacy]⟩

theorem one_lt_envelope (h : Transactions.Accepted tx.envelope tx) (htyped : tx.type ≠ .Legacy) :
    1 < tx.envelope.length := by
  have henvelope := congrArg List.length h.reencode
  have hwrap := length_wrap ((unsignedFields tx.type ++ signatureFields).flatMap (Field.canonical tx))
  rw [View.reencode, length_append] at henvelope
  have hprefix : (typePrefix tx.type).length = 1 := by
    cases htype : tx.type with
    | Legacy => exact absurd htype htyped
    | AccessList | DynamicFee | Blob | SetCode | Osaka => rfl
  omega

def txBytes (tx : View) : Bytes := if tx.type = .Legacy then tx.envelope else encodeStr tx.envelope

theorem encode_txItem {x : Rlp.Item} (hx : TxItem tx x) : Rlp.encode x = txBytes tx := by
  rw [TxItem] at hx
  rw [txBytes]
  by_cases hlegacy : tx.type = .Legacy
  · rw [if_pos hlegacy] at hx ⊢
    exact hx.2
  · rw [if_neg hlegacy] at hx ⊢
    rw [hx, Rlp.encode]

theorem encodeAll_txItems {txs : List View} {items : List Rlp.Item} (hitems : List.Forall₂ TxItem txs items) :
    encodeAll items = txs.flatMap txBytes := by
  induction hitems with
  | nil => rfl
  | cons hx _ ih => rw [encodeAll, encode_txItem hx, ih, flatMap_cons]

theorem encodeAll_withdrawals (withdrawals : List Withdrawal) :
    encodeAll (withdrawals.map withdrawalItem) = withdrawals.flatMap withdrawalRecord := by
  rw [encodeAll_map]
  exact congrArg List.flatten (map_congr_left fun w _ => (withdrawalRecord_eq w).1.symm)

theorem length_txBytes (h : Transactions.Accepted tx.envelope tx) : (txBytes tx).length =
    if tx.type = .Legacy then tx.envelope.length else Mpt.itemSize tx.envelope.length := by
  rw [txBytes]
  by_cases hlegacy : tx.type = .Legacy
  · rw [if_pos hlegacy, if_pos hlegacy]
  · have hlong := one_lt_envelope h hlegacy
    rw [if_neg hlegacy, if_neg hlegacy, encodeStr_of_not (fun hone => by omega), length_append, Mpt.itemSize]

theorem txSize_eq (h : Transactions.Accepted tx.envelope tx) (hlen : (txBytes tx).length < 2 ^ 32) :
    txSize tx = .ok (txBytes tx).length := by
  rw [length_txBytes h] at hlen ⊢
  rw [txSize]
  by_cases hlegacy : tx.type = .Legacy
  · rw [if_pos hlegacy, if_pos hlegacy]
  · rw [if_neg hlegacy, mptItemSize_eq] at hlen
    have hwrap := length_wrap tx.envelope
    rw [if_neg hlegacy, if_neg hlegacy, itemSize_eq (by omega), mptItemSize_eq]

theorem transactionsPayloadSize_eq {txs : List View} (haccepted : ∀ tx ∈ txs, Transactions.Accepted tx.envelope tx) :
    transactionsPayloadSize txs = (txs.flatMap txBytes).length := by
  rw [transactionsPayloadSize, length_flatMap]
  exact congrArg List.sum (map_congr_left fun tx htx => (length_txBytes (haccepted tx htx)).symm)

theorem withdrawalsPayloadSize_eq (withdrawals : List Withdrawal) :
    withdrawalsPayloadSize withdrawals = (withdrawals.flatMap withdrawalRecord).length := by
  rw [withdrawalsPayloadSize, length_flatMap]

section

variable {build : Build} {p : Platform} {r : Completed}

theorem Accepted.views (h : Accepted build p r) :
    ∀ tx ∈ r.lead.transactions, Transactions.Accepted tx.envelope tx :=
  fun tx htx => Transactions.accepted_of_readEnvelope (h.read tx htx)

theorem Accepted.header_extraData (h : Accepted build p r) : r.header.extraData.length ≤ 32 := by
  rw [h.header]
  exact h.extraData

theorem Accepted.exists_txItems (h : Accepted build p r) : ∃ items, List.Forall₂ TxItem r.lead.transactions items := by
  have hviews := h.views
  generalize r.lead.transactions = txs at hviews
  induction txs with
  | nil => exact ⟨[], .nil⟩
  | cons tx txs ih =>
    obtain ⟨x, hx⟩ := exists_txItem (hviews tx mem_cons_self)
    obtain ⟨items, hitems⟩ := ih fun tx htx => hviews tx (mem_cons_of_mem _ htx)
    exact ⟨x :: items, .cons hx hitems⟩

variable {items : List Rlp.Item}

theorem Accepted.encode_blockItem (h : Accepted build p r) (hitems : List.Forall₂ TxItem r.lead.transactions items) :
    Rlp.encode (blockItem r.header items r.lead.consensus.withdrawals) =
      wrap (encodeBlockHeaderRlp r.header ++ (wrap (r.lead.transactions.flatMap txBytes) ++ (wrap [] ++
        wrap (r.lead.consensus.withdrawals.flatMap withdrawalRecord)))) := by
  rw [(encodeBlockHeaderRlp_eq h.header_extraData).1, ← encodeAll_txItems hitems, ← encodeAll_withdrawals]
  simp only [blockItem, Rlp.encode, encodeAll, append_nil]

theorem length_parts (a b c : Bytes) :
    (a ++ (wrap b ++ (wrap [] ++ wrap c))).length = a.length + (wrap b).length + 1 + (wrap c).length := by
  have hommers : (wrap []).length = 1 := rfl
  rw [length_append, length_append, length_append, hommers]
  omega

-- The parts add up to the whole, counted without limits or in the code's own counters.
theorem Accepted.blockRlpSize_eq (h : Accepted build p r) (hitems : List.Forall₂ TxItem r.lead.transactions items) :
    blockRlpSize r.header r.lead.transactions r.lead.consensus.withdrawals =
      (Rlp.encode (blockItem r.header items r.lead.consensus.withdrawals)).length := by
  rw [h.encode_blockItem hitems, ← mptItemSize_eq, length_parts, blockRlpSize, transactionsPayloadSize_eq h.views,
    withdrawalsPayloadSize_eq, mptItemSize_eq (r.lead.transactions.flatMap txBytes),
    mptItemSize_eq (r.lead.consensus.withdrawals.flatMap withdrawalRecord)]

theorem Accepted.measuredSize_eq (h : Accepted build p r) (hitems : List.Forall₂ TxItem r.lead.transactions items)
    (hlen : (Rlp.encode (blockItem r.header items r.lead.consensus.withdrawals)).length < 2 ^ 32) :
    measuredSize r.header r.lead.transactions r.lead.consensus.withdrawals =
      .ok (Rlp.encode (blockItem r.header items r.lead.consensus.withdrawals)).length := by
  rw [h.encode_blockItem hitems] at hlen ⊢
  have hwhole := length_wrap (encodeBlockHeaderRlp r.header ++ (wrap (r.lead.transactions.flatMap txBytes) ++ (wrap [] ++
    wrap (r.lead.consensus.withdrawals.flatMap withdrawalRecord))))
  have hparts := length_parts (encodeBlockHeaderRlp r.header) (r.lead.transactions.flatMap txBytes)
    (r.lead.consensus.withdrawals.flatMap withdrawalRecord)
  have htxs := length_wrap (r.lead.transactions.flatMap txBytes)
  have hwithdrawals := length_wrap (r.lead.consensus.withdrawals.flatMap withdrawalRecord)
  have hfirst := sumSizes_eq txSize txBytes (2 ^ 32) (by decide) r.lead.transactions
    (fun tx htx => txSize_eq (h.views tx htx)) 0 (by omega)
  have hsecond := sumSizes_eq (fun w => .ok (withdrawalRecord w).length) withdrawalRecord (2 ^ 32) (by decide)
    r.lead.consensus.withdrawals (fun w _ _ => rfl) 0 (by omega)
  rw [Nat.zero_add] at hfirst hsecond
  rw [measuredSize, hfirst, ok_bind, hsecond, ok_bind, itemSize_eq (by omega), ok_bind, itemSize_eq (by omega), ok_bind,
    ← hparts, sizeT_of_lt (by omega), itemSize_eq (by omega)]

end

-- Receipts and headers are told by their encodings, and a block's size is that of its encoding.
theorem encodings_exact :
    (∀ r : Receipt.TxReceipt, (Receipt.canonical r).length < 2 ^ 32 →
      Receipt.encodeReceipt r = .ok (Receipt.canonical r) ∧
        ∀ r' : Receipt.TxReceipt, (Receipt.canonical r').length < 2 ^ 32 → r ≠ r' →
          Receipt.encodeReceipt r ≠ Receipt.encodeReceipt r') ∧
      (∀ h h' : BlockHeader, ¬SameFields h h' → encodeBlockHeaderRlp h ≠ encodeBlockHeaderRlp h') ∧
      ∀ build p x r, runBlock build p x = .ok r →
        (∃ items, List.Forall₂ TxItem r.lead.transactions items) ∧
        ∀ items, List.Forall₂ TxItem r.lead.transactions items →
          (Rlp.encode (blockItem r.header items r.lead.consensus.withdrawals)).length < 2 ^ 32 →
          measuredSize r.header r.lead.transactions r.lead.consensus.withdrawals =
              .ok (Rlp.encode (blockItem r.header items r.lead.consensus.withdrawals)).length ∧
            blockRlpSize r.header r.lead.transactions r.lead.consensus.withdrawals =
              (Rlp.encode (blockItem r.header items r.lead.consensus.withdrawals)).length := by
  refine ⟨?_, ?_, ?_⟩
  · intro r hlen
    have hr := Receipt.encodeReceipt_eq hlen
    refine ⟨hr, fun r' hlen' hne heq => hne ?_⟩
    rw [hr, Receipt.encodeReceipt_eq hlen'] at heq
    exact Receipt.canonical_injective (Nat.lt_trans hlen (by decide)) (Except.ok.inj heq)
  · exact fun h h' hdiffer heq => hdiffer (sameFields heq)
  · intro build p x r hrun
    have haccepted := accepted_of_runBlock hrun
    exact ⟨haccepted.exists_txItems, fun items hitems hlen =>
      ⟨haccepted.measuredSize_eq hitems hlen, haccepted.blockRlpSize_eq hitems⟩⟩

def transferReceipt (status : Bool) : Receipt.TxReceipt :=
  ⟨.DynamicFee, status, 21000, List.Vector.replicate 256 0, []⟩

theorem encodings_exact_activation :
    Receipt.encodeReceipt (transferReceipt true) ≠ Receipt.encodeReceipt (transferReceipt false) ∧
      ∃ r, runBlock mainnet quietPlatform honestActivation = .ok r ∧
        measuredSize r.header r.lead.transactions r.lead.consensus.withdrawals = .ok 579 := by
  refine ⟨?_, ?_⟩
  · exact (encodings_exact.1 (transferReceipt true) (by decide +kernel)).2 (transferReceipt false) (by decide +kernel)
      fun heq => Bool.noConfusion (congrArg Receipt.TxReceipt.status heq)
  · have hsize : ((runBlock mainnet quietPlatform honestActivation).map fun r =>
        blockRlpSize r.header r.lead.transactions r.lead.consensus.withdrawals) = .ok 579 := by decide +kernel
    obtain ⟨r, hrun, hlen⟩ := (map_eq_ok.mp hsize)
    obtain ⟨⟨items, hitems⟩, hexact⟩ := encodings_exact.2.2 _ _ _ r hrun
    rw [(accepted_of_runBlock hrun).blockRlpSize_eq hitems] at hlen
    have hmeasured := (hexact items hitems (by omega)).1
    rw [hlen] at hmeasured
    exact ⟨r, hrun, hmeasured⟩

end Zeg.Run
