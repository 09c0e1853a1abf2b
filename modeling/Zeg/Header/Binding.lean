import Zeg.Header

-- The header's encoding determines the fields it holds.
namespace Zeg.Header

open Base RlpCodec Fork List
open Base.Rlp (beBytes)

def headerStrings (h : BlockHeader) : List Bytes :=
  [h.parentHash.toList, h.ommersHash.toList, h.coinbase.toList, h.stateRoot.toList, h.transactionsRoot.toList,
   h.receiptsRoot.toList, h.logsBloom.toList, beBytes h.difficulty.toNat, beBytes h.number.toNat,
   beBytes h.gasLimit.toNat, beBytes h.gasUsed.toNat, beBytes h.timestamp.toNat, h.extraData, h.prevRandao.toList,
   h.nonce.toList]

def forkStrings (h : BlockHeader) (fieldCount : Nat) : List Bytes :=
  (if 16 ≤ fieldCount then [beBytes h.baseFeePerGas.toNat] else []) ++
  (if 17 ≤ fieldCount then [h.withdrawalsRoot.toList] else []) ++
  (if 20 ≤ fieldCount then
    [beBytes h.blobGasUsed.toNat, beBytes h.excessBlobGas.toNat, h.parentBeaconBlockRoot.toList] else []) ++
  (if 21 ≤ fieldCount then [h.requestsHash.toList] else []) ++
  (if 23 ≤ fieldCount then [h.blockAccessListHash.toList, beBytes h.slotNumber.toNat] else [])

theorem forkFields_eq (h : BlockHeader) (fieldCount : Nat) :
    forkFields h fieldCount = (forkStrings h fieldCount).map encode := by
  simp only [forkFields, forkStrings, map_append, apply_ite (List.map encode)]
  rfl

section

variable {h h' : BlockHeader}

theorem length_headerStrings (hextra : h.extraData.length ≤ 32) : ∀ s ∈ headerStrings h, s.length ≤ 256 := by
  have hdifficulty := length_beBytes_word h.difficulty
  have hnumber := length_beBytes_u64 h.number
  have hlimit := length_beBytes_u64 h.gasLimit
  have hused := length_beBytes_u64 h.gasUsed
  have htime := length_beBytes_u64 h.timestamp
  simp only [headerStrings, mem_cons, not_mem_nil, or_false, forall_eq_or_imp, forall_eq,
    List.Vector.toList_length]
  omega

theorem forkStrings_sublist (h : BlockHeader) (fieldCount : Nat) :
    (forkStrings h fieldCount).Sublist (forkStrings h 23) := by
  have hif (c : Prop) [Decidable c] (strings : List Bytes) : (if c then strings else []).Sublist strings := by
    split
    · exact List.Sublist.refl _
    · exact nil_sublist _
  exact ((((hif _ _).append (hif _ _)).append (hif _ _)).append (hif _ _)).append (hif _ _)

theorem length_forkStrings (h : BlockHeader) (fieldCount : Nat) :
    (forkStrings h fieldCount).length ≤ 8 ∧ ∀ s ∈ forkStrings h fieldCount, s.length ≤ 256 := by
  refine ⟨(forkStrings_sublist h fieldCount).length_le, fun s hs => ?_⟩
  have hfee := length_beBytes_word h.baseFeePerGas
  have hused := length_beBytes_u64 h.blobGasUsed
  have hexcess := length_beBytes_u64 h.excessBlobGas
  have hslot := length_beBytes_u64 h.slotNumber
  have hall : ∀ s ∈ forkStrings h 23, s.length ≤ 256 := by
    have hfull : forkStrings h 23 = [beBytes h.baseFeePerGas.toNat, h.withdrawalsRoot.toList,
        beBytes h.blobGasUsed.toNat, beBytes h.excessBlobGas.toNat, h.parentBeaconBlockRoot.toList,
        h.requestsHash.toList, h.blockAccessListHash.toList, beBytes h.slotNumber.toNat] := rfl
    simp only [hfull, mem_cons, not_mem_nil, or_false, forall_eq_or_imp, forall_eq, List.Vector.toList_length]
    omega
  exact hall s ((forkStrings_sublist h fieldCount).subset hs)

def strings (h : BlockHeader) : List Bytes := headerStrings h ++ forkStrings h (forkFieldCount h.forkId)

theorem encodeBlockHeaderRlp_eq (hextra : h.extraData.length ≤ 32) :
    encodeBlockHeaderRlp h = Rlp.encode (.Lst ((strings h).map .Str)) ∧ (encodeBlockHeaderRlp h).length < 2 ^ 64 := by
  obtain ⟨hcount, hfork⟩ := length_forkStrings h (forkFieldCount h.forkId)
  have hstrings : ∀ s ∈ strings h, s.length ≤ 256 := by
    intro s hs
    obtain hs | hs := mem_append.1 hs
    · exact length_headerStrings hextra s hs
    · exact hfork s hs
  have hcount : (strings h).length ≤ 23 := by
    rw [strings, length_append]
    exact Nat.add_le_add_left hcount 15
  have hsize := length_strings_le (by omega) hstrings
  have hlist := encodeList_strings (by omega) fun s hs => Nat.lt_of_le_of_lt (hstrings s hs) (by decide)
  have hencode : encodeBlockHeaderRlp h = Rlp.encode (.Lst ((strings h).map .Str)) := by
    rw [← hlist, strings, map_append, ← forkFields_eq]
    rfl
  exact ⟨hencode, by rw [hencode]; omega⟩

theorem strings_injective (hextra : h.extraData.length ≤ 32) (hextra' : h'.extraData.length ≤ 32)
    (heq : encodeBlockHeaderRlp h = encodeBlockHeaderRlp h') : strings h = strings h' := by
  obtain ⟨hencode, hlen⟩ := encodeBlockHeaderRlp_eq hextra
  rw [(encodeBlockHeaderRlp_eq hextra').1, hencode] at heq
  rw [hencode] at hlen
  exact map_injective_iff.2 (fun _ _ h => Rlp.Item.Str.inj h) (Rlp.Item.Lst.inj (Rlp.encode_injective hlen heq))

structure SameForkFields (fieldCount : Nat) (h h' : BlockHeader) : Prop where
  baseFeePerGas : h.baseFeePerGas = h'.baseFeePerGas
  withdrawalsRoot : h.withdrawalsRoot = h'.withdrawalsRoot
  blobGasUsed : h.blobGasUsed = h'.blobGasUsed
  excessBlobGas : h.excessBlobGas = h'.excessBlobGas
  parentBeaconBlockRoot : h.parentBeaconBlockRoot = h'.parentBeaconBlockRoot
  requestsHash : 21 ≤ fieldCount → h.requestsHash = h'.requestsHash
  blockAccessListHash : 23 ≤ fieldCount → h.blockAccessListHash = h'.blockAccessListHash
  slotNumber : 23 ≤ fieldCount → h.slotNumber = h'.slotNumber

theorem sameForkFields {fieldCount : Nat} (hcancun : 20 ≤ fieldCount)
    (heq : forkStrings h fieldCount = forkStrings h' fieldCount) : SameForkFields fieldCount h h' := by
  have hlondon : 16 ≤ fieldCount := by omega
  have hshanghai : 17 ≤ fieldCount := by omega
  simp only [forkStrings, hlondon, hshanghai, hcancun, if_true, cons_append, nil_append,
    List.cons.injEq] at heq
  obtain ⟨h₁, h₂, h₃, h₄, h₅, hrest⟩ := heq
  have hprague : 21 ≤ fieldCount → h.requestsHash = h'.requestsHash := by
    intro hp
    rw [if_pos hp, if_pos hp] at hrest
    exact List.Vector.eq _ _ (List.cons.inj hrest).1
  have hamsterdam : 23 ≤ fieldCount → h.blockAccessListHash = h'.blockAccessListHash ∧ h.slotNumber = h'.slotNumber := by
    intro ha
    have hp : 21 ≤ fieldCount := by omega
    simp only [ha, hp, if_true, cons_append, nil_append, List.cons.injEq, and_true] at hrest
    exact ⟨List.Vector.eq _ _ hrest.2.1, beBytes_u64_injective hrest.2.2⟩
  exact ⟨beBytes_word_injective h₁, List.Vector.eq _ _ h₂, beBytes_u64_injective h₃, beBytes_u64_injective h₄,
    List.Vector.eq _ _ h₅, hprague, fun ha => (hamsterdam ha).1, fun ha => (hamsterdam ha).2⟩

theorem eq_of_encoding (hextra : h.extraData.length ≤ 32) (hextra' : h'.extraData.length ≤ 32)
    (heq : encodeBlockHeaderRlp h = encodeBlockHeaderRlp h') (hfork : h.timestamp = h'.timestamp → h.forkId = h'.forkId)
    (hcancun : 20 ≤ forkFieldCount h.forkId)
    (hprague : h.forkId = h'.forkId → forkFieldCount h.forkId < 21 → h.requestsHash = h'.requestsHash)
    (hamsterdam : h.forkId = h'.forkId → forkFieldCount h.forkId < 23 →
      h.blockAccessListHash = h'.blockAccessListHash ∧ h.slotNumber = h'.slotNumber) : h = h' := by
  obtain ⟨hheader, hrest⟩ := append_inj (strings_injective hextra hextra' heq) rfl
  simp only [headerStrings, List.cons.injEq, and_true] at hheader
  obtain ⟨h₁, h₂, h₃, h₄, h₅, h₆, h₇, h₈, h₉, h₁₀, h₁₁, h₁₂, h₁₃, h₁₄, h₁₅⟩ := hheader
  have hsame := hfork (beBytes_u64_injective h₁₂)
  rw [← hsame] at hrest
  have hfields := sameForkFields hcancun hrest
  have hrequests : h.requestsHash = h'.requestsHash := (Nat.lt_or_ge _ 21).elim (hprague hsame) hfields.requestsHash
  have hlist : h.blockAccessListHash = h'.blockAccessListHash ∧ h.slotNumber = h'.slotNumber :=
    (Nat.lt_or_ge _ 23).elim (hamsterdam hsame) fun ha => ⟨hfields.blockAccessListHash ha, hfields.slotNumber ha⟩
  exact BlockHeader.ext (List.Vector.eq _ _ h₁) (List.Vector.eq _ _ h₂) (List.Vector.eq _ _ h₃) (List.Vector.eq _ _ h₄)
    (List.Vector.eq _ _ h₅) (List.Vector.eq _ _ h₆) (List.Vector.eq _ _ h₇) (beBytes_word_injective h₈)
    (beBytes_u64_injective h₉) (beBytes_u64_injective h₁₀) (beBytes_u64_injective h₁₁) (beBytes_u64_injective h₁₂) h₁₃
    (List.Vector.eq _ _ h₁₄) (List.Vector.eq _ _ h₁₅) hfields.baseFeePerGas hfields.withdrawalsRoot hfields.blobGasUsed
    hfields.excessBlobGas hfields.parentBeaconBlockRoot hrequests hlist.1 hlist.2 hsame

end

end Zeg.Header
