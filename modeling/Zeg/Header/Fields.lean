import Zeg.Header.Binding
import Zeg.Transactions.Canonical

-- Headers with one encoding agree in every field that is encoded, however long their extra data is.
namespace Zeg.Header

open Base RlpCodec Fork List
open Base.Rlp (beBytes encodeStr)

-- Four length bytes, also where they are not enough.
theorem length_appendHeader (short long len : Nat) :
    (appendHeader short long len).length = if len ≤ 55 then 1 else 1 + beLengthBytes len := by
  rw [appendHeader]
  split
  · rfl
  · simp [bytesOf, Nat.add_comm]

theorem beLengthBytes_mono {m n : Nat} (h : m ≤ n) : beLengthBytes m ≤ beLengthBytes n := by
  unfold beLengthBytes
  split_ifs <;> omega

theorem encodeListPayload_injective {a b : Bytes} (h : encodeListPayload a = encodeListPayload b) : a = b := by
  have hsize := congrArg List.length h
  rw [encodeListPayload, encodeListPayload, length_append, length_append, length_appendHeader,
    length_appendHeader] at hsize
  have hlen : a.length = b.length := by
    by_contra hne
    have hab := @beLengthBytes_mono a.length b.length
    have hba := @beLengthBytes_mono b.length a.length
    split_ifs at hsize <;> omega
  rw [encodeListPayload, encodeListPayload, hlen] at h
  exact append_cancel_left h

theorem items_append_injective {xs ys : List Item} {r r' : Bytes} (hxs : ∀ x ∈ xs, x.Canonical)
    (hys : ∀ y ∈ ys, y.Canonical) (hlen : xs.length = ys.length)
    (h : xs.flatMap Item.raw ++ r = ys.flatMap Item.raw ++ r') : xs = ys ∧ r = r' := by
  induction xs generalizing ys with
  | nil =>
    obtain rfl := length_eq_zero_iff.1 hlen.symm
    exact ⟨rfl, h⟩
  | cons x xs ih =>
    obtain _ | ⟨y, ys⟩ := ys
    · cases hlen
    · rw [flatMap_cons, flatMap_cons, append_assoc, append_assoc] at h
      have hread := next_append (hxs x mem_cons_self) (xs.flatMap Item.raw ++ r)
      rw [h, next_append (hys y mem_cons_self)] at hread
      obtain ⟨rfl, hrest⟩ := Prod.mk.inj (Except.ok.inj hread)
      obtain ⟨rfl, hr⟩ := ih (fun x hx => hxs x (mem_cons_of_mem _ hx))
        (fun y hy => hys y (mem_cons_of_mem _ hy)) (Nat.succ.inj hlen) hrest.symm
      exact ⟨rfl, hr⟩

def stringItem (s : Bytes) : Item := ⟨.String, encodeStr s, s⟩

theorem canonical_stringItems {strings : List Bytes} (hstrings : ∀ s ∈ strings, s.length ≤ 256) :
    ∀ x ∈ strings.map stringItem, x.Canonical := by
  intro x hx
  obtain ⟨s, hs, rfl⟩ := mem_map.1 hx
  exact ⟨Nat.lt_of_le_of_lt (hstrings s hs) (by decide), rfl⟩

theorem flatten_encode {strings : List Bytes} (hstrings : ∀ s ∈ strings, s.length ≤ 256) :
    (strings.map encode).flatten = (strings.map stringItem).flatMap Item.raw := by
  rw [flatMap_map, List.flatMap]
  refine congrArg List.flatten (map_congr_left fun s hs => ?_)
  exact encode_eq (Nat.lt_of_le_of_lt (hstrings s hs) (by decide))

theorem stringItem_injective : Function.Injective stringItem := fun _ _ h => congrArg Item.payload h

theorem strings_append_injective {xs ys : List Bytes} {r r' : Bytes} (hxs : ∀ s ∈ xs, s.length ≤ 256)
    (hys : ∀ s ∈ ys, s.length ≤ 256) (hlen : xs.length = ys.length)
    (h : (xs.map encode).flatten ++ r = (ys.map encode).flatten ++ r') : xs = ys ∧ r = r' := by
  rw [flatten_encode hxs, flatten_encode hys] at h
  obtain ⟨hitems, hrest⟩ := items_append_injective (canonical_stringItems hxs) (canonical_stringItems hys)
    (by rw [length_map, length_map, hlen]) h
  exact ⟨map_injective_iff.2 stringItem_injective hitems, hrest⟩

theorem strings_flatten_injective {xs ys : List Bytes} (hxs : ∀ s ∈ xs, s.length ≤ 256)
    (hys : ∀ s ∈ ys, s.length ≤ 256) (h : (xs.map encode).flatten = (ys.map encode).flatten) : xs = ys := by
  rw [flatten_encode hxs, flatten_encode hys] at h
  exact map_injective_iff.2 stringItem_injective
    (items_injective (canonical_stringItems hxs) (canonical_stringItems hys) h)

-- The extra data

theorem encode_long {data : Bytes} (hlen : 0xffffff < data.length) :
    encode data = UInt8.ofNat (0xb7 + 4) :: (bytesOf 4 data.length ++ data) := by
  obtain _ | ⟨b, _ | ⟨c, rest⟩⟩ := data
  · cases hlen
  · exact absurd hlen (by simp)
  · have hcount : beLengthBytes (b :: c :: rest).length = 4 := by
      rw [beLengthBytes, if_neg (by omega), if_neg (by omega), if_neg (by omega)]
    rw [encode, appendHeader, if_neg (by omega), hcount, cons_append]
    · simp

theorem length_encode_bounds (data : Bytes) :
    data.length ≤ (encode data).length ∧ (encode data).length ≤ data.length + 5 := by
  obtain _ | ⟨b, _ | ⟨c, rest⟩⟩ := data
  · decide
  · have hsize : (encode [b]).length = 1 ∨ (encode [b]).length = 2 := by
      rw [encode]
      split
      · exact .inl rfl
      · exact .inr rfl
    rw [length_singleton]
    omega
  · have hheader := length_appendHeader 0x80 0xb7 (b :: c :: rest).length
    have hcount : beLengthBytes (b :: c :: rest).length ≤ 4 := by
      unfold beLengthBytes
      split_ifs <;> omega
    rw [encode, length_append, hheader]
    · split_ifs <;> omega
    · simp

theorem bytesOf_four {m n : Nat} (h : bytesOf 4 m = bytesOf 4 n) : m % 2 ^ 32 = n % 2 ^ 32 := by
  have hbyte : ∀ a b : Nat, UInt8.ofNat a = UInt8.ofNat b → a % 256 = b % 256 := by
    intro a b hab
    have := congrArg UInt8.toNat hab
    simpa using this
  simp only [bytesOf, List.range, List.range.loop, map_cons, map_nil, List.cons.injEq, and_true] at h
  obtain ⟨h3, h2, h1, h0⟩ := h
  have h3 := hbyte _ _ h3
  have h2 := hbyte _ _ h2
  have h1 := hbyte _ _ h1
  have h0 := hbyte _ _ h0
  omega

theorem encode_append_injective {a b r r' : Bytes} (hr : r.length < 2 ^ 13) (hr' : r'.length < 2 ^ 13)
    (h : encode a ++ r = encode b ++ r') : a = b ∧ r = r' := by
  by_cases hshort : a.length < 2 ^ 32 ∧ b.length < 2 ^ 32
  · rw [encode_eq hshort.1, encode_eq hshort.2] at h
    have hcanonical : ∀ s : Bytes, s.length < 2 ^ 32 → ∀ x ∈ [stringItem s], x.Canonical := by
      intro s hs x hx
      rw [mem_singleton.1 hx]
      exact ⟨Nat.lt_trans hs (by decide), rfl⟩
    obtain ⟨hitem, hrest⟩ := @items_append_injective [stringItem a] [stringItem b] r r' (hcanonical a hshort.1)
      (hcanonical b hshort.2) rfl (by rw [flatMap_singleton, flatMap_singleton]; exact h)
    exact ⟨stringItem_injective (List.cons.inj hitem).1, hrest⟩
  · -- the length bytes are cut off, but there is too little behind for another length that ends the same
    have hsize := congrArg List.length h
    rw [length_append, length_append] at hsize
    have ha := length_encode_bounds a
    have hb := length_encode_bounds b
    rw [encode_long (by omega), encode_long (by omega), cons_append, cons_append, append_assoc,
      append_assoc] at h
    obtain ⟨hdigits, hrest⟩ := append_inj (List.cons.inj h).2 (by simp [bytesOf])
    have hmod := bytesOf_four hdigits
    have htotal := congrArg List.length hrest
    rw [length_append, length_append] at htotal
    exact append_inj hrest (by omega)

def leadStrings (h : BlockHeader) : List Bytes :=
  [h.parentHash.toList, h.ommersHash.toList, h.coinbase.toList, h.stateRoot.toList, h.transactionsRoot.toList,
   h.receiptsRoot.toList, h.logsBloom.toList, beBytes h.difficulty.toNat, beBytes h.number.toNat,
   beBytes h.gasLimit.toNat, beBytes h.gasUsed.toNat, beBytes h.timestamp.toNat]

def tailStrings (h : BlockHeader) : List Bytes :=
  h.prevRandao.toList :: h.nonce.toList :: forkStrings h (forkFieldCount h.forkId)

variable {h h' : BlockHeader}

theorem strings_eq (h : BlockHeader) : strings h = leadStrings h ++ h.extraData :: tailStrings h := rfl

theorem length_leadStrings (h : BlockHeader) : ∀ s ∈ leadStrings h, s.length ≤ 256 := by
  have hdifficulty := length_beBytes_word h.difficulty
  have hnumber := length_beBytes_u64 h.number
  have hlimit := length_beBytes_u64 h.gasLimit
  have hused := length_beBytes_u64 h.gasUsed
  have htime := length_beBytes_u64 h.timestamp
  simp only [leadStrings, mem_cons, not_mem_nil, or_false, forall_eq_or_imp, forall_eq,
    List.Vector.toList_length]
  omega

theorem length_tailStrings (h : BlockHeader) :
    (∀ s ∈ tailStrings h, s.length ≤ 256) ∧ ((tailStrings h).map encode).flatten.length < 2 ^ 13 := by
  obtain ⟨hcount, hfork⟩ := length_forkStrings h (forkFieldCount h.forkId)
  have hall : ∀ s ∈ tailStrings h, s.length ≤ 256 := by
    rw [tailStrings, forall_mem_cons, forall_mem_cons, List.Vector.toList_length, List.Vector.toList_length]
    exact ⟨by decide, by decide, hfork⟩
  refine ⟨hall, ?_⟩
  have hsum : ∀ xs : List Bytes, (∀ s ∈ xs, s.length ≤ 256) → (xs.map encode).flatten.length ≤ xs.length * 261 := by
    intro xs hxs
    induction xs with
    | nil => exact Nat.le_refl 0
    | cons s xs ih =>
      have hs := (length_encode_bounds s).2
      have hle := hxs s mem_cons_self
      have hrest := ih fun t ht => hxs t (mem_cons_of_mem s ht)
      rw [map_cons, flatten_cons, length_append, length_cons]
      omega
  have hten : (tailStrings h).length ≤ 10 := by
    rw [tailStrings, length_cons, length_cons]
    omega
  have := hsum _ hall
  omega

theorem encodeBlockHeaderRlp_parts (h : BlockHeader) : encodeBlockHeaderRlp h = encodeListPayload
    (((leadStrings h).map encode).flatten ++ (encode h.extraData ++ ((tailStrings h).map encode).flatten)) := by
  have hfields : headerFields h ++ forkFields h (forkFieldCount h.forkId) = (strings h).map encode := by
    rw [forkFields_eq, strings, map_append]
    rfl
  rw [encodeBlockHeaderRlp, hfields, strings_eq, map_append, flatten_append, map_cons, flatten_cons]

theorem strings_eq_of_encoding (heq : encodeBlockHeaderRlp h = encodeBlockHeaderRlp h') : strings h = strings h' := by
  rw [encodeBlockHeaderRlp_parts, encodeBlockHeaderRlp_parts] at heq
  obtain ⟨hlead, hrest⟩ := strings_append_injective (length_leadStrings h) (length_leadStrings h') rfl
    (encodeListPayload_injective heq)
  obtain ⟨htail, hshort⟩ := length_tailStrings h
  obtain ⟨htail', hshort'⟩ := length_tailStrings h'
  obtain ⟨hextra, hrest⟩ := encode_append_injective hshort hshort' hrest
  rw [strings_eq, strings_eq, hlead, hextra, strings_flatten_injective htail htail' hrest]

structure SameFields (h h' : BlockHeader) : Prop where
  fieldCount : forkFieldCount h.forkId = forkFieldCount h'.forkId
  parentHash : h.parentHash = h'.parentHash
  ommersHash : h.ommersHash = h'.ommersHash
  coinbase : h.coinbase = h'.coinbase
  stateRoot : h.stateRoot = h'.stateRoot
  transactionsRoot : h.transactionsRoot = h'.transactionsRoot
  receiptsRoot : h.receiptsRoot = h'.receiptsRoot
  logsBloom : h.logsBloom = h'.logsBloom
  difficulty : h.difficulty = h'.difficulty
  number : h.number = h'.number
  gasLimit : h.gasLimit = h'.gasLimit
  gasUsed : h.gasUsed = h'.gasUsed
  timestamp : h.timestamp = h'.timestamp
  extraData : h.extraData = h'.extraData
  prevRandao : h.prevRandao = h'.prevRandao
  nonce : h.nonce = h'.nonce
  baseFeePerGas : 16 ≤ forkFieldCount h.forkId → h.baseFeePerGas = h'.baseFeePerGas
  withdrawalsRoot : 17 ≤ forkFieldCount h.forkId → h.withdrawalsRoot = h'.withdrawalsRoot
  blobGasUsed : 20 ≤ forkFieldCount h.forkId → h.blobGasUsed = h'.blobGasUsed
  excessBlobGas : 20 ≤ forkFieldCount h.forkId → h.excessBlobGas = h'.excessBlobGas
  parentBeaconBlockRoot : 20 ≤ forkFieldCount h.forkId → h.parentBeaconBlockRoot = h'.parentBeaconBlockRoot
  requestsHash : 21 ≤ forkFieldCount h.forkId → h.requestsHash = h'.requestsHash
  blockAccessListHash : 23 ≤ forkFieldCount h.forkId → h.blockAccessListHash = h'.blockAccessListHash
  slotNumber : 23 ≤ forkFieldCount h.forkId → h.slotNumber = h'.slotNumber

theorem length_strings (h : BlockHeader) : (strings h).length = forkFieldCount h.forkId := by
  cases hfork : h.forkId <;> rw [strings, hfork] <;> rfl

theorem forkStrings_parts {n : Nat} (heq : forkStrings h n = forkStrings h' n) :
    (16 ≤ n → h.baseFeePerGas = h'.baseFeePerGas) ∧ (17 ≤ n → h.withdrawalsRoot = h'.withdrawalsRoot) ∧
      (20 ≤ n → h.blobGasUsed = h'.blobGasUsed ∧ h.excessBlobGas = h'.excessBlobGas ∧
        h.parentBeaconBlockRoot = h'.parentBeaconBlockRoot) ∧
      (21 ≤ n → h.requestsHash = h'.requestsHash) ∧
      (23 ≤ n → h.blockAccessListHash = h'.blockAccessListHash ∧ h.slotNumber = h'.slotNumber) := by
  have hpart : ∀ (c : Prop) [Decidable c] (xs ys : List Bytes), xs.length = ys.length →
      (if c then xs else []).length = (if c then ys else []).length := by
    intro c _ xs ys hlen
    split
    · exact hlen
    · rfl
  unfold forkStrings at heq
  obtain ⟨heq, hamsterdam⟩ := append_inj' heq (hpart _ _ _ rfl)
  obtain ⟨heq, hprague⟩ := append_inj' heq (hpart _ _ _ rfl)
  obtain ⟨heq, hcancun⟩ := append_inj' heq (hpart _ _ _ rfl)
  obtain ⟨hlondon, hshanghai⟩ := append_inj' heq (hpart _ _ _ rfl)
  refine ⟨fun hn => ?_, fun hn => ?_, fun hn => ?_, fun hn => ?_, fun hn => ?_⟩
  · rw [if_pos hn, if_pos hn] at hlondon
    exact beBytes_word_injective (List.cons.inj hlondon).1
  · rw [if_pos hn, if_pos hn] at hshanghai
    exact List.Vector.eq _ _ (List.cons.inj hshanghai).1
  · rw [if_pos hn, if_pos hn] at hcancun
    simp only [List.cons.injEq, and_true] at hcancun
    exact ⟨beBytes_u64_injective hcancun.1, beBytes_u64_injective hcancun.2.1, List.Vector.eq _ _ hcancun.2.2⟩
  · rw [if_pos hn, if_pos hn] at hprague
    exact List.Vector.eq _ _ (List.cons.inj hprague).1
  · rw [if_pos hn, if_pos hn] at hamsterdam
    simp only [List.cons.injEq, and_true] at hamsterdam
    exact ⟨List.Vector.eq _ _ hamsterdam.1, beBytes_u64_injective hamsterdam.2⟩

theorem sameFields (heq : encodeBlockHeaderRlp h = encodeBlockHeaderRlp h') : SameFields h h' := by
  have hstrings := strings_eq_of_encoding heq
  have hcount : forkFieldCount h.forkId = forkFieldCount h'.forkId := by
    rw [← length_strings, ← length_strings, hstrings]
  obtain ⟨hheader, hrest⟩ := append_inj hstrings rfl
  simp only [headerStrings, List.cons.injEq, and_true] at hheader
  obtain ⟨h₁, h₂, h₃, h₄, h₅, h₆, h₇, h₈, h₉, h₁₀, h₁₁, h₁₂, h₁₃, h₁₄, h₁₅⟩ := hheader
  rw [← hcount] at hrest
  obtain ⟨hlondon, hshanghai, hcancun, hprague, hamsterdam⟩ := forkStrings_parts hrest
  exact ⟨hcount, List.Vector.eq _ _ h₁, List.Vector.eq _ _ h₂, List.Vector.eq _ _ h₃, List.Vector.eq _ _ h₄,
    List.Vector.eq _ _ h₅, List.Vector.eq _ _ h₆, List.Vector.eq _ _ h₇, beBytes_word_injective h₈,
    beBytes_u64_injective h₉, beBytes_u64_injective h₁₀, beBytes_u64_injective h₁₁, beBytes_u64_injective h₁₂, h₁₃,
    List.Vector.eq _ _ h₁₄, List.Vector.eq _ _ h₁₅, hlondon, hshanghai, fun hn => (hcancun hn).1,
    fun hn => (hcancun hn).2.1, fun hn => (hcancun hn).2.2, hprague, fun hn => (hamsterdam hn).1,
    fun hn => (hamsterdam hn).2⟩

end Zeg.Header
