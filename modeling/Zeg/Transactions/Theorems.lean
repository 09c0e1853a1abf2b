import Zeg.Transactions.Canonical

-- Envelopes are canonical and unambiguous, and the lists they carry are walked without a halt.
namespace Zeg.Transactions

open Base RlpCodec List
open Base.Rlp hiding Item encode decode
open Gas (TxType)

section Walks

-- A loop goes through wherever another loop over the same items does.
theorem forItems_through {σ τ : Type} {check : σ → Item → Except String σ} {body : τ → Item → Except String τ}
    (hbody : ∀ s item s', check s item = .ok s' → ∀ t, ∃ t', body t item = .ok t') (fuel : Nat) {s s' : σ}
    {payload : Bytes} (h : forItems check fuel s payload = .ok s') (t : τ) :
    ∃ t', forItems body fuel t payload = .ok t' := by
  induction fuel generalizing s payload t with
  | zero =>
    obtain _ | ⟨b, payload⟩ := payload
    · exact ⟨t, rfl⟩
    · cases h
  | succ fuel ih =>
    obtain _ | ⟨b, payload⟩ := payload
    · exact ⟨t, rfl⟩
    · obtain ⟨⟨item, rest⟩, hnext, h⟩ := bind_eq_ok.1 h
      obtain ⟨s1, hcheck, h⟩ := bind_eq_ok.1 h
      obtain ⟨t1, ht1⟩ := hbody s item s1 hcheck t
      obtain ⟨t', ht'⟩ := ih h t1
      exact ⟨t', bind_eq_ok.2 ⟨(item, rest), hnext, bind_eq_ok.2 ⟨t1, ht1, ht'⟩⟩⟩

theorem nextRequired_next {remaining rest : Bytes} {item : Item}
    (h : nextRequired remaining = .ok (item, rest)) : remaining ≠ [] ∧ RlpCodec.next remaining = .ok (item, rest) := by
  refine ⟨?_, nextRequired_ok h⟩
  rintro rfl
  cases h

theorem validateEntry_ok {u u' : Unit} {entry : Item} (h : validateEntry u entry = .ok u') :
    entry.kind = .List ∧ ∃ addr keys remaining,
      (entry.payload ≠ [] ∧ RlpCodec.next entry.payload = .ok (addr, remaining)) ∧
      (addr.kind = .String ∧ addr.payload.length = 20) ∧
      (remaining ≠ [] ∧ RlpCodec.next remaining = .ok (keys, [])) ∧ keys.kind = .List ∧
      forPayload validateKey () keys.payload = .ok () := by
  unfold validateEntry at h
  split at h
  · cases h
  · rename_i hkind
    obtain ⟨⟨addr, remaining⟩, haddr, h⟩ := bind_eq_ok.1 h
    dsimp only at h
    split at h
    · cases h
    · rename_i hshape
      obtain ⟨⟨keys, rest⟩, hkeys, h⟩ := bind_eq_ok.1 h
      dsimp only at h
      split at h
      · cases h
      · rename_i hlist
        obtain ⟨_, hloop, h⟩ := bind_eq_ok.1 h
        split at h
        · cases h
        · rename_i hend
          rw [not_or, not_not, not_not] at hshape
          rw [not_not.1 hend] at hkeys
          exact ⟨not_not.1 hkind, addr, keys, remaining, nextRequired_next haddr, hshape,
            nextRequired_next hkeys, not_not.1 hlist, hloop⟩

theorem countKey_through (u : Unit) (key : Item) (u' : Unit) (_ : validateKey u key = .ok u') (counts : Nat × Nat) :
    ∃ counts', countKey counts key = .ok counts' := ⟨_, rfl⟩

theorem countEntry_through (u : Unit) (entry : Item) (u' : Unit) (h : validateEntry u entry = .ok u')
    (counts : Nat × Nat) : ∃ counts', countEntry counts entry = .ok counts' := by
  obtain ⟨hkind, addr, keys, remaining, ⟨hne, haddr⟩, _, ⟨hne', hkeys⟩, hlist, hloop⟩ := validateEntry_ok h
  obtain ⟨counts', hcount⟩ := forItems_through countKey_through _ hloop (counts.1 + 1, counts.2)
  refine ⟨counts', ?_⟩
  rw [countEntry, if_neg (not_not.2 hkind), if_neg hne]
  refine bind_eq_ok.2 ⟨_, haddr, ?_⟩
  dsimp only
  rw [if_neg hne']
  refine bind_eq_ok.2 ⟨_, hkeys, ?_⟩
  dsimp only
  rw [if_neg (not_not.2 hlist)]
  exact hcount

theorem warmKey_through (a : Address) (u : Unit) (key : Item) (u' : Unit) (h : validateKey u key = .ok u')
    (keys : List (Address × Option Bytes32)) : ∃ keys', warmKey a keys key = .ok keys' := by
  unfold validateKey at h
  split at h
  · cases h
  · rename_i hshape
    rw [not_or, not_not, not_not] at hshape
    exact ⟨_, by rw [warmKey, dif_pos hshape]⟩

theorem warmEntry_through (u : Unit) (entry : Item) (u' : Unit) (h : validateEntry u entry = .ok u')
    (keys : List (Address × Option Bytes32)) : ∃ keys', warmEntry keys entry = .ok keys' := by
  obtain ⟨hkind, addr, keysItem, remaining, ⟨hne, haddr⟩, hshape, ⟨hne', hkeys⟩, hlist, hloop⟩ :=
    validateEntry_ok h
  obtain ⟨keys', hwarm⟩ := forItems_through (warmKey_through ⟨addr.payload, hshape.2⟩) _ hloop
    (keys ++ [(⟨addr.payload, hshape.2⟩, none)])
  refine ⟨keys', ?_⟩
  rw [warmEntry, if_neg (not_not.2 hkind), if_neg hne]
  refine bind_eq_ok.2 ⟨_, haddr, ?_⟩
  dsimp only
  rw [dif_pos hshape, if_neg hne']
  refine bind_eq_ok.2 ⟨_, hkeys, ?_⟩
  dsimp only
  rw [if_neg (not_not.2 hlist)]
  exact hwarm

theorem validateAccessList_ok {raw : Bytes} (h : validateAccessList raw = .ok ()) :
    ∃ outer, decodeItem raw = .ok outer ∧ outer.kind = .List ∧
      forPayload validateEntry () outer.payload = .ok () := by
  obtain ⟨outer, houter, h⟩ := bind_eq_ok.1 h
  split at h
  · cases h
  · rename_i hkind
    exact ⟨outer, houter, not_not.1 hkind, h⟩

theorem countAccessList_through {v : View} (h : checkAccessList v = .ok ()) :
    ∃ counts, countAccessList v = .ok counts := by
  unfold checkAccessList at h
  unfold countAccessList
  split at h
  · rename_i hlegacy
    exact ⟨(0, 0), if_pos hlegacy⟩
  · rename_i hlegacy
    obtain ⟨outer, houter, hkind, hloop⟩ := validateAccessList_ok h
    obtain ⟨counts, hcount⟩ := forItems_through countEntry_through _ hloop (0, 0)
    refine ⟨counts, ?_⟩
    rw [if_neg hlegacy]
    refine bind_eq_ok.2 ⟨outer, houter, ?_⟩
    rw [if_neg (not_not.2 hkind)]
    exact hcount

theorem warmAccessList_through {v : View} (h : checkAccessList v = .ok ())
    (hlegacy : v.type = .Legacy → v.accessListRlp = []) : ∃ keys, warmAccessList v = .ok keys := by
  unfold warmAccessList
  split
  · exact ⟨[], rfl⟩
  · rename_i hne
    rw [checkAccessList, if_neg fun htype => hne (hlegacy htype)] at h
    obtain ⟨outer, houter, hkind, hloop⟩ := validateAccessList_ok h
    obtain ⟨keys, hwarm⟩ := forItems_through warmEntry_through _ hloop []
    refine ⟨keys, bind_eq_ok.2 ⟨outer, houter, ?_⟩⟩
    rw [if_neg (not_not.2 hkind)]
    exact hwarm

theorem validateAuthorization_ok {n n' : Nat} {tuple : Item} (h : validateAuthorization n tuple = .ok n') :
    tuple.kind = .List ∧ ∃ chainId addr nonce parity r s p1 p2 p3 p4 p5,
      nextRequired tuple.payload = .ok (chainId, p1) ∧ (∃ x, asU256 chainId = .ok x) ∧
      nextRequired p1 = .ok (addr, p2) ∧ (addr.kind = .String ∧ addr.payload.length = 20) ∧
      nextRequired p2 = .ok (nonce, p3) ∧ (∃ x, asU64 nonce = .ok x) ∧
      nextRequired p3 = .ok (parity, p4) ∧ (∃ x, asU64 parity = .ok x) ∧
      nextRequired p4 = .ok (r, p5) ∧ (∃ x, asU256 r = .ok x) ∧
      nextRequired p5 = .ok (s, []) ∧ ∃ x, asU256 s = .ok x := by
  unfold validateAuthorization at h
  split at h
  · cases h
  · rename_i hkind
    obtain ⟨⟨chainId, p1⟩, hchain, h⟩ := bind_eq_ok.1 h
    obtain ⟨c, hc, h⟩ := bind_eq_ok.1 h
    obtain ⟨⟨addr, p2⟩, haddr, h⟩ := bind_eq_ok.1 h
    dsimp only at h
    split at h
    · cases h
    · rename_i hshape
      obtain ⟨⟨nonce, p3⟩, hnonce, h⟩ := bind_eq_ok.1 h
      obtain ⟨m, hm, h⟩ := bind_eq_ok.1 h
      obtain ⟨⟨parity, p4⟩, hparity, h⟩ := bind_eq_ok.1 h
      dsimp only at h
      split at h
      · cases h
      · obtain ⟨y, hy, h⟩ := bind_eq_ok.1 h
        obtain ⟨⟨r, p5⟩, hr, h⟩ := bind_eq_ok.1 h
        obtain ⟨x, hx, h⟩ := bind_eq_ok.1 h
        obtain ⟨⟨s, p6⟩, hs, h⟩ := bind_eq_ok.1 h
        obtain ⟨z, hz, h⟩ := bind_eq_ok.1 h
        dsimp only at h
        split at h
        · cases h
        · rename_i hend
          rw [not_or, not_not, not_not] at hshape
          rw [not_not.1 hend] at hs
          exact ⟨not_not.1 hkind, chainId, addr, nonce, parity, r, s, p1, p2, p3, p4, p5, hchain, ⟨c, hc⟩, haddr,
            hshape, hnonce, ⟨m, hm⟩, hparity, ⟨y, hy⟩, hr, ⟨x, hx⟩, hs, z, hz⟩

theorem authNext_of_nextRequired {missing : String} {remaining rest : Bytes} {item : Item}
    (h : nextRequired remaining = .ok (item, rest)) : authNext missing remaining = .ok (item, rest) := by
  obtain ⟨hne, hnext⟩ := nextRequired_next h
  rw [authNext, if_neg hne, hnext]

-- The chain id was checked as 32 bytes at most; the later reader takes eight, or calls it a mismatch.
theorem chainId_through {item : Item} {w : Word} (h : asU256 item = .ok w) : ∃ n, authChainId item = .ok n := by
  unfold authChainId
  split
  · exact ⟨_, rfl⟩
  · rename_i hwide
    obtain ⟨n, hn, _⟩ := map_eq_ok.1 h
    unfold asInteger at hn
    split at hn
    · cases hn
    · rename_i hkind
      split at hn
      · cases hn
      · split at hn
        · cases hn
        · rename_i hlead
          have hshort : ¬ 8 < item.payload.length := fun hlong => hwide ⟨not_not.1 hkind, hlong⟩
          exact ⟨_, by rw [asU64, asInteger, if_neg hkind, if_neg hshort, if_neg hlead]; rfl⟩

theorem readAuthorization_through {n n' : Nat} {tuple : Item} (h : validateAuthorization n tuple = .ok n') :
    ∃ auth, readAuthorization tuple = .ok auth := by
  obtain ⟨_, chainId, addr, nonce, parity, r, s, p1, p2, p3, p4, p5, hchain, ⟨c, hc⟩, haddr, hshape, hnonce,
    ⟨m, hm⟩, hparity, ⟨y, hy⟩, hr, ⟨x, hx⟩, hs, z, hz⟩ := validateAuthorization_ok h
  obtain ⟨k, hk⟩ := chainId_through hc
  refine ⟨⟨k, ⟨addr.payload, hshape.2⟩, m, y, x, z⟩, ?_⟩
  refine bind_eq_ok.2 ⟨_, authNext_of_nextRequired hchain, bind_eq_ok.2 ⟨k, hk, ?_⟩⟩
  refine bind_eq_ok.2 ⟨_, authNext_of_nextRequired haddr, ?_⟩
  dsimp only
  rw [dif_pos hshape]
  refine bind_eq_ok.2 ⟨_, authNext_of_nextRequired hnonce, bind_eq_ok.2 ⟨m, hm, ?_⟩⟩
  refine bind_eq_ok.2 ⟨_, authNext_of_nextRequired hparity, bind_eq_ok.2 ⟨y, hy, ?_⟩⟩
  refine bind_eq_ok.2 ⟨_, authNext_of_nextRequired hr, bind_eq_ok.2 ⟨x, hx, ?_⟩⟩
  exact bind_eq_ok.2 ⟨_, authNext_of_nextRequired hs, bind_eq_ok.2 ⟨z, hz, rfl⟩⟩

theorem authorizationEntry_through (n : Nat) (tuple : Item) (n' : Nat) (h : validateAuthorization n tuple = .ok n')
    (auths : List Authorization) : ∃ auths', authorizationEntry auths tuple = .ok auths' := by
  obtain ⟨auth, hauth⟩ := readAuthorization_through h
  refine ⟨auths ++ [auth], ?_⟩
  rw [authorizationEntry, if_neg (not_not.2 (validateAuthorization_ok h).1), hauth]
  rfl

theorem authorizationList_through {v : View} {n : Nat} (h : countAuthorizations v = .ok n) :
    ∃ auths, authorizationList v = .ok auths := by
  unfold authorizationList
  split
  · exact ⟨[], rfl⟩
  · rename_i htype
    rw [countAuthorizations, if_pos (not_not.1 htype)] at h
    obtain ⟨outer, houter, h⟩ := bind_eq_ok.1 h
    split at h
    · cases h
    · rename_i hkind
      obtain ⟨auths, hauths⟩ := forItems_through authorizationEntry_through _ h []
      refine ⟨auths, bind_eq_ok.2 ⟨outer, houter, ?_⟩⟩
      rw [if_neg hkind]
      exact hauths

end Walks

section Huge

-- A legacy transaction without anything but data.
def legacyView (data : Bytes) : View := { View.init .Legacy with data := data, vOrYParity := 27, r := 1, s := 1 }

def strItem (bytes : Bytes) : Item := ⟨.String, encodeStr bytes, bytes⟩

theorem canonical_strItem {bytes : Bytes} (h : bytes.length < 2 ^ 64) : (strItem bytes).Canonical := ⟨h, rfl⟩

def legacyItems (data : Bytes) : List Item :=
  [strItem [], strItem [], strItem [], strItem [], strItem [], strItem data, strItem [27], strItem [1], strItem [1]]

def legacyEnvelope (data : Bytes) : Bytes := wrap ((legacyItems data).flatMap Item.raw)

theorem parse_cons {field : Field} {fields : List Field} {v v1 v' : View} {item : Item} {rest : Bytes}
    (hitem : item.Canonical) (hread : field.read v item = .ok v1) (h : parse fields v1 rest = .ok v') :
    parse (field :: fields) v (item.raw ++ rest) = .ok v' := by
  have hne : item.raw ++ rest ≠ [] := by
    intro hnil
    have := hitem.raw_pos
    rw [(append_eq_nil_iff.1 hnil).1] at this
    simp at this
  refine bind_eq_ok.2 ⟨(item, rest), ?_, bind_eq_ok.2 ⟨v1, hread, h⟩⟩
  rw [nextRequired, if_neg hne, next_append hitem]

theorem parse_legacyItems {data : Bytes} (hdata : data.length < 2 ^ 64) :
    parserOf .Legacy (View.init .Legacy) ((legacyItems data).flatMap Item.raw) = .ok (legacyView data) := by
  have hnil : (strItem []).Canonical := canonical_strItem (by simp)
  have hone : ∀ b : UInt8, (strItem [b]).Canonical := fun b => canonical_strItem (by simp)
  refine map_eq_ok.2 ⟨legacyView data, ?_, rfl⟩
  simp only [legacyItems, flatMap_cons, flatMap_nil]
  refine parse_cons hnil rfl (parse_cons hnil rfl (parse_cons hnil rfl (parse_cons hnil rfl (parse_cons hnil rfl ?_))))
  refine parse_cons (canonical_strItem hdata) rfl (parse_cons (hone 27) rfl (parse_cons (hone 1) rfl ?_))
  exact parse_cons (hone 1) rfl rfl

theorem readOuter_wrap {payload : Bytes} (hlen : payload.length < 2 ^ 64) : readOuter (wrap payload) = .ok payload := by
  have hdecode := @decodeItem_append ⟨.List, wrap payload, payload⟩ ⟨hlen, rfl⟩ []
  rw [append_nil] at hdecode
  refine bind_eq_ok.2 ⟨_, hdecode, ?_⟩
  simp

theorem length_legacyItems (data : Bytes) :
    ((legacyItems data).flatMap Item.raw).length = 8 + (encodeStr data).length := by
  simp only [legacyItems, strItem, flatMap_cons, flatMap_nil, length_append, length_nil]
  have hnil : (encodeStr []).length = 1 := rfl
  have h27 : (encodeStr [27]).length = 1 := rfl
  have h1 : (encodeStr [1]).length = 1 := rfl
  omega

theorem readEnvelope_legacy {data : Bytes} (hdata : (encodeStr data).length < 2 ^ 60) (hash : Bytes32)
    (sender : Address) :
    readEnvelope (fun _ => hash) (fun _ _ _ _ => some sender) (legacyEnvelope data) =
      .ok { legacyView data with envelope := legacyEnvelope data, transactionHash := hash, sender := sender } := by
  have hle := length_le_encodeStr data
  have hlen := length_legacyItems data
  have hparse := @parse_legacyItems data (by omega)
  have houter := @readOuter_wrap ((legacyItems data).flatMap Item.raw) (by omega)
  obtain ⟨b, rest, hwrap, hb⟩ := head_wrap ((legacyItems data).flatMap Item.raw) (by omega)
  have htype : typeOf b = .ok .Legacy := if_pos hb
  rw [hwrap] at houter
  rw [legacyEnvelope, hwrap]
  refine bind_eq_ok.2 ⟨_, htype, bind_eq_ok.2 ⟨_, houter, bind_eq_ok.2 ⟨_, hparse, ?_⟩⟩⟩
  refine bind_eq_ok.2 ⟨(), rfl, bind_eq_ok.2 ⟨0, rfl, bind_eq_ok.2 ⟨sender, ?_, rfl⟩⟩⟩
  refine bind_eq_ok.2 ⟨0, by simp [recoveryId, legacyView, View.init], ?_⟩
  rw [if_neg (by simp [legacyView, View.init, isCanonicalLowS, kSecp256k1NHalf])]

-- Four length bytes do not hold 2^32: the bytes signed are two shorter than the canonical encoding.
theorem length_signingPreimage_legacy {data : Bytes} (hdata : data.length = 2 ^ 32) :
    (signingPreimage (legacyView data)).length = 2 ^ 32 + 15 := by
  have hstr : (encode data).length = 2 ^ 32 + 5 := by
    have hheader : encode data = appendHeader 0x80 0xb7 data.length ++ data := by
      obtain _ | ⟨b, _ | ⟨c, rest⟩⟩ := data
      · rfl
      · simp at hdata
      · rfl
    rw [hheader, hdata, length_append, hdata]
    rfl
  have hitems : ((unsignedFields .Legacy).map (Field.encoding (legacyView data))).flatten.length = 2 ^ 32 + 10 := by
    simp only [unsignedFields, map_cons, map_nil, flatten_cons, flatten_nil, length_append,
      length_nil, Field.encoding, legacyView, View.init, hstr]
    rfl
  have hlist : signingPreimage (legacyView data) =
      encodeList ((unsignedFields .Legacy).map (Field.encoding (legacyView data)) ++ []) := rfl
  rw [hlist, append_nil, encodeList, encodeListPayload, hitems, length_append, hitems]
  rfl

theorem length_unsignedEncoding_legacy {data : Bytes} (hdata : data.length = 2 ^ 32) :
    (legacyView data).unsignedEncoding.length = 2 ^ 32 + 17 := by
  have hstr : (encodeStr data).length = 2 ^ 32 + 6 := by
    rw [encodeStr_of_length fun b hb => by simp [hb] at hdata, hdata, length_append, hdata]
    rfl
  have hitems : ((unsignedFields .Legacy).flatMap (Field.canonical (legacyView data))).length = 2 ^ 32 + 11 := by
    simp only [unsignedFields, flatMap_cons, flatMap_nil, length_append, length_nil,
      Field.canonical, legacyView, View.init, hstr]
    rfl
  have hlist : (legacyView data).unsignedEncoding =
      wrap ((unsignedFields .Legacy).flatMap (Field.canonical (legacyView data)) ++ []) := rfl
  rw [hlist, append_nil, wrap, hitems, length_append, hitems]
  rfl

-- What the constructor adds to the parsed fields enters neither encoding.
theorem signed_sealed {v : View} (env : Bytes) (hash : Bytes32) (sender : Address) :
    signingPreimage { v with envelope := env, transactionHash := hash, sender := sender } = signingPreimage v ∧
      View.unsignedEncoding { v with envelope := env, transactionHash := hash, sender := sender } =
        v.unsignedEncoding := ⟨rfl, rfl⟩

def hugeData : Bytes := List.replicate (2 ^ 32) 0

end Huge

-- A set-code transaction with one access-list entry and one authorization.
def setCodeEnvelope : Bytes :=
  0x04 :: Rlp.encode (.Lst
    [.Str [1], .Str [], .Str [1], .Str [2], .Str [0x52, 0x08], .Str (addressOf 7).toList, .Str [], .Str [0xff],
      .Lst [.Lst [.Str (addressOf 7).toList, .Lst [.Str (digestOf 9).toList]]],
      .Lst [.Lst [.Str [1], .Str (addressOf 8).toList, .Str [], .Str [], .Str [3], .Str [4]]],
      .Str [], .Str [5], .Str [6]])

def setCodeView : View :=
  { View.init .SetCode with
    chainId := 1, maxPriorityFeePerGas := 1, maxFeePerGas := 2, gasLimit := 0x5208, to? := some (addressOf 7)
    data := [0xff], r := 5, s := 6, numAuthorizations := 1, sender := addressOf 1, envelope := setCodeEnvelope
    accessListRlp := Rlp.encode (.Lst [.Lst [.Str (addressOf 7).toList, .Lst [.Str (digestOf 9).toList]]])
    authorizationListRlp := Rlp.encode
      (.Lst [.Lst [.Str [1], .Str (addressOf 8).toList, .Str [], .Str [], .Str [3], .Str [4]]]) }

end Zeg.Transactions
