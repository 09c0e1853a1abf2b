import Zeg.Transactions

-- An accepted envelope is the canonical encoding of the fields it was read into.
namespace Zeg.Transactions

open Base RlpCodec List
open Base.Rlp hiding Item encode decode
open Gas (TxType)

def Field.canonical (v : View) : Field → Bytes
  | .ChainId => encodeStr (beBytes v.chainId.toNat)
  | .Nonce => encodeStr (beBytes v.nonce.toNat)
  | .GasPrice => encodeStr (beBytes v.gasPrice.toNat)
  | .MaxPriorityFeePerGas => encodeStr (beBytes v.maxPriorityFeePerGas.toNat)
  | .MaxFeePerGas => encodeStr (beBytes v.maxFeePerGas.toNat)
  | .GasLimit => encodeStr (beBytes v.gasLimit.toNat)
  | .To => encodeStr ((v.to?.map List.Vector.toList).getD [])
  | .Value => encodeStr (beBytes v.value.toNat)
  | .Data => encodeStr v.data
  | .AccessListRlp => v.accessListRlp
  | .MaxFeePerBlobGas => encodeStr (beBytes v.maxFeePerBlobGas.toNat)
  | .BlobVersionedHashesRlp => v.blobVersionedHashesRlp
  | .AuthorizationListRlp => v.authorizationListRlp
  | .InitcodesRlp => v.initcodesRlp
  | .VOrYParity => encodeStr (beBytes v.vOrYParity.toNat)
  | .R => encodeStr (beBytes v.r.toNat)
  | .S => encodeStr (beBytes v.s.toNat)

def unsignedFields : TxType → List Field
  | .Legacy => [.Nonce, .GasPrice, .GasLimit, .To, .Value, .Data]
  | .AccessList => [.ChainId, .Nonce, .GasPrice, .GasLimit, .To, .Value, .Data, .AccessListRlp]
  | .DynamicFee =>
    [.ChainId, .Nonce, .MaxPriorityFeePerGas, .MaxFeePerGas, .GasLimit, .To, .Value, .Data, .AccessListRlp]
  | .Blob =>
    [.ChainId, .Nonce, .MaxPriorityFeePerGas, .MaxFeePerGas, .GasLimit, .To, .Value, .Data, .AccessListRlp,
      .MaxFeePerBlobGas, .BlobVersionedHashesRlp]
  | .SetCode =>
    [.ChainId, .Nonce, .MaxPriorityFeePerGas, .MaxFeePerGas, .GasLimit, .To, .Value, .Data, .AccessListRlp,
      .AuthorizationListRlp]
  | .Osaka =>
    [.ChainId, .Nonce, .MaxPriorityFeePerGas, .MaxFeePerGas, .GasLimit, .To, .Value, .Data, .AccessListRlp,
      .InitcodesRlp]

def signatureFields : List Field := [.VOrYParity, .R, .S]

def typePrefix : TxType → Bytes
  | .Legacy => []
  | .AccessList => [0x01]
  | .DynamicFee => [0x02]
  | .Blob => [0x03]
  | .SetCode => [0x04]
  | .Osaka => [0x05]

def View.reencode (v : View) : Bytes :=
  typePrefix v.type ++ wrap ((unsignedFields v.type ++ signatureFields).flatMap (Field.canonical v))

def replayItems (v : View) : List Bytes :=
  if v.type = .Legacy ∧ 35 ≤ v.vOrYParity then [Field.canonical v .ChainId, encodeStr [], encodeStr []] else []

def View.unsignedEncoding (v : View) : Bytes :=
  typePrefix v.type ++ wrap ((unsignedFields v.type).flatMap (Field.canonical v) ++ (replayItems v).flatten)

def IsItem (bytes : Bytes) : Prop := ∃ item : Item, item.Canonical ∧ item.raw = bytes

theorem isItem_encodeStr {bytes : Bytes} (h : bytes.length < 2 ^ 64) : IsItem (encodeStr bytes) :=
  ⟨⟨.String, encodeStr bytes, bytes⟩, ⟨h, rfl⟩, rfl⟩

theorem encodeStr_injective {a b : Bytes} (ha : a.length < 2 ^ 64) (hb : b.length < 2 ^ 64)
    (h : encodeStr a = encodeStr b) : a = b := by
  have ha' := @decodeItem_append ⟨.String, encodeStr a, a⟩ ⟨ha, rfl⟩ []
  have hb' := @decodeItem_append ⟨.String, encodeStr b, b⟩ ⟨hb, rfl⟩ []
  dsimp only at ha' hb'
  rw [h, hb'] at ha'
  exact (congrArg Item.payload (Except.ok.inj ha')).symm

theorem isItems_injective {xs ys : List Bytes} (hxs : ∀ x ∈ xs, IsItem x) (hys : ∀ y ∈ ys, IsItem y)
    (h : xs.flatten = ys.flatten) : xs = ys := by
  choose! f hf using hxs
  choose! g hg using hys
  have hfx : ∀ {zs : List Bytes} {k : Bytes → Item}, (∀ z ∈ zs, (k z).Canonical ∧ (k z).raw = z) →
      (zs.map k).map Item.raw = zs := by
    intro zs k hk
    rw [map_map]
    exact (map_congr_left fun z hz => (hk z hz).2).trans (map_id zs)
  have heq : xs.map f = ys.map g := by
    apply items_injective
    · intro x hx
      obtain ⟨z, hz, rfl⟩ := mem_map.1 hx
      exact (hf z hz).1
    · intro y hy
      obtain ⟨z, hz, rfl⟩ := mem_map.1 hy
      exact (hg z hz).1
    · rw [flatMap_def, flatMap_def, hfx hf, hfx hg, h]
  rw [← hfx hf, ← hfx hg, heq]

theorem wrap_injective {a b : Bytes} (ha : a.length < 2 ^ 64) (hb : b.length < 2 ^ 64) (h : wrap a = wrap b) :
    a = b := by
  have ha' := @decodeItem_append ⟨.List, wrap a, a⟩ ⟨ha, rfl⟩ []
  have hb' := @decodeItem_append ⟨.List, wrap b, b⟩ ⟨hb, rfl⟩ []
  dsimp only at ha' hb'
  rw [h, hb'] at ha'
  exact (congrArg Item.payload (Except.ok.inj ha')).symm

def View.SameRest (v w : View) : Prop :=
  v.type = w.type ∧ v.numAuthorizations = w.numAuthorizations ∧ v.envelope = w.envelope ∧
    v.transactionHash = w.transactionHash ∧ v.sender = w.sender

structure Reads (field : Field) (v v' : View) (item : Item) : Prop where
  spells : field.canonical v' = item.raw
  others : ∀ g, g ≠ field → g.canonical v' = g.canonical v
  rest : v'.SameRest v

theorem raw_of_string {item : Item} (h : item.Canonical) (hkind : item.kind = .String) :
    item.raw = encodeStr item.payload := by
  rw [h.2, hkind]

theorem parseTo_ok {item : Item} {a : Option Address} (h : item.Canonical) (hto : parseTo item = .ok a) :
    encodeStr ((a.map List.Vector.toList).getD []) = item.raw := by
  unfold parseTo at hto
  split at hto
  · cases hto
  · rename_i hkind
    rw [raw_of_string h (not_not.1 hkind)]
    split at hto
    · rename_i hnil
      cases hto
      rw [hnil]
      rfl
    · split at hto
      · cases hto
        rfl
      · cases hto

theorem asBytes_ok {item : Item} {data : Bytes} (h : item.Canonical) (hdata : asBytes item = .ok data) :
    encodeStr data = item.raw := by
  unfold asBytes at hdata
  split at hdata
  · cases hdata
  · rename_i hkind
    cases hdata
    exact (raw_of_string h (not_not.1 hkind)).symm

theorem asListRaw_ok {item : Item} {raw : Bytes} (hraw : asListRaw item = .ok raw) : raw = item.raw := by
  unfold asListRaw at hraw
  split at hraw
  · cases hraw
  · cases hraw
    rfl

theorem asU64_spells {item : Item} {n : UInt64} (h : item.Canonical) (hn : asU64 item = .ok n) :
    encodeStr (beBytes n.toNat) = item.raw := by
  obtain ⟨hkind, hpayload⟩ := asU64_ok hn
  rw [raw_of_string h hkind, hpayload]

theorem asU256_spells {item : Item} {w : Word} (h : item.Canonical) (hw : asU256 item = .ok w) :
    encodeStr (beBytes w.toNat) = item.raw := by
  obtain ⟨hkind, hpayload⟩ := asU256_ok hw
  rw [raw_of_string h hkind, hpayload]

theorem read_ok {field : Field} {v v' : View} {item : Item} (hitem : item.Canonical)
    (h : field.read v item = .ok v') : Reads field v v' item := by
  cases field with
  | ChainId | Nonce | GasLimit | VOrYParity =>
    obtain ⟨x, hx, rfl⟩ := map_eq_ok.1 h
    refine ⟨asU64_spells hitem hx, fun g hg => ?_, rfl, rfl, rfl, rfl, rfl⟩
    cases g <;> first | rfl | exact absurd rfl hg
  | GasPrice | MaxPriorityFeePerGas | MaxFeePerGas | Value | MaxFeePerBlobGas | R | S =>
    obtain ⟨x, hx, rfl⟩ := map_eq_ok.1 h
    refine ⟨asU256_spells hitem hx, fun g hg => ?_, rfl, rfl, rfl, rfl, rfl⟩
    cases g <;> first | rfl | exact absurd rfl hg
  | AccessListRlp | BlobVersionedHashesRlp | AuthorizationListRlp | InitcodesRlp =>
    obtain ⟨x, hx, rfl⟩ := map_eq_ok.1 h
    refine ⟨asListRaw_ok hx, fun g hg => ?_, rfl, rfl, rfl, rfl, rfl⟩
    cases g <;> first | rfl | exact absurd rfl hg
  | To =>
    obtain ⟨x, hx, rfl⟩ := map_eq_ok.1 h
    refine ⟨parseTo_ok hitem hx, fun g hg => ?_, rfl, rfl, rfl, rfl, rfl⟩
    cases g <;> first | rfl | exact absurd rfl hg
  | Data =>
    obtain ⟨x, hx, rfl⟩ := map_eq_ok.1 h
    refine ⟨asBytes_ok hitem hx, fun g hg => ?_, rfl, rfl, rfl, rfl, rfl⟩
    cases g <;> first | rfl | exact absurd rfl hg

structure Parses (fields : List Field) (v v' : View) (payload : Bytes) : Prop where
  payload : payload = fields.flatMap (Field.canonical v')
  items : ∀ field ∈ fields, IsItem (field.canonical v')
  others : ∀ g, g ∉ fields → g.canonical v' = g.canonical v
  rest : v'.SameRest v

theorem nextRequired_ok {remaining rest : Bytes} {item : Item} (h : nextRequired remaining = .ok (item, rest)) :
    RlpCodec.next remaining = .ok (item, rest) := by
  unfold nextRequired at h
  split at h
  · cases h
  · exact h

theorem parse_ok {fields : List Field} (hfields : fields.Nodup) {v v' : View} {payload : Bytes}
    (h : parse fields v payload = .ok v') : Parses fields v v' payload := by
  induction fields generalizing v payload with
  | nil =>
    obtain ⟨_, hend, h⟩ := bind_eq_ok.1 h
    cases h
    unfold requireEnd at hend
    split at hend
    · cases hend
    · rename_i hnil
      exact ⟨not_not.1 hnil, nofun, fun _ _ => rfl, rfl, rfl, rfl, rfl, rfl⟩
  | cons field fields ih =>
    obtain ⟨⟨item, remaining⟩, hnext, h⟩ := bind_eq_ok.1 h
    obtain ⟨v1, hread, h⟩ := bind_eq_ok.1 h
    obtain ⟨hitem, hpayload⟩ := next_ok (nextRequired_ok hnext)
    obtain ⟨hspells, hothers, hrest⟩ := read_ok hitem hread
    obtain ⟨hnotin, hnodup⟩ := nodup_cons.1 hfields
    obtain ⟨hpay, hitems, hothers', hrest'⟩ := ih hnodup h
    have hfield : field.canonical v' = item.raw := (hothers' field hnotin).trans hspells
    refine ⟨?_, ?_, ?_, ?_⟩
    · rw [flatMap_cons, hfield, ← hpay, hpayload]
    · intro g hg
      rcases mem_cons.1 hg with rfl | hg
      · exact ⟨item, hitem, hfield.symm⟩
      · exact hitems g hg
    · intro g hg
      rw [mem_cons, not_or] at hg
      rw [hothers' g hg.2, hothers g hg.1]
    · obtain ⟨h1, h2, h3, h4, h5⟩ := hrest
      obtain ⟨k1, k2, k3, k4, k5⟩ := hrest'
      exact ⟨k1.trans h1, k2.trans h2, k3.trans h3, k4.trans h4, k5.trans h5⟩

-- Legacy transactions carry their chain id in v.
def withChainId (v : View) : View :=
  if v.type = .Legacy then { v with chainId := if 35 ≤ v.vOrYParity then (v.vOrYParity - 35) / 2 else 0 } else v

theorem nodup_fields (type : TxType) : (unsignedFields type ++ signatureFields).Nodup := by
  cases type <;> decide

theorem parserOf_typed {type : TxType} (h : type ≠ .Legacy) :
    parserOf type = parse (unsignedFields type ++ signatureFields) := by
  cases type <;> first | rfl | exact absurd rfl h

theorem parserOf_ok {type : TxType} {v v' : View} {payload : Bytes} (hv : v.type = type)
    (h : parserOf type v payload = .ok v') :
    ∃ w, parse (unsignedFields type ++ signatureFields) v payload = .ok w ∧ v' = withChainId w := by
  by_cases htype : type = .Legacy
  · subst htype
    obtain ⟨w, hw, rfl⟩ := map_eq_ok.1 h
    have hlegacy : w.type = .Legacy := (parse_ok (nodup_fields .Legacy) hw).rest.1.trans hv
    exact ⟨w, hw, by rw [withChainId, if_pos hlegacy]⟩
  · rw [parserOf_typed htype] at h
    have hv' : v'.type = type := (parse_ok (nodup_fields type) h).rest.1.trans hv
    exact ⟨v', h, by rw [withChainId, if_neg (hv' ▸ htype)]⟩

theorem canonical_withChainId (v : View) {g : Field} (hg : v.type = .Legacy → g ≠ .ChainId) :
    g.canonical (withChainId v) = g.canonical v := by
  unfold withChainId
  split
  · rename_i htype
    cases g <;> first | rfl | exact absurd rfl (hg htype)
  · rfl

theorem typeOf_ok {lead : UInt8} {tail : Bytes} {type : TxType} (h : typeOf lead = .ok type) :
    lead :: tail = typePrefix type ++ (if type = .Legacy then lead :: tail else tail) := by
  unfold typeOf at h
  split at h
  · cases h
    rfl
  · split at h
    · subst_vars
      cases h
      rfl
    · split at h
      · subst_vars
        cases h
        rfl
      · split at h
        · subst_vars
          cases h
          rfl
        · split at h
          · subst_vars
            cases h
            rfl
          · split at h
            · subst_vars
              cases h
              rfl
            · cases h

structure Accepted (env : Bytes) (v : View) : Prop where
  reencode : v.reencode = env
  envelope : v.envelope = env
  items : ∀ field ∈ unsignedFields v.type ++ signatureFields, IsItem (field.canonical v)
  others : ∀ g, g ∉ unsignedFields v.type ++ signatureFields → (v.type = .Legacy → g ≠ .ChainId) →
    g.canonical v = g.canonical (View.init v.type)
  chainId : v.type = .Legacy → v.chainId = if 35 ≤ v.vOrYParity then (v.vOrYParity - 35) / 2 else 0
  accessList : checkAccessList v = .ok ()
  authorizations : countAuthorizations v = .ok v.numAuthorizations
  recovery : ∃ id, recoveryId v = .ok id

theorem legacy_fields {type : TxType} {field : Field} (hfield : field ∈ unsignedFields type ++ signatureFields) :
    type = .Legacy → field ≠ .ChainId := by
  rintro rfl rfl
  exact absurd hfield (by decide)

theorem readOuter_ok {whole payload : Bytes} (h : readOuter whole = .ok payload) :
    whole = wrap payload ∧ payload.length < 2 ^ 64 := by
  obtain ⟨outer, houter, h⟩ := bind_eq_ok.1 h
  split at h
  · cases h
  · rename_i hkind
    split at h
    · cases h
    · rename_i hsize
      cases h
      obtain ⟨⟨hbound, hraw⟩, rest, hwhole⟩ := decodeItem_ok houter
      rw [not_not.1 hkind] at hraw
      refine ⟨?_, hbound⟩
      have hlen := congrArg List.length hwhole
      rw [length_append] at hlen
      have hrest : rest = [] := length_eq_zero_iff.1 (by omega)
      rw [hwhole, hrest, append_nil, hraw]

theorem canonical_of_sameFields {v w : View} (h : w = { v with
    numAuthorizations := w.numAuthorizations, envelope := w.envelope, transactionHash := w.transactionHash
    sender := w.sender }) (g : Field) : g.canonical w = g.canonical v := by
  rw [h]
  cases g <;> rfl

theorem accepted_of_readEnvelope {keccak : Bytes → Bytes32}
    {ecrecover : Bytes32 → Word → Word → Nat → Option Address} {env : Bytes} {v : View}
    (h : readEnvelope keccak ecrecover env = .ok v) : Accepted env v := by
  unfold readEnvelope at h
  obtain _ | ⟨lead, tail⟩ := env
  · cases h
  · obtain ⟨type, htype, h⟩ := bind_eq_ok.1 h
    obtain ⟨payload, houter, h⟩ := bind_eq_ok.1 h
    obtain ⟨v1, hparse, h⟩ := bind_eq_ok.1 h
    obtain ⟨_, hlist, h⟩ := bind_eq_ok.1 h
    obtain ⟨n, hauth, h⟩ := bind_eq_ok.1 h
    obtain ⟨sender, hsender, h⟩ := bind_eq_ok.1 h
    obtain ⟨w, hw, rfl⟩ := parserOf_ok (show (View.init type).type = type from rfl) hparse
    obtain ⟨hpayload, hitems, hothers, hrest⟩ := parse_ok (nodup_fields type) hw
    obtain ⟨hwhole, hbound⟩ := readOuter_ok houter
    have hwtype : w.type = type := hrest.1
    have hcanonical : ∀ g : Field, g.canonical v = g.canonical (withChainId w) := by
      cases h
      exact fun g => canonical_of_sameFields rfl g
    have hvtype : v.type = type := by
      cases h
      unfold withChainId
      split <;> exact hwtype
    have hfield : ∀ g : Field, (type = .Legacy → g ≠ .ChainId) → g.canonical v = g.canonical w := fun g hg =>
      (hcanonical g).trans (canonical_withChainId w (hwtype ▸ hg))
    refine ⟨?_, ?_, ?_, ?_, ?_, ?_, ?_, ?_⟩
    · have hflat : (unsignedFields type ++ signatureFields).flatMap (Field.canonical v) = payload := by
        rw [hpayload]
        exact flatMap_congr fun g hg => hfield g (legacy_fields hg)
      rw [View.reencode, hvtype, hflat, ← hwhole]
      exact (typeOf_ok htype).symm
    · cases h
      rfl
    · intro g hg
      rw [hvtype] at hg
      rw [hfield g (legacy_fields hg)]
      exact hitems g hg
    · intro g hg hlegacy
      rw [hvtype] at hg hlegacy ⊢
      rw [hfield g hlegacy, hothers g hg]
    · intro hlegacy
      rw [hvtype] at hlegacy
      cases h
      simp only [withChainId, hwtype, hlegacy, if_true]
    · cases h
      exact hlist
    · cases h
      exact hauth
    · obtain ⟨id, hid, _⟩ := bind_eq_ok.1 hsender
      cases h
      exact ⟨id, hid⟩

theorem length_canonical_le {env : Bytes} {v : View} (h : Accepted env v) {field : Field}
    (hfield : field ∈ unsignedFields v.type ++ signatureFields) : (field.canonical v).length ≤ env.length := by
  have hmem : field.canonical v ∈ (unsignedFields v.type ++ signatureFields).map (Field.canonical v) :=
    mem_map_of_mem hfield
  have hle := (sublist_flatten_of_mem hmem).length_le
  have hwrap := length_wrap ((unsignedFields v.type ++ signatureFields).flatMap (Field.canonical v))
  have hlen := congrArg List.length h.reencode
  rw [View.reencode, length_append] at hlen
  rw [flatMap_def] at hwrap hlen
  omega

theorem encoding_eq {v : View} (hdata : v.data.length < 2 ^ 32) (field : Field) :
    field.encoding v = field.canonical v := by
  have h64 : ∀ n : UInt64, encodeU64 n = encodeStr (beBytes n.toNat) := fun n =>
    encode_eq (Nat.lt_of_le_of_lt (length_beBytes_u64 n) (by decide))
  have h256 : ∀ w : Word, encodeU256 w = encodeStr (beBytes w.toNat) := fun w =>
    encode_eq (Nat.lt_of_le_of_lt (length_beBytes_word w) (by decide))
  cases field with
  | ChainId | Nonce | GasLimit | VOrYParity => exact h64 _
  | GasPrice | MaxPriorityFeePerGas | MaxFeePerGas | Value | MaxFeePerBlobGas | R | S => exact h256 _
  | AccessListRlp | BlobVersionedHashesRlp | AuthorizationListRlp | InitcodesRlp => rfl
  | Data => exact encode_eq hdata
  | To =>
    refine encode_eq ?_
    cases v.to? with
    | none => simp
    | some a => simp [a.toList_length]

theorem signingPreimage_eq_list (v : View) :
    signingPreimage v = typePrefix v.type ++
      encodeList ((unsignedFields v.type).map (Field.encoding v) ++
        if v.type = .Legacy ∧ 35 ≤ v.vOrYParity then [encodeU64 v.chainId, encodeU64 0, encodeU64 0] else []) := by
  unfold signingPreimage
  cases htype : v.type <;> simp [typePrefix, unsignedFields]

theorem length_beBytes_mono {a b : Nat} (hab : a ≤ b) (hb : b < 2 ^ 256) :
    (beBytes a).length ≤ (beBytes b).length := by
  have hlt := readBe_lt (beBytes b)
  rw [readBe_beBytes hb] at hlt
  exact length_beBytes_le _ (by omega)

theorem beBytes_small {n : Nat} (hpos : 0 < n) (hn : n < 256) : beBytes n = [UInt8.ofNat n] := by
  unfold beBytes
  rw [beBytesAux, if_neg (by omega), beBytesAux, if_pos (by omega)]

theorem length_encodeStr_small {bytes : Bytes} (hlen : bytes.length ≤ 55) :
    (encodeStr bytes).length ≤ 1 + bytes.length := by
  unfold encodeStr
  split
  · split <;> simp [header]
  · rw [header, if_pos hlen, length_append, length_singleton]

theorem length_encodeStr_mono {a b : Nat} (hab : a ≤ b) (hb : b < 2 ^ 64) :
    (encodeStr (beBytes a)).length ≤ (encodeStr (beBytes b)).length := by
  have ha8 : (beBytes a).length ≤ 8 := length_beBytes_le 8 (by omega)
  have hb8 : (beBytes b).length ≤ 8 := length_beBytes_le 8 (by omega)
  have hmono := length_beBytes_mono hab (by omega)
  have hpos := length_encodeStr (beBytes b)
  by_cases hsmall : b < 128
  · by_cases hzero : a = 0
    · subst hzero
      exact hpos
    · have hbyte : (UInt8.ofNat a).toNat = a := toNat_ofNat (by omega)
      rw [beBytes_small (by omega) (by omega), encodeStr, hbyte, if_pos (by omega)]
      exact hpos
  · have hsize : (encodeStr (beBytes a)).length ≤ 1 + (beBytes a).length := length_encodeStr_small (by omega)
    have hfull : (encodeStr (beBytes b)).length = 1 + (beBytes b).length := by
      rw [encodeStr_of_length, header, if_pos (by omega), length_append, length_singleton]
      intro c hc
      have hread := readBe_beBytes (n := b) (by omega)
      rw [hc] at hread
      simp [readBe] at hread
      omega
    omega

theorem length_unsigned_le {env : Bytes} {v : View} (h : Accepted env v) :
    ((unsignedFields v.type).flatMap (Field.canonical v) ++ (replayItems v).flatten).length ≤ env.length := by
  have hwrap := length_wrap ((unsignedFields v.type ++ signatureFields).flatMap (Field.canonical v))
  have hlen := congrArg List.length h.reencode
  rw [View.reencode, length_append, flatMap_append] at hlen
  rw [flatMap_append, length_append] at hwrap
  have hreplay : (replayItems v).flatten.length ≤ (signatureFields.flatMap (Field.canonical v)).length := by
    unfold replayItems
    split
    · rename_i hv
      have hchain : v.chainId.toNat ≤ v.vOrYParity.toNat := by
        rw [h.chainId hv.1, if_pos hv.2, UInt64.toNat_div, UInt64.toNat_sub_of_le _ _ hv.2]
        exact Nat.le_trans (Nat.div_le_self _ _) (Nat.sub_le _ _)
      have hmono := length_encodeStr_mono hchain v.vOrYParity.toNat_lt
      have hr := length_encodeStr (beBytes v.r.toNat)
      have hs := length_encodeStr (beBytes v.s.toNat)
      simp only [signatureFields, flatMap_cons, flatMap_nil, flatten_cons, flatten_nil,
        length_append, length_nil, Field.canonical]
      have hempty : (encodeStr []).length = 1 := rfl
      omega
    · simp
  rw [length_append]
  omega

theorem signingPreimage_eq {env : Bytes} {v : View} (h : Accepted env v) (hlen : env.length < 2 ^ 32) :
    signingPreimage v = v.unsignedEncoding := by
  have hdata : v.data.length < 2 ^ 32 := by
    have hfield : Field.Data ∈ unsignedFields v.type ++ signatureFields := by cases v.type <;> decide
    have hle := length_canonical_le h hfield
    have := length_le_encodeStr v.data
    exact Nat.lt_of_le_of_lt (Nat.le_trans this hle) hlen
  have hsize := length_unsigned_le h
  rw [signingPreimage_eq_list, View.unsignedEncoding]
  have hitems : ((unsignedFields v.type).map (Field.encoding v) ++
      if v.type = .Legacy ∧ 35 ≤ v.vOrYParity then [encodeU64 v.chainId, encodeU64 0, encodeU64 0] else []).flatten =
      (unsignedFields v.type).flatMap (Field.canonical v) ++ (replayItems v).flatten := by
    rw [flatten_append, ← flatMap_def]
    congr 1
    · exact flatMap_congr fun g _ => encoding_eq hdata g
    · unfold replayItems
      split
      · have hchain := encoding_eq hdata .ChainId
        have hzero : encodeU64 0 = encodeStr [] := rfl
        rw [← hchain, hzero]
        rfl
      · rfl
  rw [encodeList, hitems, encodeListPayload_eq (by omega)]

-- What a transaction commits to besides its signature.
def View.unsigned (v : View) : View :=
  { v with vOrYParity := 0, r := 0, s := 0, envelope := [], transactionHash := digestOf 0, sender := addressOf 0 }

def IsTypeByte (type : TxType) (b : UInt8) : Prop :=
  match type with
  | .Legacy => 0xc0 ≤ b
  | .AccessList => b = 0x01
  | .DynamicFee => b = 0x02
  | .Blob => b = 0x03
  | .SetCode => b = 0x04
  | .Osaka => b = 0x05

theorem typeByte_injective {type type' : TxType} {b : UInt8} (h : IsTypeByte type b) (h' : IsTypeByte type' b) :
    type = type' := by
  cases type <;> cases type' <;> first | rfl | (subst_vars; simp_all [IsTypeByte])

theorem head_wrap (payload : Bytes) (hlen : payload.length < 2 ^ 64) :
    ∃ b rest, wrap payload = b :: rest ∧ 0xc0 ≤ b := by
  unfold wrap header
  split
  · rename_i hshort
    refine ⟨_, _, rfl, ?_⟩
    rw [UInt8.le_iff_toNat_le, toNat_ofNat (by omega)]
    exact Nat.le_add_right _ _
  · rename_i hlong
    have hbe := length_beBytes (n := payload.length) (by omega) hlen
    refine ⟨_, _, rfl, ?_⟩
    rw [UInt8.le_iff_toNat_le, toNat_ofNat (by omega)]
    exact Nat.le_trans (by decide) (Nat.le_add_right _ _)

theorem head_unsignedEncoding {v : View} (payload : Bytes) (hlen : payload.length < 2 ^ 64) :
    ∃ b rest, typePrefix v.type ++ wrap payload = b :: rest ∧ IsTypeByte v.type b := by
  cases htype : v.type with
  | Legacy =>
    obtain ⟨b, rest, hwrap, hb⟩ := head_wrap payload hlen
    exact ⟨b, rest, hwrap, hb⟩
  | AccessList | DynamicFee | Blob | SetCode | Osaka => exact ⟨_, _, rfl, rfl⟩

theorem u64_of_encodeStr {a b : UInt64} (h : encodeStr (beBytes a.toNat) = encodeStr (beBytes b.toNat)) : a = b := by
  have ha := a.toNat_lt
  have hb := b.toNat_lt
  have ha8 := length_beBytes_u64 a
  have hb8 := length_beBytes_u64 b
  have hbytes := encodeStr_injective (by omega) (by omega) h
  exact UInt64.toNat_inj.1 (beBytes_injective (by omega) (by omega) hbytes)

theorem word_of_encodeStr {a b : Word} (h : encodeStr (beBytes a.toNat) = encodeStr (beBytes b.toNat)) : a = b := by
  have ha32 := length_beBytes_word a
  have hb32 := length_beBytes_word b
  have hbytes := encodeStr_injective (by omega) (by omega) h
  exact BitVec.eq_of_toNat_eq (beBytes_injective a.isLt b.isLt hbytes)

theorem to_of_encodeStr {a b : Option Address}
    (h : encodeStr ((a.map List.Vector.toList).getD []) = encodeStr ((b.map List.Vector.toList).getD [])) : a = b := by
  have hlen : ∀ c : Option Address, ((c.map List.Vector.toList).getD []).length < 2 ^ 64 := by
    intro c
    cases c with
    | none => simp
    | some a => simp [a.toList_length]
  have hbytes := encodeStr_injective (hlen a) (hlen b) h
  cases a with
  | none =>
    cases b with
    | none => rfl
    | some b =>
      have := congrArg List.length hbytes
      simp [b.toList_length] at this
  | some a =>
    cases b with
    | none =>
      have := congrArg List.length hbytes
      simp [a.toList_length] at this
    | some b => exact congrArg some (Subtype.ext hbytes)

theorem unsigned_of_canonical {v w : View} (htype : v.type = w.type) (hauth : v.numAuthorizations = w.numAuthorizations)
    (hv : v.data.length < 2 ^ 64) (hw : w.data.length < 2 ^ 64)
    (h : ∀ g : Field, g ∉ signatureFields → g.canonical v = g.canonical w) : v.unsigned = w.unsigned := by
  simp only [View.unsigned, View.mk.injEq, and_true]
  refine ⟨htype, ?_, ?_, ?_, ?_, ?_, ?_, ?_, ?_, ?_, ?_, ?_, ?_, ?_, hauth, ?_⟩
  · exact u64_of_encodeStr (h .ChainId (by decide))
  · exact u64_of_encodeStr (h .Nonce (by decide))
  · exact word_of_encodeStr (h .GasPrice (by decide))
  · exact word_of_encodeStr (h .MaxPriorityFeePerGas (by decide))
  · exact word_of_encodeStr (h .MaxFeePerGas (by decide))
  · exact u64_of_encodeStr (h .GasLimit (by decide))
  · exact to_of_encodeStr (h .To (by decide))
  · exact word_of_encodeStr (h .Value (by decide))
  · exact encodeStr_injective hv hw (h .Data (by decide))
  · exact h .AccessListRlp (by decide)
  · exact word_of_encodeStr (h .MaxFeePerBlobGas (by decide))
  · exact h .BlobVersionedHashesRlp (by decide)
  · exact h .AuthorizationListRlp (by decide)
  · exact h .InitcodesRlp (by decide)

theorem isItem_replay (v : View) : ∀ item ∈ replayItems v, IsItem item := by
  intro item hitem
  unfold replayItems at hitem
  split at hitem
  · have h8 := length_beBytes_u64 v.chainId
    rcases mem_cons.1 hitem with rfl | hitem
    · exact isItem_encodeStr (by omega)
    · have hempty : item = encodeStr [] := by simpa using hitem
      rw [hempty]
      exact isItem_encodeStr (by simp)
  · cases hitem

theorem length_data_le {env : Bytes} {v : View} (h : Accepted env v) : v.data.length ≤ env.length := by
  have hfield : Field.Data ∈ unsignedFields v.type ++ signatureFields := by cases v.type <;> decide
  exact Nat.le_trans (length_le_encodeStr v.data) (length_canonical_le h hfield)

theorem replay_chainId {env env' : Bytes} {v w : View} (hv : Accepted env v) (hw : Accepted env' w)
    (hvtype : v.type = .Legacy) (hwtype : w.type = .Legacy) (h : replayItems v = replayItems w) :
    v.chainId = w.chainId := by
  unfold replayItems at h
  by_cases hv35 : 35 ≤ v.vOrYParity
  · by_cases hw35 : 35 ≤ w.vOrYParity
    · rw [if_pos ⟨hvtype, hv35⟩, if_pos ⟨hwtype, hw35⟩] at h
      exact u64_of_encodeStr (List.cons.inj h).1
    · rw [if_pos ⟨hvtype, hv35⟩, if_neg fun hw => hw35 hw.2] at h
      cases h
  · by_cases hw35 : 35 ≤ w.vOrYParity
    · rw [if_neg fun hv => hv35 hv.2, if_pos ⟨hwtype, hw35⟩] at h
      cases h
    · rw [hv.chainId hvtype, hw.chainId hwtype, if_neg hv35, if_neg hw35]

theorem unsigned_injective {env env' : Bytes} {v w : View} (hv : Accepted env v) (hw : Accepted env' w)
    (henv : env.length < 2 ^ 64) (henv' : env'.length < 2 ^ 64) (h : v.unsignedEncoding = w.unsignedEncoding) :
    v.unsigned = w.unsigned := by
  have hvlen := length_unsigned_le hv
  have hwlen := length_unsigned_le hw
  unfold View.unsignedEncoding at h
  have htype : v.type = w.type := by
    obtain ⟨b, rest, hb, hbtype⟩ := @head_unsignedEncoding v _ (Nat.lt_of_le_of_lt hvlen henv)
    obtain ⟨c, rest', hc, hctype⟩ := @head_unsignedEncoding w _ (Nat.lt_of_le_of_lt hwlen henv')
    rw [hb, hc] at h
    obtain ⟨rfl, _⟩ := List.cons.inj h
    exact typeByte_injective hbtype hctype
  rw [htype] at h
  have hpayload := wrap_injective (Nat.lt_of_le_of_lt (htype ▸ hvlen) henv) (Nat.lt_of_le_of_lt hwlen henv')
    (append_cancel_left h)
  rw [flatMap_def, flatMap_def, ← flatten_append, ← flatten_append] at hpayload
  have hunsigned : ∀ {env : Bytes} {u : View}, Accepted env u → u.type = w.type →
      ∀ item ∈ (unsignedFields w.type).map (Field.canonical u) ++ replayItems u, IsItem item := by
    intro env u hu hut item hitem
    rcases mem_append.1 hitem with hitem | hitem
    · obtain ⟨g, hg, rfl⟩ := mem_map.1 hitem
      exact hu.items g (mem_append_left _ (hut ▸ hg))
    · exact isItem_replay u item hitem
  have hitems := isItems_injective (hunsigned hv htype) (hunsigned hw rfl) hpayload
  obtain ⟨hmap, hreplay⟩ := append_inj hitems (by simp)
  have hfields : ∀ g : Field, g ∉ signatureFields → g.canonical v = g.canonical w := by
    intro g hg
    by_cases hmem : g ∈ unsignedFields w.type
    · exact map_inj_left.1 hmap g hmem
    · have hnone : g ∉ unsignedFields w.type ++ signatureFields := by simp [hmem, hg]
      by_cases hchain : w.type = .Legacy ∧ g = .ChainId
      · obtain ⟨hlegacy, rfl⟩ := hchain
        exact congrArg (fun n : UInt64 => encodeStr (beBytes n.toNat))
          (replay_chainId hv hw (htype.trans hlegacy) hlegacy hreplay)
      · have hother : w.type = .Legacy → g ≠ .ChainId := fun hlegacy hg => hchain ⟨hlegacy, hg⟩
        rw [hv.others g (htype ▸ hnone) (htype ▸ hother), hw.others g hnone hother, htype]
  have hauth : v.numAuthorizations = w.numAuthorizations := by
    have hlist : v.authorizationListRlp = w.authorizationListRlp := hfields .AuthorizationListRlp (by decide)
    have hcount := hv.authorizations
    rw [countAuthorizations, htype, hlist] at hcount
    exact Except.ok.inj (hcount.symm.trans hw.authorizations)
  exact unsigned_of_canonical htype hauth (Nat.lt_of_le_of_lt (length_data_le hv) henv)
    (Nat.lt_of_le_of_lt (length_data_le hw) henv') hfields

end Zeg.Transactions
