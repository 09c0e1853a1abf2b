import Mathlib.Data.List.OfFn
import Zeg.PayloadRequest.Trees

-- What a request's root commits to, where the hash has no collision among the pairs hashed.
namespace Zeg.PayloadRequest

open Base Base.Merkle Zeg.Stream Ssz Consensus List
open Transactions (View)

section

variable {sha256 : Bytes → Bytes32} {known : List (Chunk × Chunk)}
  (hinj : Set.InjOn (Function.uncurry (hash sha256)) { pair | pair ∈ known })

include hinj

theorem bytesTree_injective {bytes bytes' : Bytes} (hlen : bytes.length < 2 ^ 64) (hlen' : bytes'.length < 2 ^ 64)
    (h : (bytesTree bytes).pairs (hash sha256) ⊆ known) (h' : (bytesTree bytes').pairs (hash sha256) ⊆ known)
    (hroot : (bytesTree bytes).root (hash sha256) = (bytesTree bytes').root (hash sha256)) : bytes = bytes' := by
  have hcount : lengthMark bytes.length = lengthMark bytes'.length → bytes.length = bytes'.length :=
    uint64Root_ofNat hlen hlen'
  obtain ⟨hmark, hroots⟩ := marked_injective hinj
    (fun hmark => by rw [length_leaves, length_leaves, length_pack, length_pack, hcount hmark]) h h' hroot
  rw [leaves_roots, leaves_roots] at hroots
  exact pack_injective (hcount hmark) hroots

theorem listTree_injective {ts ts' : List (HashTree Chunk)} (hlen : ts.length < 2 ^ 64) (hlen' : ts'.length < 2 ^ 64)
    (h : (listTree ts).pairs (hash sha256) ⊆ known) (h' : (listTree ts').pairs (hash sha256) ⊆ known)
    (hroot : (listTree ts).root (hash sha256) = (listTree ts').root (hash sha256)) :
    ts.map (HashTree.root (hash sha256)) = ts'.map (HashTree.root (hash sha256)) :=
  (marked_injective hinj (uint64Root_ofNat hlen hlen') h h' hroot).2

theorem containerTree_injective {ts ts' : List (HashTree Chunk)} (hlen : ts.length = ts'.length)
    (h : (containerTree ts).pairs (hash sha256) ⊆ known) (h' : (containerTree ts').pairs (hash sha256) ⊆ known)
    (hroot : (containerTree ts).root (hash sha256) = (containerTree ts').root (hash sha256)) :
    ts.map (HashTree.root (hash sha256)) = ts'.map (HashTree.root (hash sha256)) :=
  (marked_injective hinj (fun _ => hlen) h h' hroot).2

theorem recordTree_injective {ts ts' : List (HashTree Chunk)} (hlen : ts.length = ts'.length) (hle : ts.length ≤ 2 ^ 64)
    (h : (recordTree ts).pairs (hash sha256) ⊆ known) (h' : (recordTree ts').pairs (hash sha256) ⊆ known)
    (hroot : (recordTree ts).root (hash sha256) = (recordTree ts').root (hash sha256)) :
    ts.map (HashTree.root (hash sha256)) = ts'.map (HashTree.root (hash sha256)) := by
  have hdepth : recordTree ts' = perfect zeroChunk (depthFor ts.length) ts' := by rw [recordTree, hlen]
  rw [hdepth] at h' hroot
  exact perfect_injective hinj hlen (le_two_pow_depthFor hle) h h' hroot

theorem withdrawalTree_injective {w w' : Withdrawal} (h : (withdrawalTree w).pairs (hash sha256) ⊆ known)
    (h' : (withdrawalTree w').pairs (hash sha256) ⊆ known)
    (hroot : (withdrawalTree w).root (hash sha256) = (withdrawalTree w').root (hash sha256)) : w = w' := by
  have hlen (v : Withdrawal) : (leaves (withdrawalFields v)).length = 4 := rfl
  have hroots := recordTree_injective hinj ((hlen w).trans (hlen w').symm) (by rw [hlen]; decide) h h' hroot
  rw [leaves_roots, leaves_roots] at hroots
  simp only [withdrawalFields, List.cons.injEq, and_true] at hroots
  obtain ⟨hindex, hvalidator, haddress, hamount⟩ := hroots
  have haddress : w.address = w'.address :=
    List.Vector.eq _ _ (bytesAt_injective (by simp) (by simp) haddress)
  exact Withdrawal.ext (uint64Root_injective hindex) (uint64Root_injective hvalidator) haddress
    (uint64Root_injective hamount)

theorem fieldTrees_injective {widths : List Nat} (hwidths : ∀ width ∈ widths, width ≤ 2 ^ 64) {record record' : Bytes}
    (hlen : widths.sum ≤ record.length) (hlen' : widths.sum ≤ record'.length)
    (h : ∀ t ∈ fieldTrees widths record, t.pairs (hash sha256) ⊆ known)
    (h' : ∀ t ∈ fieldTrees widths record', t.pairs (hash sha256) ⊆ known)
    (hroots : (fieldTrees widths record).map (HashTree.root (hash sha256)) =
      (fieldTrees widths record').map (HashTree.root (hash sha256))) :
    record.take widths.sum = record'.take widths.sum := by
  induction widths generalizing record record' with
  | nil => rfl
  | cons width widths ih =>
    rw [sum_cons] at hlen hlen' ⊢
    obtain ⟨hfirst, hrest⟩ := List.cons.inj hroots
    have hcut : (record.take width).length = (record'.take width).length := by
      rw [length_take, length_take]
      omega
    have hcount : (leaves (pack (record.take width))).length = (leaves (pack (record'.take width))).length := by
      rw [length_leaves, length_leaves, length_pack, length_pack, hcut]
    have hsmall : (leaves (pack (record.take width))).length ≤ 2 ^ 64 := by
      rw [length_leaves, length_pack]
      exact Nat.le_trans (chunkCount_le _) (Nat.le_trans (length_take_le _ _) (hwidths width mem_cons_self))
    have hpack := recordTree_injective hinj hcount hsmall (h _ mem_cons_self) (h' _ mem_cons_self) hfirst
    rw [leaves_roots, leaves_roots] at hpack
    have htail := ih (fun width hw => hwidths width (mem_cons_of_mem _ hw)) (by rw [length_drop]; omega)
      (by rw [length_drop]; omega) (fun t ht => h t (mem_cons_of_mem _ ht))
      (fun t ht => h' t (mem_cons_of_mem _ ht)) hrest
    rw [take_add, take_add, pack_injective hcut hpack, htail]

theorem requestTrees_injective {widths : List Nat} (hwidths : ∀ width ∈ widths, width ≤ 2 ^ 64)
    (hcount : widths.length ≤ 2 ^ 64) {n : Nat} {body body' : Bytes} (hlen : body.length = n * widths.sum)
    (hlen' : body'.length = n * widths.sum)
    (h : ∀ t ∈ requestTrees widths n body, t.pairs (hash sha256) ⊆ known)
    (h' : ∀ t ∈ requestTrees widths n body', t.pairs (hash sha256) ⊆ known)
    (hroots : (requestTrees widths n body).map (HashTree.root (hash sha256)) =
      (requestTrees widths n body').map (HashTree.root (hash sha256))) : body = body' := by
  induction n generalizing body body' with
  | zero =>
    rw [Nat.zero_mul] at hlen hlen'
    rw [length_eq_zero_iff.1 hlen, length_eq_zero_iff.1 hlen']
  | succ n ih =>
    rw [Nat.add_mul, Nat.one_mul] at hlen hlen'
    obtain ⟨hfirst, hrest⟩ := List.cons.inj hroots
    have hfields : (fieldTrees widths body).length ≤ 2 ^ depthFor (fieldTrees widths body).length :=
      le_two_pow_depthFor (by rw [length_fieldTrees]; exact hcount)
    have hfields' : (fieldTrees widths body').length ≤ 2 ^ depthFor (fieldTrees widths body').length :=
      le_two_pow_depthFor (by rw [length_fieldTrees]; exact hcount)
    have hrecord := recordTree_injective hinj (by rw [length_fieldTrees, length_fieldTrees])
      (by rw [length_fieldTrees]; exact hcount) (h _ mem_cons_self) (h' _ mem_cons_self) hfirst
    have htake := fieldTrees_injective hinj hwidths (by omega) (by omega)
      (fun t ht q hq => h _ mem_cons_self (pairs_perfect hfields ht hq))
      (fun t ht q hq => h' _ mem_cons_self (pairs_perfect hfields' ht hq)) hrecord
    have hdrop := ih (by rw [length_drop]; omega) (by rw [length_drop]; omega)
      (fun t ht => h t (mem_cons_of_mem _ ht)) (fun t ht => h' t (mem_cons_of_mem _ ht)) hrest
    rw [← take_append_drop widths.sum body, ← take_append_drop widths.sum body', htake, hdrop]

theorem requestListTree_injective {type : Fin 5} {body body' : Bytes} (hlen : body.length < 2 ^ 64)
    (hlen' : body'.length < 2 ^ 64) (hwhole : body.length % (widthsOf type).sum = 0)
    (hwhole' : body'.length % (widthsOf type).sum = 0)
    (h : (requestListTree (widthsOf type) body).pairs (hash sha256) ⊆ known)
    (h' : (requestListTree (widthsOf type) body').pairs (hash sha256) ⊆ known)
    (hroot : (requestListTree (widthsOf type) body).root (hash sha256) =
      (requestListTree (widthsOf type) body').root (hash sha256)) : body = body' := by
  have hwidths : ∀ type, (∀ width ∈ widthsOf type, width ≤ 2 ^ 64) ∧ (widthsOf type).length ≤ 2 ^ 64 := by decide
  have hroots := listTree_injective hinj
    (by rw [length_requestTrees]; exact Nat.lt_of_le_of_lt (Nat.div_le_self _ _) hlen)
    (by rw [length_requestTrees]; exact Nat.lt_of_le_of_lt (Nat.div_le_self _ _) hlen') h h' hroot
  have hcount := congrArg List.length hroots
  rw [length_map, length_map, length_requestTrees, length_requestTrees] at hcount
  have hbody := (Nat.div_mul_cancel (Nat.dvd_of_mod_eq_zero hwhole)).symm
  have hbody' := (Nat.div_mul_cancel (Nat.dvd_of_mod_eq_zero hwhole')).symm
  rw [requestListTree] at h h'
  rw [← hcount] at hroots hbody' h'
  exact requestTrees_injective hinj (hwidths type).1 (hwidths type).2 hbody hbody'
    (fun t ht q hq => h (pairs_marked ht hq)) (fun t ht q hq => h' (pairs_marked ht hq)) hroots

theorem requestsTree_injective {bodies bodies' : Fin 5 → Bytes} (hlen : ∀ type, (bodies type).length < 2 ^ 64)
    (hlen' : ∀ type, (bodies' type).length < 2 ^ 64)
    (hwhole : ∀ type, (bodies type).length % (widthsOf type).sum = 0)
    (hwhole' : ∀ type, (bodies' type).length % (widthsOf type).sum = 0)
    (h : (requestsTree bodies).pairs (hash sha256) ⊆ known) (h' : (requestsTree bodies').pairs (hash sha256) ⊆ known)
    (hroot : (requestsTree bodies).root (hash sha256) = (requestsTree bodies').root (hash sha256)) :
    bodies = bodies' := by
  have hroots := containerTree_injective hinj (by rw [length_ofFn, length_ofFn]) h h' hroot
  rw [map_ofFn, map_ofFn] at hroots
  funext type
  exact requestListTree_injective hinj (hlen type) (hlen' type) (hwhole type) (hwhole' type)
    (fun q hq => h (pairs_marked (mem_ofFn.2 ⟨type, rfl⟩) hq))
    (fun q hq => h' (pairs_marked (mem_ofFn.2 ⟨type, rfl⟩) hq)) (congrFun (ofFn_injective hroots) type)

theorem listTree_map_injective {β : Type} {f : β → HashTree Chunk} {xs ys : List β} (hlen : xs.length < 2 ^ 64)
    (hlen' : ys.length < 2 ^ 64) (h : (listTree (xs.map f)).pairs (hash sha256) ⊆ known)
    (h' : (listTree (ys.map f)).pairs (hash sha256) ⊆ known)
    (hroot : (listTree (xs.map f)).root (hash sha256) = (listTree (ys.map f)).root (hash sha256))
    (hf : ∀ x ∈ xs, ∀ y ∈ ys, (f x).pairs (hash sha256) ⊆ known → (f y).pairs (hash sha256) ⊆ known →
      (f x).root (hash sha256) = (f y).root (hash sha256) → x = y) : xs = ys := by
  have hroots := listTree_injective hinj (by rwa [length_map]) (by rwa [length_map]) h h' hroot
  rw [map_map, map_map] at hroots
  exact eq_of_map_eq (fun x hx y hy => hf x hx y hy (fun q hq => h (pairs_marked (mem_map_of_mem hx) hq))
    (fun q hq => h' (pairs_marked (mem_map_of_mem hy) hq))) hroots

theorem Contents.root_binding {c c' : Contents} (hfits : c.Fits) (hfits' : c'.Fits)
    (h : (c.tree sha256).pairs (hash sha256) ⊆ known) (h' : (c'.tree sha256).pairs (hash sha256) ⊆ known)
    {out : Bytes32} (hroot : c.root sha256 = .ok out) (hroot' : c'.root sha256 = .ok out) :
    c.blockHash = c'.blockHash ∧ c.txs.map View.envelope = c'.txs.map View.envelope ∧ c.withdrawals = c'.withdrawals ∧
      c.bodies = c'.bodies ∧ c.blockAccessListRlp = c'.blockAccessListRlp := by
  obtain ⟨rfl, hwhole⟩ := c.root_ok sha256 hfits hroot
  obtain ⟨hsame, hwhole'⟩ := c'.root_ok sha256 hfits' hroot'
  have hpart {t : HashTree Chunk} (ht : t ∈ c.parts sha256) : t.pairs (hash sha256) ⊆ known :=
    fun q hq => h (pairs_marked ht hq)
  have hpart' {t : HashTree Chunk} (ht : t ∈ c'.parts sha256) : t.pairs (hash sha256) ⊆ known :=
    fun q hq => h' (pairs_marked ht hq)
  have hlen (d : Contents) : (d.parts sha256).length = 4 := rfl
  have hparts := containerTree_injective hinj ((hlen c).trans (hlen c').symm) h h' hsame
  simp only [Contents.parts, map_cons, List.cons.injEq] at hparts
  obtain ⟨hpayload, _, _, hrequests, _⟩ := hparts
  have hlen (d : Contents) : (d.payloadParts sha256).length = 19 := rfl
  have hfields := containerTree_injective hinj ((hlen c).trans (hlen c').symm) (hpart (.head _)) (hpart' (.head _))
    hpayload
  simp only [Contents.payloadParts, map_cons, List.cons.injEq] at hfields
  obtain ⟨_, _, _, _, _, _, _, _, _, _, _, _, hblock, htxs, hwithdrawals, _, _, hlist, _⟩ := hfields
  have hfield {t : HashTree Chunk} (ht : t ∈ c.payloadParts sha256) : t.pairs (hash sha256) ⊆ known :=
    fun q hq => hpart (.head _) (pairs_marked ht hq)
  have hfield' {t : HashTree Chunk} (ht : t ∈ c'.payloadParts sha256) : t.pairs (hash sha256) ⊆ known :=
    fun q hq => hpart' (.head _) (pairs_marked ht hq)
  have henvelopes (d : Contents) :
      d.txs.map (fun tx => bytesTree tx.envelope) = (d.txs.map View.envelope).map bytesTree := by rw [map_map]; rfl
  refine ⟨hblock, ?_, ?_, ?_, ?_⟩
  · have htree := hfield (t := listTree (c.txs.map fun tx => bytesTree tx.envelope)) (by simp [Contents.payloadParts])
    have htree' := hfield' (t := listTree (c'.txs.map fun tx => bytesTree tx.envelope)) (by simp [Contents.payloadParts])
    rw [henvelopes] at htree htree'
    rw [henvelopes, henvelopes] at htxs
    refine listTree_map_injective hinj (by simpa using hfits.txs) (by simpa using hfits'.txs) htree htree' htxs ?_
    intro env henv env' henv' hpairs hpairs'
    obtain ⟨tx, htx, rfl⟩ := mem_map.1 henv
    obtain ⟨tx', htx', rfl⟩ := mem_map.1 henv'
    exact bytesTree_injective hinj (hfits.envelopes tx htx) (hfits'.envelopes tx' htx') hpairs hpairs'
  · exact listTree_map_injective hinj hfits.withdrawals hfits'.withdrawals (hfield (by simp [Contents.payloadParts]))
      (hfield' (by simp [Contents.payloadParts])) hwithdrawals fun _ _ _ _ => withdrawalTree_injective hinj
  · exact requestsTree_injective hinj hfits.bodies hfits'.bodies hwhole hwhole' (hpart (by simp [Contents.parts]))
      (hpart' (by simp [Contents.parts])) hrequests
  · exact bytesTree_injective hinj hfits.blockAccessListRlp hfits'.blockAccessListRlp
      (hfield (by simp [Contents.payloadParts])) (hfield' (by simp [Contents.payloadParts])) hlist

end

end Zeg.PayloadRequest
