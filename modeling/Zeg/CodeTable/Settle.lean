import Zeg.CodeTable
import Mathlib.Data.List.Basic

namespace Zeg.CodeTable

open Base AccessList List Function

@[simp] theorem Contract.keep_hash (c : Contract) : c.keep.hash = c.hash := rfl
@[simp] theorem Contract.keep_code (c : Contract) : c.keep.code = c.code := rfl
@[simp] theorem Contract.keep_staged (c : Contract) : c.keep.staged = false := rfl
@[simp] theorem Contract.keep_analysis (c : Contract) : c.keep.analysis = c.analysis := rfl
@[simp] theorem Contract.forget_hash (c : Contract) : c.forget.hash = c.hash := rfl
@[simp] theorem Contract.forget_staged (c : Contract) : c.forget.staged = false := rfl
@[simp] theorem Contract.forget_analysis (c : Contract) : c.forget.analysis = c.analysis := rfl

-- Entry `i` is kept by one of the records: some owner still has its hash.
def KeptBy (codeHashAt : Nat → Bytes32) (ss : List Staged) (i : Nat) (c : Contract) : Prop :=
  c.staged ∧ ∃ s ∈ ss, s.contract = i ∧ codeHashAt s.owner = c.hash

instance (codeHashAt : Nat → Bytes32) (ss : List Staged) (i : Nat) (c : Contract) :
    Decidable (KeptBy codeHashAt ss i c) :=
  inferInstanceAs (Decidable (_ ∧ _))

theorem keepStaged_getElem? (codeHashAt : Nat → Bytes32) (cs : List Contract) (s : Staged) (i : Nat) :
    (keepStaged codeHashAt cs s)[i]? =
      cs[i]?.map fun c => if KeptBy codeHashAt [s] i c then c.keep else c := by
  unfold keepStaged
  by_cases hi : s.contract = i
  · subst hi
    cases hc : cs[s.contract]? with
    | none => simp [hc]
    | some c =>
      have hlt : s.contract < cs.length := (List.getElem?_eq_some_iff.mp hc).1
      by_cases hk : c.staged ∧ codeHashAt s.owner = c.hash
      · have hkept : KeptBy codeHashAt [s] s.contract c := ⟨hk.1, s, by simp, rfl, hk.2⟩
        simp [hk, hkept, hlt]
      · have hkept : ¬ KeptBy codeHashAt [s] s.contract c := by
          rintro ⟨hst, t, ht, _, hh⟩
          rw [mem_singleton.mp ht] at hh
          exact hk ⟨hst, hh⟩
        simp [hk, hkept, hc]
  · have hkept : ∀ c, ¬ KeptBy codeHashAt [s] i c := by
      rintro c ⟨_, t, ht, hti, _⟩
      rw [mem_singleton.mp ht] at hti
      exact hi hti
    simp only [hkept, if_false, Option.map_id']
    split
    · split
      · exact List.getElem?_set_ne hi
      · rfl
    · rfl

theorem keepAll_getElem? (codeHashAt : Nat → Bytes32) (ss : List Staged) (cs : List Contract) (i : Nat) :
    (ss.foldl (keepStaged codeHashAt) cs)[i]? =
      cs[i]?.map fun c => if KeptBy codeHashAt ss i c then c.keep else c := by
  induction ss generalizing cs with
  | nil => simp [KeptBy]
  | cons s ss ih =>
    rw [foldl_cons, ih, keepStaged_getElem?, Option.map_map]
    congr 1
    funext c
    by_cases hs : KeptBy codeHashAt [s] i c
    · have hcons : KeptBy codeHashAt (s :: ss) i c := by
        obtain ⟨hst, t, ht, hti⟩ := hs
        exact ⟨hst, t, by simp_all, hti⟩
      have hnot : ¬ KeptBy codeHashAt ss i c.keep := by simp [KeptBy]
      simp [hs, hcons, hnot]
    · have hiff : KeptBy codeHashAt (s :: ss) i c ↔ KeptBy codeHashAt ss i c := by
        simp only [KeptBy, mem_cons] at hs ⊢
        grind
      simp [hs, hiff]

-- Entry `i` is forgotten: it is still staged and one of the records names it.
def ForgottenBy (ss : List Staged) (i : Nat) (c : Contract) : Prop :=
  c.staged ∧ ∃ s ∈ ss, s.contract = i

instance (ss : List Staged) (i : Nat) (c : Contract) : Decidable (ForgottenBy ss i c) :=
  inferInstanceAs (Decidable (_ ∧ _))

theorem forgetStaged_getElem? (t : Contracts) (s : Staged) (i : Nat) :
    (forgetStaged t s).contracts[i]? =
      t.contracts[i]?.map fun c => if ForgottenBy [s] i c then c.forget else c := by
  unfold forgetStaged
  by_cases hi : s.contract = i
  · subst hi
    cases hc : t.contracts[s.contract]? with
    | none => simp [hc]
    | some c =>
      have hlt : s.contract < t.contracts.length := (List.getElem?_eq_some_iff.mp hc).1
      by_cases hk : c.staged
      · simp [hk, ForgottenBy, hlt]
      · simp [hk, ForgottenBy, hc]
  · have hnot : ∀ c, ¬ ForgottenBy [s] i c := by
      intro c h
      simp [ForgottenBy, hi] at h
    simp only [hnot, if_false, Option.map_id']
    split
    · split
      · exact List.getElem?_set_ne hi
      · rfl
    · rfl

theorem forgetAll_getElem? (ss : List Staged) (t : Contracts) (i : Nat) :
    (ss.foldl forgetStaged t).contracts[i]? =
      t.contracts[i]?.map fun c => if ForgottenBy ss i c then c.forget else c := by
  induction ss generalizing t with
  | nil => simp [ForgottenBy]
  | cons s ss ih =>
    rw [foldl_cons, ih, forgetStaged_getElem?, Option.map_map]
    congr 1
    funext c
    by_cases hs : ForgottenBy [s] i c
    · have hcons : ForgottenBy (s :: ss) i c := by
        simp only [ForgottenBy, mem_cons] at hs ⊢
        grind
      have hnot : ¬ ForgottenBy ss i c.forget := by simp [ForgottenBy]
      simp [hs, hcons, hnot]
    · have hiff : ForgottenBy (s :: ss) i c ↔ ForgottenBy ss i c := by
        simp only [ForgottenBy, mem_cons] at hs ⊢
        grind
      simp [hs, hiff]

theorem forgetAll_index (ss : List Staged) (t : Contracts) (h : Bytes32)
    (hkeep : ∀ i c, t.contracts[i]? = some c → ForgottenBy ss i c → c.hash ≠ h) :
    (ss.foldl forgetStaged t).index h = t.index h := by
  induction ss generalizing t with
  | nil => rfl
  | cons s ss ih =>
    have hone : (forgetStaged t s).index h = t.index h := by
      unfold forgetStaged
      split
      · rename_i c hc
        split
        · rename_i hst
          exact update_of_ne (hkeep s.contract c hc ⟨hst, s, by simp, rfl⟩).symm ..
        · rfl
      · rfl
    rw [foldl_cons, ih, hone]
    intro i c hc hf
    rw [forgetStaged_getElem?] at hc
    obtain ⟨c₀, hc₀, rfl⟩ := Option.map_eq_some_iff.mp hc
    split at hf
    · simp [ForgottenBy] at hf
    · rename_i hnot
      rw [if_neg hnot]
      refine hkeep i c₀ hc₀ ⟨hf.1, ?_⟩
      obtain ⟨t, ht, hti⟩ := hf.2
      exact ⟨t, mem_cons_of_mem _ ht, hti⟩

theorem forgetStaged_index_none (t : Contracts) (s : Staged) {h : Bytes32} (hn : t.index h = none) :
    (forgetStaged t s).index h = none := by
  unfold forgetStaged
  split
  · rename_i c _
    split
    · by_cases hh : h = c.hash
      · subst hh
        exact update_self ..
      · rw [← hn]
        exact update_of_ne hh ..
    · exact hn
  · exact hn

theorem forgetAll_index_of_none (ss : List Staged) (t : Contracts) {h : Bytes32}
    (hn : t.index h = none) : (ss.foldl forgetStaged t).index h = none := by
  induction ss generalizing t with
  | nil => exact hn
  | cons s ss ih => exact ih _ (forgetStaged_index_none t s hn)

theorem forgetAll_index_none (ss : List Staged) (t : Contracts) {i : Nat} {c : Contract}
    (hc : t.contracts[i]? = some c) (hf : ForgottenBy ss i c) :
    (ss.foldl forgetStaged t).index c.hash = none := by
  induction ss generalizing t with
  | nil => simp [ForgottenBy] at hf
  | cons s ss ih =>
    rw [foldl_cons]
    by_cases hs : s.contract = i
    · apply forgetAll_index_of_none
      unfold forgetStaged
      subst hs
      simp only [hc, if_pos hf.1]
      exact update_self ..
    · refine ih (forgetStaged t s) ?_ ⟨hf.1, ?_⟩
      · rw [forgetStaged_getElem?, hc, Option.map_some, if_neg]
        simp [ForgottenBy, hs]
      · obtain ⟨r, hr, hri⟩ := hf.2
        rcases mem_cons.mp hr with rfl | hr
        · exact absurd hri hs
        · exact ⟨r, hr, hri⟩

end Zeg.CodeTable
