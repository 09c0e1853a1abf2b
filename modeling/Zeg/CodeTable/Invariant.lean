import Zeg.CodeTable.Settle

namespace Zeg.CodeTable

open Base AccessList List Function

section table

-- `Known` are the codes of the block: those of the input and those inserted.
variable (keccak : Bytes → Bytes32) (Known : Bytes → Prop)

structure TableInv (t : Contracts) : Prop where
  indexed : ∀ h i, t.index h = some i →
    ∃ c, t.contracts[i]? = some c ∧ c.hash = h ∧ keccak c.code = h ∧ Known c.code
  staged : ∀ (i : Nat) (c : Contract), t.contracts[i]? = some c → c.staged →
    t.index c.hash = some i ∧ ∃ r, ⟨i, r⟩ ∈ t.staged
  arena : ∀ (i : Nat) (c : Contract), t.contracts[i]? = some c → (c.home = .Arena ↔ c.staged)

-- The code installed on row `r` resolves to its own bytes, and if it is staged then
-- row `r` is one of its recorded owners.
def Bound (t : Contracts) (r : Nat) (code : Bytes) : Prop :=
  ∃ i c, t.index (keccak code) = some i ∧ t.contracts[i]? = some c ∧ c.code = code ∧
    (c.staged → ⟨i, r⟩ ∈ t.staged)

def Settled (t : Contracts) (h : Bytes32) : Prop :=
  ∃ i c, t.index h = some i ∧ t.contracts[i]? = some c ∧ c.staged = false

variable {keccak Known} {t : Contracts}

theorem TableInv.insert_cases (ht : TableInv keccak Known t) (h : Bytes32) (code : Bytes) (r : Nat) :
    (∃ i c, t.index h = some i ∧ t.contracts[i]? = some c ∧
        t.insert h code r =
          { t with staged := if c.staged then t.staged ++ [⟨i, r⟩] else t.staged }) ∨
      (t.index h = none ∧
        t.insert h code r =
          { contracts := t.contracts ++ [⟨h, code, .Arena, none, true⟩]
            index := Function.update t.index h (some t.contracts.length)
            staged := t.staged ++ [⟨t.contracts.length, r⟩] }) := by
  cases hi : t.index h with
  | none => exact .inr ⟨rfl, by simp [Contracts.insert, hi]⟩
  | some i =>
    obtain ⟨c, hc, _⟩ := ht.indexed h i hi
    refine .inl ⟨i, c, rfl, hc, ?_⟩
    cases hs : c.staged <;> simp [Contracts.insert, hi, hc, hs]

theorem getElem?_append_one {α : Type} {l : List α} {a c : α} {i : Nat} (h : (l ++ [a])[i]? = some c) :
    l[i]? = some c ∨ (i = l.length ∧ c = a) := by
  rcases Nat.lt_trichotomy i l.length with hlt | rfl | hgt
  · rw [List.getElem?_append_left hlt] at h
    exact .inl h
  · simp at h
    exact .inr ⟨rfl, h.symm⟩
  · rw [List.getElem?_append_right (by omega)] at h
    have : [a].length ≤ i - l.length := by simp; omega
    rw [List.getElem?_eq_none this] at h
    cases h

theorem getElem?_append_of_some {α : Type} {l : List α} {c : α} (k : List α) {i : Nat}
    (h : l[i]? = some c) : (l ++ k)[i]? = some c := by
  rw [List.getElem?_append_left (List.getElem?_eq_some_iff.mp h).1, h]

theorem TableInv.insert (ht : TableInv keccak Known t) (code : Bytes) (r : Nat) (hk : Known code) :
    TableInv keccak Known (t.insert (keccak code) code r) := by
  rcases ht.insert_cases (keccak code) code r with ⟨i, c, hi, hc, heq⟩ | ⟨hnone, heq⟩
  · rw [heq]
    refine ⟨ht.indexed, fun j d hd hs => ?_, ht.arena⟩
    obtain ⟨hidx, o, ho⟩ := ht.staged j d hd hs
    refine ⟨hidx, o, ?_⟩
    split
    · exact mem_append_left _ ho
    · exact ho
  · rw [heq]
    refine ⟨fun h j hj => ?_, fun j d hd hs => ?_, fun j d hd => ?_⟩
    · dsimp only at hj ⊢
      by_cases hh : h = keccak code
      · subst hh
        rw [update_self] at hj
        cases hj
        exact ⟨_, List.getElem?_concat_length, rfl, rfl, hk⟩
      · rw [update_of_ne hh] at hj
        obtain ⟨c, hc, hrest⟩ := ht.indexed h j hj
        exact ⟨c, getElem?_append_of_some _ hc, hrest⟩
    · dsimp only at hd ⊢
      rcases getElem?_append_one hd with hd | ⟨rfl, rfl⟩
      · obtain ⟨hidx, o, ho⟩ := ht.staged j d hd hs
        have hne : d.hash ≠ keccak code := by
          intro h
          rw [h, hnone] at hidx
          cases hidx
        exact ⟨by rw [update_of_ne hne, hidx], o, mem_append_left _ ho⟩
      · exact ⟨update_self .., r, by simp⟩
    · rcases getElem?_append_one hd with hd | ⟨rfl, rfl⟩
      · exact ht.arena j d hd
      · simp

-- Within a transaction the table only grows.
structure Carries (t t' : Contracts) : Prop where
  entry : ∀ (i : Nat) (c : Contract), t.contracts[i]? = some c → ∃ c', t'.contracts[i]? = some c' ∧
    c'.hash = c.hash ∧ c'.code = c.code ∧ c'.staged = c.staged
  index : ∀ h i, t.index h = some i → t'.index h = some i
  staged : ∀ s ∈ t.staged, s ∈ t'.staged

theorem Carries.bound {t' : Contracts} (hc : Carries t t') {r : Nat} {code : Bytes}
    (hb : Bound keccak t r code) : Bound keccak t' r code := by
  obtain ⟨i, c, hidx, hget, hcode, hrec⟩ := hb
  obtain ⟨c', hget', _, hcode', hst⟩ := hc.entry i c hget
  exact ⟨i, c', hc.index _ _ hidx, hget', hcode'.trans hcode, fun h => hc.staged _ (hrec (hst ▸ h))⟩

theorem Carries.settled {t' : Contracts} (hc : Carries t t') {h : Bytes32} (hs : Settled t h) :
    Settled t' h := by
  obtain ⟨i, c, hidx, hget, hst⟩ := hs
  obtain ⟨c', hget', _, _, hst'⟩ := hc.entry i c hget
  exact ⟨i, c', hc.index _ _ hidx, hget', hst'.trans hst⟩

theorem TableInv.carries_insert (ht : TableInv keccak Known t) (h : Bytes32) (code : Bytes) (r : Nat) :
    Carries t (t.insert h code r) := by
  rcases ht.insert_cases h code r with ⟨i, c, hi, hc, heq⟩ | ⟨hnone, heq⟩
  · rw [heq]
    refine ⟨fun _ d hd => ⟨d, hd, rfl, rfl, rfl⟩, fun _ _ hg => hg, fun s hs => ?_⟩
    split
    · exact mem_append_left _ hs
    · exact hs
  · rw [heq]
    refine ⟨fun j d hd => ⟨d, getElem?_append_of_some _ hd, rfl, rfl, rfl⟩, fun g j hg => ?_,
      fun s hs => mem_append_left _ hs⟩
    have hne : g ≠ h := by
      intro hgh
      rw [hgh, hnone] at hg
      cases hg
    exact (update_of_ne hne ..).trans hg

theorem setAnalysis_getElem? (i j : Nat) (a : Option Nat) :
    (t.setAnalysis i a).contracts[j]? =
      t.contracts[j]?.map fun c => if i = j then { c with analysis := a } else c := by
  simp [Contracts.setAnalysis, List.getElem?_modify]

theorem carries_setAnalysis (i : Nat) (a : Option Nat) : Carries t (t.setAnalysis i a) := by
  refine ⟨fun j c hc => ?_, fun _ _ h => h, fun _ h => h⟩
  rw [setAnalysis_getElem?, hc]
  refine ⟨_, rfl, ?_, ?_, ?_⟩ <;> split <;> rfl

theorem TableInv.setAnalysis (ht : TableInv keccak Known t) (i : Nat) (a : Option Nat) :
    TableInv keccak Known (t.setAnalysis i a) := by
  refine ⟨fun h j hj => ?_, fun j c hc hs => ?_, fun j c hc => ?_⟩
  · obtain ⟨c, hc, hh, hk, hknown⟩ := ht.indexed h j hj
    obtain ⟨c', hc', hh', hcode, _⟩ := (carries_setAnalysis i a).entry j c hc
    exact ⟨c', hc', hh'.trans hh, hcode ▸ hk, hcode ▸ hknown⟩
  · rw [setAnalysis_getElem?] at hc
    obtain ⟨c₀, hc₀, rfl⟩ := Option.map_eq_some_iff.mp hc
    have hsame : (if i = j then { c₀ with analysis := a } else c₀).staged = c₀.staged ∧
        (if i = j then { c₀ with analysis := a } else c₀).hash = c₀.hash := by
      split <;> exact ⟨rfl, rfl⟩
    rw [hsame.2]
    exact ht.staged j c₀ hc₀ (hsame.1 ▸ hs)
  · rw [setAnalysis_getElem?] at hc
    obtain ⟨c₀, hc₀, rfl⟩ := Option.map_eq_some_iff.mp hc
    split <;> exact ht.arena j c₀ hc₀

theorem TableInv.insert_bound (ht : TableInv keccak Known t)
    (hinj : ∀ a b, Known a → Known b → keccak a = keccak b → a = b) (code : Bytes) (r : Nat)
    (hk : Known code) : Bound keccak (t.insert (keccak code) code r) r code := by
  rcases ht.insert_cases (keccak code) code r with ⟨i, c, hi, hc, heq⟩ | ⟨hnone, heq⟩
  · rw [heq]
    obtain ⟨c', hc', _, hkc, hknown⟩ := ht.indexed _ _ hi
    rw [hc] at hc'
    cases hc'
    refine ⟨i, c, hi, hc, hinj _ _ hknown hk hkc, fun hst => ?_⟩
    simp [hst]
  · rw [heq]
    exact ⟨t.contracts.length, _, update_self .., List.getElem?_concat_length, rfl,
      fun _ => by simp⟩

end table

section settle

variable {keccak : Bytes → Bytes32} {Known : Bytes → Prop} {t : Contracts} (codeHashAt : Nat → Bytes32)

theorem settleStaged_getElem? (i : Nat) :
    (t.settleStaged codeHashAt).contracts[i]? = t.contracts[i]?.map fun c =>
      if KeptBy codeHashAt t.staged i c then c.keep
      else if ForgottenBy t.staged i c then c.forget else c := by
  simp only [Contracts.settleStaged]
  rw [forgetAll_getElem?, keepAll_getElem?, Option.map_map]
  congr 1
  funext c
  by_cases hk : KeptBy codeHashAt t.staged i c
  · have : ¬ ForgottenBy t.staged i c.keep := by simp [ForgottenBy]
    simp [hk, this]
  · simp [hk]

-- A hash keeps its place exactly when its entry was settled before or is kept now.
theorem TableInv.settle_index (ht : TableInv keccak Known t) {h : Bytes32} {i : Nat} {c : Contract}
    (hi : t.index h = some i) (hc : t.contracts[i]? = some c) :
    (t.settleStaged codeHashAt).index h =
      if c.staged = false ∨ KeptBy codeHashAt t.staged i c then some i else none := by
  have hhash : c.hash = h := by
    obtain ⟨c', hc', hh, _⟩ := ht.indexed h i hi
    rw [hc] at hc'
    cases hc'
    exact hh
  split
  · rename_i hkeep
    rw [← hi]
    refine forgetAll_index _ { t with contracts := t.staged.foldl (keepStaged codeHashAt) t.contracts } h ?_
    intro j d hd hf hdh
    rw [keepAll_getElem?] at hd
    obtain ⟨d₀, hd₀, rfl⟩ := Option.map_eq_some_iff.mp hd
    split at hf
    · simp [ForgottenBy] at hf
    · rename_i hnot
      rw [if_neg hnot] at hdh
      -- a staged entry is the one its hash is indexed to
      have hj := (ht.staged j d₀ hd₀ hf.1).1
      rw [hdh, hi] at hj
      cases hj
      rw [hc] at hd₀
      cases hd₀
      rcases hkeep with hst | hkept
      · exact absurd hf.1 (by simp [hst])
      · exact hnot hkept
  · rename_i hkeep
    have hst : c.staged = true := by
      by_contra hst
      exact hkeep (.inl (by simpa using hst))
    have hnot : ¬ KeptBy codeHashAt t.staged i c := fun hk => hkeep (.inr hk)
    obtain ⟨_, r, hr⟩ := ht.staged i c hc hst
    rw [← hhash]
    refine forgetAll_index_none _ _ (i := i) ?_ ⟨hst, _, hr, rfl⟩
    rw [keepAll_getElem?, hc, Option.map_some, if_neg hnot]

theorem settle_index_none {h : Bytes32} (hn : t.index h = none) :
    (t.settleStaged codeHashAt).index h = none :=
  forgetAll_index_of_none _ _ hn

theorem TableInv.settle_reachable (ht : TableInv keccak Known t) {h : Bytes32} {i : Nat}
    (hi : (t.settleStaged codeHashAt).index h = some i) :
    t.index h = some i ∧ ∃ c c', t.contracts[i]? = some c ∧
      (t.settleStaged codeHashAt).contracts[i]? = some c' ∧ c'.hash = c.hash ∧ c'.code = c.code ∧
      (c.staged = false ∨ KeptBy codeHashAt t.staged i c) := by
  cases hidx : t.index h with
  | none =>
    rw [settle_index_none codeHashAt hidx] at hi
    cases hi
  | some j =>
    obtain ⟨c, hc, _⟩ := ht.indexed h j hidx
    rw [ht.settle_index codeHashAt hidx hc] at hi
    split at hi
    · rename_i hkeep
      cases hi
      refine ⟨rfl, c, _, hc, by rw [settleStaged_getElem?, hc, Option.map_some], ?_, ?_, hkeep⟩
      · split
        · rfl
        · split <;> rfl
      · split
        · rfl
        · rename_i hnot
          have hst : c.staged = false := hkeep.resolve_right hnot
          rw [if_neg (by simp [ForgottenBy, hst])]
    · cases hi

theorem TableInv.settle_unstaged (ht : TableInv keccak Known t) {i : Nat} {c : Contract}
    (hc : (t.settleStaged codeHashAt).contracts[i]? = some c) : c.staged = false := by
  rw [settleStaged_getElem?] at hc
  obtain ⟨c₀, hc₀, rfl⟩ := Option.map_eq_some_iff.mp hc
  split
  · rfl
  · split
    · rfl
    · rename_i hnot
      by_contra hst
      obtain ⟨_, r, hr⟩ := ht.staged i c₀ hc₀ (by simpa using hst)
      exact hnot ⟨by simpa using hst, _, hr, rfl⟩

theorem TableInv.settle (ht : TableInv keccak Known t) :
    TableInv keccak Known (t.settleStaged codeHashAt) := by
  refine ⟨fun h i hi => ?_, fun i c hc hs => ?_, fun i c hc => ?_⟩
  · obtain ⟨hidx, c, c', hc, hc', hhash, hcode, _⟩ := ht.settle_reachable codeHashAt hi
    obtain ⟨d, hd, hdh, hdk, hknown⟩ := ht.indexed h i hidx
    rw [hc] at hd
    cases hd
    exact ⟨c', hc', hhash.trans hdh, hcode ▸ hdk, hcode ▸ hknown⟩
  · rw [ht.settle_unstaged codeHashAt hc] at hs
    cases hs
  · rw [ht.settle_unstaged codeHashAt hc]
    rw [settleStaged_getElem?] at hc
    obtain ⟨c₀, hc₀, rfl⟩ := Option.map_eq_some_iff.mp hc
    have harena := ht.arena i c₀ hc₀
    split
    · simp [Contract.keep]
    · split
      · simp [Contract.forget]
      · rename_i hnot
        constructor
        · intro hhome
          obtain ⟨_, r, hr⟩ := ht.staged i c₀ hc₀ (harena.mp hhome)
          exact absurd ⟨harena.mp hhome, _, hr, rfl⟩ hnot
        · intro hfalse
          cases hfalse

theorem TableInv.settled_settle (ht : TableInv keccak Known t) {h : Bytes32} (hs : Settled t h) :
    Settled (t.settleStaged codeHashAt) h := by
  obtain ⟨i, c, hi, hc, hst⟩ := hs
  refine ⟨i, c, ?_, ?_, hst⟩
  · rw [ht.settle_index codeHashAt hi hc, if_pos (.inl hst)]
  · rw [settleStaged_getElem?, hc, Option.map_some, if_neg (by simp [KeptBy, hst]),
      if_neg (by simp [ForgottenBy, hst])]

-- A bound owner that still has the hash keeps the code for the rest of the block.
theorem TableInv.bound_settle (ht : TableInv keccak Known t) {r : Nat} {code : Bytes}
    (hb : Bound keccak t r code) (hr : codeHashAt r = keccak code) :
    Bound keccak (t.settleStaged codeHashAt) r code ∧
      Settled (t.settleStaged codeHashAt) (keccak code) := by
  obtain ⟨i, c, hi, hc, hcode, hrec⟩ := hb
  have hkeep : c.staged = false ∨ KeptBy codeHashAt t.staged i c := by
    cases hst : c.staged with
    | false => exact .inl rfl
    | true =>
      obtain ⟨d, hd, hdh, _⟩ := ht.indexed _ _ hi
      rw [hc] at hd
      cases hd
      exact .inr ⟨hst, _, hrec hst, rfl, hr.trans hdh.symm⟩
  have hi' : (t.settleStaged codeHashAt).index (keccak code) = some i := by
    rw [ht.settle_index codeHashAt hi hc, if_pos hkeep]
  obtain ⟨_, d, c', hd, hc', _, hcode', _⟩ := ht.settle_reachable codeHashAt hi'
  rw [hc] at hd
  cases hd
  have hst := ht.settle_unstaged codeHashAt hc'
  exact ⟨⟨i, c', hi', hc', hcode'.trans hcode, by simp [hst]⟩, i, c', hi', hc', hst⟩

end settle

end Zeg.CodeTable
