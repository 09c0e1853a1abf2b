import Zeg.Base.Except
import Mathlib.Data.List.Nodup
import Mathlib.Data.List.Perm.Subperm

-- Walks over the rows of a table along untrusted links.
namespace Zeg.Base.Links

open List

variable {ε σ ρ κ : Type} {rows : List ρ} {next : ρ → Nat} {stop : Nat}

-- The rows met from a link up to the end mark, each with its place.
inductive Follows (rows : List ρ) (next : ρ → Nat) (stop : Nat) : Nat → List (ρ × Nat) → Prop where
  | Stop : Follows rows next stop stop []
  | Step {i : Nat} {row : ρ} {met : List (ρ × Nat)} (hi : i ≠ stop) (hrow : rows[i]? = some row)
      (hrest : Follows rows next stop (next row) met) : Follows rows next stop i ((row, i) :: met)

-- `unseen` counts down from the number of rows, so links that form a cycle run out of it.
def walk (rows : List ρ) (next : ρ → Nat) (stop : Nat) (bad : ε) (visit : σ → ρ × Nat → Except ε σ) :
    Nat → Nat → σ → Except ε (Nat × σ)
  | unseen, i, s =>
    if i = stop then .ok (unseen, s)
    else
      match unseen, rows[i]? with
      | unseen + 1, some row => do walk rows next stop bad visit unseen (next row) (← visit s (row, i))
      | _, _ => .error bad

theorem Follows.mem_rows {i : Nat} {met : List (ρ × Nat)} (h : Follows rows next stop i met) {v : ρ × Nat}
    (hv : v ∈ met) : v ∈ rows.zipIdx := by
  induction h with
  | Stop => cases hv
  | Step hi hrow hrest ih =>
    rcases mem_cons.1 hv with rfl | hv
    · exact mem_zipIdx_iff_getElem?.2 hrow
    · exact ih hv

section

variable {bad : ε} {visit : σ → ρ × Nat → Except ε σ}

theorem walk_of_follows {i unseen : Nat} {met : List (ρ × Nat)} (h : Follows rows next stop i met)
    (hlen : met.length ≤ unseen) (s : σ) :
    walk rows next stop bad visit unseen i s =
      (met.foldlM visit s).map fun s => (unseen - met.length, s) := by
  induction h generalizing unseen s with
  | Stop =>
    unfold walk
    rw [if_pos rfl]
    rfl
  | @Step i row met hi hrow hrest ih =>
    obtain _ | unseen := unseen
    · simp at hlen
    · unfold walk
      simp only [if_neg hi, hrow, foldlM_cons, length_cons]
      cases hvisit : visit s (row, i) with
      | error e => rfl
      | ok s1 =>
        have hrest := ih (by simpa using hlen) s1
        simpa [bind, Except.bind] using hrest

theorem follows_of_walk {unseen i left : Nat} {s s' : σ}
    (h : walk rows next stop bad visit unseen i s = .ok (left, s')) :
    ∃ met, Follows rows next stop i met ∧ met.length + left = unseen ∧ met.foldlM visit s = .ok s' := by
  induction unseen generalizing i s with
  | zero =>
    unfold walk at h
    split at h
    · rename_i hi
      subst hi
      cases h
      exact ⟨[], .Stop, rfl, rfl⟩
    · cases h
  | succ unseen ih =>
    unfold walk at h
    split at h
    · rename_i hi
      subst hi
      cases h
      exact ⟨[], .Stop, by simp, rfl⟩
    · rename_i hi
      cases hrow : rows[i]? with
      | none => simp [hrow] at h
      | some row =>
        simp only [hrow] at h
        obtain ⟨s1, hvisit, h⟩ := bind_eq_ok.1 h
        obtain ⟨met, hmet, hlen, hfold⟩ := ih h
        refine ⟨(row, i) :: met, .Step hi hrow hmet, ?_, ?_⟩
        · simp only [length_cons]
          omega
        · rw [foldlM_cons, hvisit]
          exact hfold

theorem walk_eq_error {I : σ → Prop} (hstep : ∀ s v s', I s → visit s v = .ok s' → I s') {unseen i : Nat} {s : σ}
    {e : ε} (hs : I s) (h : walk rows next stop bad visit unseen i s = .error e) :
    e = bad ∨ ∃ s v, I s ∧ v ∈ rows.zipIdx ∧ visit s v = .error e := by
  induction unseen generalizing i s with
  | zero =>
    unfold walk at h
    split at h
    · cases h
    · cases h
      exact .inl rfl
  | succ unseen ih =>
    unfold walk at h
    split at h
    · cases h
    · cases hrow : rows[i]? with
      | none =>
        simp only [hrow] at h
        cases h
        exact .inl rfl
      | some row =>
        simp only [hrow] at h
        cases hvisit : visit s (row, i) with
        | error e' =>
          rw [hvisit] at h
          cases h
          exact .inr ⟨s, (row, i), hs, mem_zipIdx_iff_getElem?.2 hrow, hvisit⟩
        | ok s1 =>
          rw [hvisit] at h
          exact ih (hstep s _ s1 hs hvisit) h

end

-- A walk without repetition that meets as many rows as there are meets them all.
theorem perm_rows {met : List (ρ × Nat)} (hnodup : met.Nodup) (hmem : ∀ v ∈ met, v ∈ rows.zipIdx)
    (hlen : met.length = rows.length) : met.Perm rows.zipIdx :=
  (hnodup.subperm hmem).perm_of_length_le (by simp [hlen])

theorem nodup_rows : rows.zipIdx.Nodup :=
  .of_map Prod.snd (by simpa [zipIdx_map_snd] using nodup_range')

section

variable [LT κ]

-- Each key after the one before it, and the first after `prev`.
def Ascending (prev : Option κ) (keys : List κ) : Prop := (prev.toList ++ keys).IsChain (· < ·)

theorem ascending_nil (prev : Option κ) : Ascending prev [] := by cases prev <;> simp [Ascending]

theorem ascending_cons {prev : Option κ} {key : κ} {keys : List κ} :
    Ascending prev (key :: keys) ↔ (∀ p ∈ prev, p < key) ∧ Ascending (some key) keys := by
  cases prev with
  | none => simp [Ascending]
  | some p => simp [Ascending, isChain_cons_cons]

theorem ascending_none [Trans (α := κ) (· < ·) (· < ·) (· < ·)] {keys : List κ} :
    Ascending none keys ↔ keys.Pairwise (· < ·) := isChain_iff_pairwise

end

end Zeg.Base.Links
