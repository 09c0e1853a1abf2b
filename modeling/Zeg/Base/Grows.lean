import Mathlib.Data.List.Basic

-- A table that only gets rows appended, with the places of the new ones.
namespace Zeg.Base

variable {α : Type} {xs ys zs : List α} {P Q : Nat → α → Prop}

-- `P` holds exactly of the rows of `ys` beyond `xs`.
structure Grows (xs ys : List α) (P : Nat → α → Prop) : Prop where
  initial : xs <+: ys
  placed : ∀ i a, P i a ↔ xs.length ≤ i ∧ ys[i]? = some a

theorem Grows.refl (hP : ∀ i a, ¬P i a) : Grows xs xs P where
  initial := List.prefix_rfl
  placed := fun i a => by
    refine ⟨fun h => absurd h (hP i a), fun ⟨hle, hget⟩ => ?_⟩
    rw [List.getElem?_eq_none hle] at hget
    cases hget

theorem Grows.append (a : α) : Grows xs (xs ++ [a]) fun i b => i = xs.length ∧ b = a where
  initial := List.prefix_append xs [a]
  placed := fun i b => by
    constructor
    · rintro ⟨rfl, rfl⟩
      exact ⟨Nat.le_refl _, by simp⟩
    · rintro ⟨hle, hget⟩
      rw [List.getElem?_append_right hle] at hget
      have hlt : i - xs.length < 1 := (List.getElem?_eq_some_iff.1 hget).1
      have hzero : i - xs.length = 0 := by omega
      rw [hzero] at hget
      exact ⟨by omega, (Option.some.inj hget).symm⟩

theorem Grows.trans (h : Grows xs ys P) (h' : Grows ys zs Q) : Grows xs zs fun i a => P i a ∨ Q i a where
  initial := h.initial.trans h'.initial
  placed := fun i a => by
    obtain ⟨more, rfl⟩ := h'.initial
    have hlen := h.initial.length_le
    rw [h.placed, h'.placed]
    constructor
    · rintro (⟨hle, hget⟩ | ⟨hle, hget⟩)
      · have hlt := (List.getElem?_eq_some_iff.1 hget).1
        exact ⟨hle, (List.getElem?_append_left hlt).trans hget⟩
      · exact ⟨Nat.le_trans hlen hle, hget⟩
    · rintro ⟨hle, hget⟩
      by_cases hi : i < ys.length
      · rw [List.getElem?_append_left hi] at hget
        exact .inl ⟨hle, hget⟩
      · exact .inr ⟨Nat.le_of_not_lt hi, hget⟩

theorem Grows.congr (h : Grows xs ys P) (hPQ : ∀ i a, P i a ↔ Q i a) : Grows xs ys Q where
  initial := h.initial
  placed := fun i a => (hPQ i a).symm.trans (h.placed i a)

theorem Grows.eq_of_none (h : Grows xs ys P) (hP : ∀ i a, ¬P i a) : ys = xs := by
  obtain ⟨more, rfl⟩ := h.initial
  cases more with
  | nil => exact List.append_nil xs
  | cons a rest => exact absurd ((h.placed xs.length a).2 ⟨Nat.le_refl _, by simp⟩) (hP _ _)

theorem Grows.of_nil (h : Grows [] ys P) (i : Nat) (a : α) : P i a ↔ ys[i]? = some a := by
  rw [h.placed]
  simp

end Zeg.Base
