import Zeg.Base.Except

-- Machines that step until they halt, and machines that take several of those steps at once.
namespace Zeg.Base.Steps

open Base

variable {α ρ : Type} {step fused : α → Except ρ α} {a : α} {r r' : ρ}

-- `error` is the result that the machine halts with.
def steps (step : α → Except ρ α) : Nat → α → Except ρ α
  | 0, a => .ok a
  | n + 1, a => step a >>= steps step n

theorem steps_add (m n : Nat) (a : α) : steps step (m + n) a = steps step m a >>= steps step n := by
  induction m generalizing a with
  | zero =>
    rw [Nat.zero_add]
    rfl
  | succ m ih =>
    rw [Nat.succ_add, steps, steps]
    cases step a with
    | error r => rfl
    | ok b => exact ih b

theorem steps_halted {m n : Nat} (h : steps step m a = .error r) (hle : m ≤ n) : steps step n a = .error r := by
  obtain ⟨k, rfl⟩ := Nat.exists_eq_add_of_le hle
  rw [steps_add, h]
  rfl

theorem halts_unique {m n : Nat} (h : steps step m a = .error r) (h' : steps step n a = .error r') : r = r' := by
  have hm := steps_halted h (Nat.le_max_left m n)
  have hn := steps_halted h' (Nat.le_max_right m n)
  exact Except.error.inj (hm.symm.trans hn)

-- Every step of `fused` is one or more steps of `step`.
def Fuses (step fused : α → Except ρ α) : Prop := ∀ a, ∃ n, fused a = steps step (n + 1) a

theorem Fuses.halts (hf : Fuses step fused) {n : Nat} (h : steps fused n a = .error r) :
    ∃ m, steps step m a = .error r := by
  induction n generalizing a with
  | zero => cases h
  | succ n ih =>
    obtain ⟨k, hk⟩ := hf a
    rw [steps, hk] at h
    cases hrun : steps step (k + 1) a with
    | error r' =>
      rw [hrun] at h
      cases h
      exact ⟨k + 1, hrun⟩
    | ok b =>
      rw [hrun] at h
      obtain ⟨m, hm⟩ := ih h
      refine ⟨k + 1 + m, ?_⟩
      rw [steps_add, hrun]
      exact hm

section Decreasing

variable {size : α → Nat} (hsize : ∀ a b, step a = .ok b → size b < size a)

include hsize

theorem steps_decrease {n : Nat} {b : α} (h : steps step (n + 1) a = .ok b) : size b < size a := by
  induction n generalizing a with
  | zero =>
    obtain ⟨c, hstep, hb⟩ := bind_eq_ok.mp h
    cases hb
    exact hsize a b hstep
  | succ n ih =>
    obtain ⟨c, hstep, hrest⟩ := bind_eq_ok.mp h
    exact Nat.lt_trans (ih hrest) (hsize a c hstep)

theorem halts_within {n : Nat} (hn : size a < n) : ∃ r, steps step n a = .error r := by
  induction n generalizing a with
  | zero => omega
  | succ n ih =>
    rw [steps]
    cases hstep : step a with
    | error r => exact ⟨r, rfl⟩
    | ok b =>
      have hb := hsize a b hstep
      exact ih (by omega)

theorem Fuses.agree (hf : Fuses step fused) (a : α) :
    ∃ r, ∀ n, size a < n → steps step n a = .error r ∧ steps fused n a = .error r := by
  have hfused : ∀ a b, fused a = .ok b → size b < size a := by
    intro a b hb
    obtain ⟨n, hn⟩ := hf a
    exact steps_decrease hsize (hn.symm.trans hb)
  obtain ⟨r, hr⟩ := halts_within hsize (Nat.lt_succ_self (size a))
  obtain ⟨r', hr'⟩ := halts_within hfused (Nat.lt_succ_self (size a))
  obtain ⟨m, hm⟩ := hf.halts hr'
  obtain rfl := halts_unique hr hm
  exact ⟨r, fun n hn => ⟨steps_halted hr hn, steps_halted hr' hn⟩⟩

end Decreasing

end Zeg.Base.Steps
