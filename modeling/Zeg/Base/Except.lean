import Mathlib.Algebra.Group.Nat.Defs
import Mathlib.Data.Fin.Tuple.Basic

namespace Zeg.Base

variable {ε α β : Type}

theorem bind_eq_ok {x : Except ε α} {f : α → Except ε β} {b : β} :
    (x >>= f) = .ok b ↔ ∃ a, x = .ok a ∧ f a = .ok b := by
  cases x with
  | error e => exact ⟨nofun, fun ⟨_, h, _⟩ => nomatch h⟩
  | ok a => exact ⟨fun h => ⟨a, rfl, h⟩, fun ⟨_, h, hf⟩ => Except.ok.inj h ▸ hf⟩

theorem map_eq_ok {x : Except ε α} {f : α → β} {b : β} :
    x.map f = .ok b ↔ ∃ a, x = .ok a ∧ f a = b := by
  cases x with
  | error e => exact ⟨nofun, fun ⟨_, h, _⟩ => nomatch h⟩
  | ok a =>
    exact ⟨fun h => ⟨a, rfl, Except.ok.inj h⟩,
      fun ⟨_, h, hf⟩ => congrArg Except.ok (Except.ok.inj h ▸ hf)⟩

theorem map_eq_error {x : Except ε α} {f : α → β} {e : ε} : x.map f = .error e ↔ x = .error e := by
  cases x with
  | error e => exact ⟨fun h => congrArg Except.error (Except.error.inj h), fun h => congrArg Except.error (Except.error.inj h)⟩
  | ok a => exact ⟨nofun, nofun⟩

theorem mapM_eq_ok_map {f : α → Except ε β} {g : α → β} {xs : List α} (h : ∀ x ∈ xs, f x = .ok (g x)) :
    xs.mapM f = .ok (xs.map g) := by
  induction xs with
  | nil => rfl
  | cons x xs ih =>
    rw [List.mapM_cons, h x List.mem_cons_self, ih fun y hy => h y (List.mem_cons_of_mem x hy)]
    rfl

def collect : (n : Nat) → (Fin n → Except ε α) → Except ε (Fin n → α)
  | 0, _ => .ok Fin.elim0
  | n + 1, f => do
    let first ← f 0
    let rest ← collect n fun i => f i.succ
    return Fin.cons first rest

theorem collect_eq_ok {n : Nat} {f : Fin n → Except ε α} {g : Fin n → α} :
    collect n f = .ok g ↔ ∀ i, f i = .ok (g i) := by
  induction n with
  | zero => exact ⟨fun _ i => i.elim0, fun _ => congrArg Except.ok (funext fun i => i.elim0)⟩
  | succ n ih =>
    simp only [collect, bind_eq_ok, ih]
    constructor
    · rintro ⟨first, hfirst, rest, hrest, hg⟩
      cases hg
      intro i
      cases i using Fin.cases with
      | zero => exact hfirst
      | succ i => exact hrest i
    · intro h
      exact ⟨g 0, h 0, fun i => g i.succ, fun i => h i.succ,
        congrArg Except.ok (funext fun i => by cases i using Fin.cases <;> rfl)⟩

theorem collect_error {n : Nat} {f : Fin n → Except ε α} {k : Fin n} {e : ε} (hk : f k = .error e)
    (h : ∀ i, i ≠ k → ∃ a, f i = .ok a) : collect n f = .error e := by
  induction n with
  | zero => exact k.elim0
  | succ n ih =>
    cases k using Fin.cases with
    | zero => simp only [collect, hk, bind, Except.bind]
    | succ k =>
      obtain ⟨first, hfirst⟩ := h 0 (Fin.succ_ne_zero k).symm
      have hrest := ih (f := fun i => f i.succ) hk fun i hi => h i.succ fun heq => hi (Fin.succ_injective n heq)
      simp only [collect, hfirst, hrest, bind, Except.bind]

end Zeg.Base
