import Mathlib.Algebra.Group.Nat.Defs
import Mathlib.Logic.Function.Basic
import Mathlib.Tactic.Common

-- Flat memory as a function from offsets to bytes, with the block operations of
-- the C library on it.
namespace Zeg.Base

variable {α : Type*}

def fill (f : Nat → α) (lo hi : Nat) (v : α) : Nat → α :=
  fun a => if lo ≤ a ∧ a < hi then v else f a

def copyIn (f : Nat → α) (pos : Nat) (src : List α) : Nat → α :=
  fun a => if pos ≤ a then src.getD (a - pos) (f a) else f a

def copyOut (f : Nat → α) (pos len : Nat) : List α :=
  (List.range len).map fun a => f (pos + a)

theorem fill_of_mem (f : Nat → α) {lo hi a : Nat} (v : α) (hlo : lo ≤ a) (hhi : a < hi) :
    fill f lo hi v a = v := if_pos ⟨hlo, hhi⟩

theorem fill_of_lt (f : Nat → α) {lo hi a : Nat} (v : α) (ha : a < lo) :
    fill f lo hi v a = f a := if_neg (by omega)

theorem fill_of_le (f : Nat → α) {lo hi a : Nat} (v : α) (ha : hi ≤ a) :
    fill f lo hi v a = f a := if_neg (by omega)

theorem copyIn_of_lt (f : Nat → α) {pos a : Nat} (src : List α) (ha : a < pos) :
    copyIn f pos src a = f a := if_neg (by omega)

theorem copyIn_of_le (f : Nat → α) {pos a : Nat} (src : List α) (ha : pos + src.length ≤ a) :
    copyIn f pos src a = f a := by
  have hp : pos ≤ a := by omega
  have hl : src.length ≤ a - pos := by omega
  simp [copyIn, hp, List.getElem?_eq_none hl]

-- A copy into a window of one region is the same copy into another region that
-- shows the same cells through a shifted window.
theorem copyIn_window (f g : Nat → α) (base pos : Nat) (src : List α) (a : Nat)
    (hfg : f (base + a) = g a) : copyIn f (base + pos) src (base + a) = copyIn g pos src a := by
  by_cases hp : pos ≤ a
  · simp only [copyIn, if_pos hp, if_pos (Nat.add_le_add_left hp base), hfg]
    congr 1
    omega
  · rw [copyIn_of_lt f src (by omega), copyIn_of_lt g src (by omega), hfg]

theorem copyOut_congr (f g : Nat → α) (base pos len : Nat)
    (hfg : ∀ a, a < len → f (base + a) = g (pos + a)) :
    copyOut f base len = copyOut g pos len := by
  apply List.map_congr_left
  intro a ha
  exact hfg a (List.mem_range.mp ha)

end Zeg.Base
