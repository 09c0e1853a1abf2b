import Mathlib.Algebra.BigOperators.Group.Finset.Basic
import Mathlib.Algebra.Order.BigOperators.Group.Finset

-- The total weight of the cells of a finite table.
namespace Zeg.Base

variable {K α : Type*} [Fintype K]

def total (weight : K → α → Int) (table : K → α) : Int := ∑ k, weight k (table k)

-- A write moves the total by the change of the cell's own weight.
theorem total_update [DecidableEq K] (weight : K → α → Int) (table : K → α) (key : K) (v : α) :
    total weight (Function.update table key v) =
      total weight table - weight key (table key) + weight key v := by
  have hrest : ∑ k ∈ Finset.univ.erase key, weight k (Function.update table key v k) =
      ∑ k ∈ Finset.univ.erase key, weight k (table k) := by
    apply Finset.sum_congr rfl
    intro k hk
    rw [Function.update_of_ne (Finset.ne_of_mem_erase hk)]
  have hnew := Finset.add_sum_erase Finset.univ (fun k => weight k (Function.update table key v k))
    (Finset.mem_univ key)
  have hold := Finset.add_sum_erase Finset.univ (fun k => weight k (table k)) (Finset.mem_univ key)
  simp only [Function.update_self, hrest] at hnew
  unfold total
  omega

theorem total_nonneg {weight : K → α → Int} (table : K → α) (hw : ∀ k v, 0 ≤ weight k v) :
    0 ≤ total weight table := Finset.sum_nonneg fun k _ => hw k (table k)

theorem total_eq_zero {weight : K → α → Int} {table : K → α} (hw : ∀ k, weight k (table k) = 0) :
    total weight table = 0 := Finset.sum_eq_zero fun k _ => hw k

end Zeg.Base
