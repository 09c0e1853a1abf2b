import Mathlib.Data.List.Basic

-- Net changes of a value over numbered periods.
namespace Zeg.Base

open List

variable {α β : Type*}

-- What holds before period `i`, for samples taken at the numbered periods, newest first.
def valueBefore (init : α) : List (Nat × α) → Nat → α
  | [], _ => init
  | (j, v) :: log, i => if j < i then v else valueBefore init log i

theorem valueBefore_cons_of_le (init : α) (log : List (Nat × α)) {i j : Nat} (v : α) (hij : i ≤ j) :
    valueBefore init ((j, v) :: log) i = valueBefore init log i := if_neg (by omega)

theorem valueBefore_eq_last {init : α} {log : List (Nat × α)} {i : Nat} (hlog : ∀ e ∈ log, e.1 < i) :
    valueBefore init log i = (log.map Prod.snd).headD init := by
  cases log with
  | nil => rfl
  | cons e log => exact if_pos (hlog e mem_cons_self)

variable [DecidableEq α]

-- The periods below `n` whose end value differs from their start value, with that end value;
-- `value i` is the value at the start of period `i`.
def changesOf (value : Nat → α) (n : Nat) : List (Nat × α) :=
  (List.range n).filterMap fun i =>
    if value (i + 1) = value i then none else some (i, value (i + 1))

theorem changesOf_succ (value : Nat → α) (n : Nat) :
    changesOf value (n + 1) =
      changesOf value n ++ if value (n + 1) = value n then [] else [(n, value (n + 1))] := by
  simp only [changesOf, range_succ, filterMap_append, filterMap_cons,
    filterMap_nil]
  congr 1
  split <;> simp_all

variable {value : Nat → α} {n : Nat}

theorem changesOf_congr {value' : Nat → α} (hv : ∀ i ≤ n, value' i = value i) :
    changesOf value' n = changesOf value n := by
  apply filterMap_congr
  intro i hi
  have hin : i < n := mem_range.mp hi
  rw [hv i (by omega), hv (i + 1) (by omega)]

-- A value that stays at `c` after period `m` has at most the change of `m` itself.
theorem changesOf_steady {m : Nat} {c : α} (hmn : m < n) (hv : ∀ i, m < i → i ≤ n → value i = c) :
    changesOf value n = changesOf value m ++ if c = value m then [] else [(m, c)] := by
  induction n with
  | zero => omega
  | succ n ih =>
    rw [changesOf_succ]
    rcases Nat.lt_succ_iff_lt_or_eq.mp hmn with hlt | heq
    · rw [ih hlt fun i hi hin => hv i hi (by omega), hv (n + 1) (by omega) (by omega),
        hv n hlt (by omega), if_pos rfl, append_nil]
    · subst heq
      rw [hv (m + 1) (by omega) (by omega)]

theorem changesOf_constant {c : α} (hv : ∀ i ≤ n, value i = c) :
    changesOf value n = [] := by
  induction n with
  | zero => rfl
  | succ n ih =>
    rw [changesOf_succ, ih fun i hi => hv i (by omega), hv (n + 1) (by omega), hv n (by omega),
      if_pos rfl, append_nil]

theorem changesOf_sorted (value : Nat → α) (n : Nat) :
    (changesOf value n).Pairwise fun a b => a.1 < b.1 := by
  refine List.Pairwise.filterMap _ ?_ (pairwise_lt_range (n := n))
  intro i j hij a ha b hb
  split at ha
  · cases ha
  · split at hb
    · cases hb
    · cases ha
      cases hb
      exact hij

-- `l` lists the periods that change the value, in order, each with its end value.
def ListsChanges (value : Nat → α) (l : List (Nat × α)) : Prop :=
  l.Pairwise (fun a b => a.1 < b.1) ∧ ∀ i v, (i, v) ∈ l ↔ value (i + 1) = v ∧ v ≠ value i

theorem mem_changesOf {i : Nat} {v : α} :
    (i, v) ∈ changesOf value n ↔ i < n ∧ value (i + 1) = v ∧ v ≠ value i := by
  simp only [changesOf, mem_filterMap, mem_range]
  constructor
  · rintro ⟨j, hj, hv⟩
    split at hv
    · cases hv
    · cases hv
      exact ⟨hj, rfl, by assumption⟩
  · rintro ⟨hi, rfl, hne⟩
    exact ⟨i, hi, by rw [if_neg hne]⟩

theorem listsChanges_changesOf {c : α} (hv : ∀ i, n ≤ i → value i = c) :
    ListsChanges value (changesOf value n) := by
  refine ⟨changesOf_sorted value n, fun i v => mem_changesOf.trans ⟨And.right, fun hi => ⟨?_, hi⟩⟩⟩
  by_contra hle
  exact hi.2 (hi.1.symm.trans ((hv (i + 1) (by omega)).trans (hv i (by omega)).symm))

end Zeg.Base
