import Mathlib.Logic.Function.Basic
import Mathlib.Data.List.Basic

-- Undo logs over a store of cells. An entry of the log holds the old contents of the
-- cells it restores, and a log lists its entries newest first.
namespace Zeg.Base

open List Function

variable {κ : Type*} [DecidableEq κ] {ν : κ → Type*}

def restore (e : List ((c : κ) × ν c)) (o : ∀ c, ν c) : ∀ c, ν c :=
  e.foldl (fun o s => Function.update o s.1 s.2) o

def unwind (es : List (List ((c : κ) × ν c))) (o : ∀ c, ν c) : ∀ c, ν c :=
  es.foldl (fun o e => restore e o) o

omit [DecidableEq κ] in
def Covers (es : List (List ((c : κ) × ν c))) (c : κ) : Prop := ∃ e ∈ es, ∃ s ∈ e, s.1 = c

omit [DecidableEq κ] in
theorem Covers.mono {es fs : List (List ((c : κ) × ν c))} {c : κ} (h : Covers es c)
    (hsub : ∀ e ∈ es, e ∈ fs) : Covers fs c := by
  obtain ⟨e, he, hs⟩ := h
  exact ⟨e, hsub e he, hs⟩

omit [DecidableEq κ] in
theorem covers_append {es fs : List (List ((c : κ) × ν c))} {c : κ} :
    Covers (es ++ fs) c ↔ Covers es c ∨ Covers fs c := by
  simp only [Covers, mem_append, or_and_right, exists_or]

theorem restore_of_not_mem {e : List ((c : κ) × ν c)} {c : κ} (o : ∀ c, ν c)
    (h : ∀ s ∈ e, s.1 ≠ c) : restore e o c = o c := by
  induction e generalizing o with
  | nil => rfl
  | cons s e ih =>
    simp only [forall_mem_cons] at h
    change restore e (Function.update o s.1 s.2) c = o c
    rw [ih _ h.2, update_of_ne h.1.symm]

theorem restore_agree {e : List ((c : κ) × ν c)} {c : κ} {o o' : ∀ c, ν c}
    (h : (∀ s ∈ e, s.1 ≠ c) → o c = o' c) : restore e o c = restore e o' c := by
  induction e generalizing o o' with
  | nil => exact h (by simp)
  | cons s e ih =>
    change restore e (Function.update o s.1 s.2) c = restore e (Function.update o' s.1 s.2) c
    refine ih fun hno => ?_
    by_cases hs : s.1 = c
    · subst hs
      rw [update_self, update_self]
    · rw [update_of_ne (Ne.symm hs), update_of_ne (Ne.symm hs)]
      exact h (forall_mem_cons.mpr ⟨hs, hno⟩)

theorem restore_captured {e : List ((c : κ) × ν c)} {o : ∀ c, ν c} (h : ∀ s ∈ e, o s.1 = s.2) :
    restore e o = o := by
  induction e with
  | nil => rfl
  | cons s e ih =>
    simp only [forall_mem_cons] at h
    change restore e (Function.update o s.1 s.2) = o
    rw [← h.1, update_eq_self]
    exact ih h.2

theorem restore_eq {e : List ((c : κ) × ν c)} {o o' : ∀ c, ν c} (h : ∀ s ∈ e, o' s.1 = s.2)
    (hout : ∀ c, (∀ s ∈ e, c ≠ s.1) → o c = o' c) : restore e o = o' := by
  have hsame : restore e o = restore e o' := funext fun c =>
    restore_agree fun hno => hout c fun s hs => (hno s hs).symm
  rw [hsame, restore_captured h]

theorem unwind_append (es fs : List (List ((c : κ) × ν c))) (o : ∀ c, ν c) :
    unwind (es ++ fs) o = unwind fs (unwind es o) :=
  foldl_append

theorem unwind_agree {es : List (List ((c : κ) × ν c))} {c : κ} {o o' : ∀ c, ν c}
    (h : ¬ Covers es c → o c = o' c) : unwind es o c = unwind es o' c := by
  induction es generalizing o o' with
  | nil => exact h (by simp [Covers])
  | cons e es ih =>
    refine ih fun hes => restore_agree fun he => h ?_
    rintro ⟨f, hf, s, hs, hsc⟩
    rcases mem_cons.mp hf with rfl | hf
    · exact he s hs hsc
    · exact hes ⟨f, hf, s, hs, hsc⟩

theorem unwind_of_not_covers {es : List (List ((c : κ) × ν c))} {c : κ} (o : ∀ c, ν c)
    (h : ¬ Covers es c) : unwind es o c = o c := by
  induction es generalizing o with
  | nil => rfl
  | cons e es ih =>
    change unwind es (restore e o) c = o c
    rw [ih _ fun ⟨f, hf, hs⟩ => h ⟨f, mem_cons_of_mem _ hf, hs⟩]
    exact restore_of_not_mem o fun s hs hsc => h ⟨e, mem_cons_self, s, hs, hsc⟩

theorem unwind_captured {es : List (List ((c : κ) × ν c))} {o : ∀ c, ν c}
    (h : ∀ e ∈ es, ∀ s ∈ e, o s.1 = s.2) : unwind es o = o := by
  induction es with
  | nil => rfl
  | cons e es ih =>
    simp only [forall_mem_cons] at h
    change unwind es (restore e o) = o
    rw [restore_captured h.1, ih h.2]

theorem unwind_written {es : List (List ((c : κ) × ν c))} {o o' : ∀ c, ν c}
    (h : ∀ e ∈ es, ∀ s ∈ e, o s.1 = s.2) (hout : ∀ c, ¬ Covers es c → o' c = o c) :
    unwind es o' = o := by
  have hsame : unwind es o' = unwind es o := funext fun c => unwind_agree (hout c)
  rw [hsame, unwind_captured h]

-- `es` takes `o'` back to `o`, except for cells left with contents in `lost`.
def TakesBack (lost : (c : κ) → ν c → Prop) (es : List (List ((c : κ) × ν c)))
    (o' o : ∀ c, ν c) : Prop := ∀ c, unwind es o' c = o c ∨ lost c (unwind es o' c)

theorem TakesBack.of_eq {lost : (c : κ) → ν c → Prop} {es : List (List ((c : κ) × ν c))}
    {o' o : ∀ c, ν c} (h : unwind es o' = o) : TakesBack lost es o' o :=
  fun c => .inl (congrFun h c)

theorem TakesBack.trans {lost : (c : κ) → ν c → Prop} {es fs : List (List ((c : κ) × ν c))}
    {o₂ o₁ o : ∀ c, ν c} (hf : TakesBack lost fs o₂ o₁) (he : TakesBack lost es o₁ o) :
    TakesBack lost (fs ++ es) o₂ o := by
  intro c
  rw [unwind_append]
  by_cases hc : Covers es c
  · have hsame : unwind es (unwind fs o₂) c = unwind es o₁ c := unwind_agree fun hn => absurd hc hn
    rw [hsame]
    exact he c
  · rw [unwind_of_not_covers _ hc]
    have he' := he c
    rw [unwind_of_not_covers _ hc] at he'
    rcases hf c with hf | hf
    · rwa [hf]
    · exact .inr hf

section marks

variable {ε : Type*}

def since (log : List ε) (k : Nat) : List ε := log.take (log.length - k)

theorem since_append (es log : List ε) {k : Nat} (hk : k ≤ log.length) :
    since (es ++ log) k = es ++ since log k := by
  unfold since
  rw [length_append, take_append, take_of_length_le (by omega)]
  congr 2
  omega

theorem since_map {δ : Type*} (f : ε → δ) (log : List ε) (k : Nat) :
    since (log.map f) k = (since log k).map f := by
  simp [since]

theorem since_split (log : List ε) {k j : Nat} (hkj : k ≤ j) (hj : j ≤ log.length) :
    since log k = since log j ++ since (log.drop (log.length - j)) k := by
  unfold since
  rw [length_drop]
  have hsplit : log.length - k = (log.length - j) + (log.length - (log.length - j) - k) := by omega
  rw [hsplit, take_add]

end marks

section snapshots

variable {γ : Type*} {log : List (List ((c : κ) × ν c))} {o o' : ∀ c, ν c} {marks : List (Nat × γ)}

-- `Q` holds of the log and the store at every mark, if they are taken back to it.
def Snapshots (Q : List (List ((c : κ) × ν c)) → (∀ c, ν c) → γ → Prop)
    (log : List (List ((c : κ) × ν c))) (o : ∀ c, ν c) (marks : List (Nat × γ)) : Prop :=
  ∀ p ∈ marks, p.1 ≤ log.length ∧
    Q (log.drop (log.length - p.1)) (unwind (since log p.1) o) p.2

variable {Q : List (List ((c : κ) × ν c)) → (∀ c, ν c) → γ → Prop}

theorem Snapshots.append {es : List (List ((c : κ) × ν c))} (hs : Snapshots Q log o marks)
    (he : unwind es o' = o) : Snapshots Q (es ++ log) o' marks := by
  intro p hp
  obtain ⟨hk, hq⟩ := hs p hp
  have hdrop : (es ++ log).drop ((es ++ log).length - p.1) = log.drop (log.length - p.1) := by
    rw [length_append, drop_append, drop_eq_nil_of_le (by omega), nil_append]
    congr 1
    omega
  rw [hdrop, since_append es log hk, unwind_append, he]
  exact ⟨by rw [length_append]; omega, hq⟩

theorem Snapshots.push {g : γ} {e : List ((c : κ) × ν c)} (hs : Snapshots Q log o marks)
    (hq : Q log o g) (he : restore e o = o) :
    Snapshots Q (e :: log) o ((log.length, g) :: marks) := by
  have hstep : Snapshots Q ([e] ++ log) o marks := hs.append he
  intro p hp
  rcases mem_cons.mp hp with rfl | hp
  · have hone : (e :: log).length - log.length = 1 := by simp
    refine ⟨by simp, ?_⟩
    rw [since, hone]
    change Q log (restore e o) g
    rw [he]
    exact hq
  · exact hstep p hp

theorem Snapshots.rollback {i k : Nat} {g : γ} (hs : Snapshots Q log o marks)
    (hi : marks[i]? = some (k, g)) (hbelow : ∀ p ∈ marks.drop (i + 1), p.1 ≤ k) :
    Q (log.drop (log.length - k)) (unwind (since log k) o) g ∧
      Snapshots Q (log.drop (log.length - k)) (unwind (since log k) o) (marks.drop (i + 1)) := by
  obtain ⟨hk, hq⟩ := hs (k, g) (mem_of_getElem? hi)
  refine ⟨hq, fun p hp => ?_⟩
  have hpk := hbelow p hp
  obtain ⟨-, hqp⟩ := hs p (mem_of_mem_drop hp)
  have hdrop : (log.drop (log.length - k)).drop ((log.drop (log.length - k)).length - p.1) =
      log.drop (log.length - p.1) := by
    rw [length_drop, drop_drop]
    congr 1
    omega
  rw [since_split log hpk hk, unwind_append] at hqp
  refine ⟨by rw [length_drop]; omega, ?_⟩
  rw [hdrop]
  exact hqp

end snapshots

end Zeg.Base
