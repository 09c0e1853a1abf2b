import Zeg.Base.Except

namespace Zeg.Base

-- A program that asks its environment: a tree of requests, each continued by its answer.
inductive Program {Q : Type} (A : Q → Type) (α : Type) where
  | Done (a : α)
  | Ask (q : Q) (next : A q → Program A α)

namespace Program

variable {Q : Type} {A : Q → Type} {α β σ ε : Type}

def bind : Program A α → (α → Program A β) → Program A β
  | .Done a, f => f a
  | .Ask q next, f => .Ask q fun a => (next a).bind f

-- Every request satisfies `P`, and when each answer satisfies `B` the value satisfies `post`.
def Spec (P : Q → Prop) (B : (q : Q) → A q → Prop) (post : α → Prop) : Program A α → Prop
  | .Done a => post a
  | .Ask q next => P q ∧ ∀ a, B q a → (next a).Spec P B post

section Spec

variable {P P' : Q → Prop} {B : (q : Q) → A q → Prop} {post post' : α → Prop} {p : Program A α}

theorem spec_bind {f : α → Program A β} {post : β → Prop} :
    (p.bind f).Spec P B post ↔ p.Spec P B fun a => (f a).Spec P B post := by
  induction p with
  | Done a => exact Iff.rfl
  | Ask q next ih =>
    exact and_congr_right fun _ => forall_congr' fun a => imp_congr_right fun _ => ih a

theorem Spec.mono (h : p.Spec P B post) (hP : ∀ q, P q → P' q) (hpost : ∀ a, post a → post' a) :
    p.Spec P' B post' := by
  induction p with
  | Done a => exact hpost a h
  | Ask q next ih => exact ⟨hP q h.1, fun a ha => ih a (h.2 a ha)⟩

end Spec

-- A discipline of requests: `may` says what can be asked by a program that knows `k`, and `learn`
-- what it knows after the answer.
def Tracks {K : Type} (may : K → Q → Prop) (learn : K → (q : Q) → A q → K) (post : K → α → Prop) :
    K → Program A α → Prop
  | k, .Done a => post k a
  | k, .Ask q next => may k q ∧ ∀ a, (next a).Tracks may learn post (learn k q a)

section Tracks

variable {K : Type} {may : K → Q → Prop} {learn : K → (q : Q) → A q → K} {post post' : K → α → Prop} {k : K}
  {p : Program A α}

theorem tracks_bind {f : α → Program A β} {post : K → β → Prop} :
    (p.bind f).Tracks may learn post k ↔ p.Tracks may learn (fun k a => (f a).Tracks may learn post k) k := by
  induction p generalizing k with
  | Done a => exact Iff.rfl
  | Ask q next ih => exact and_congr_right fun _ => forall_congr' fun a => ih a

theorem Tracks.mono (h : p.Tracks may learn post k) (hpost : ∀ k a, post k a → post' k a) :
    p.Tracks may learn post' k := by
  induction p generalizing k with
  | Done a => exact hpost k a h
  | Ask q next ih => exact ⟨h.1, fun a => ih a (h.2 a)⟩

end Tracks

def run (answer : (q : Q) → σ → Except ε (A q × σ)) : Program A α → σ → Except ε (α × σ)
  | .Done a, e => .ok (a, e)
  | .Ask q next, e =>
    match answer q e with
    | .ok (a, e') => (next a).run answer e'
    | .error x => .error x

section Run

variable {answer : (q : Q) → σ → Except ε (A q × σ)} {p : Program A α} {e e' : σ} {a : α}

theorem run_bind {f : α → Program A β} :
    (p.bind f).run answer e = p.run answer e >>= fun r => (f r.1).run answer r.2 := by
  induction p generalizing e with
  | Done a => rfl
  | Ask q next ih =>
    simp only [bind, run]
    cases answer q e with
    | error x => rfl
    | ok r => exact ih r.1

-- A change of the environment that no answer depends on goes through a run.
theorem run_map {F : σ → σ} (hanswer : ∀ q x, answer q (F x) = (answer q x).map fun r => (r.1, F r.2)) :
    p.run answer (F e) = (p.run answer e).map fun r => (r.1, F r.2) := by
  induction p generalizing e with
  | Done a => rfl
  | Ask q next ih =>
    simp only [run, hanswer]
    cases answer q e with
    | error x => rfl
    | ok r => exact ih r.1

-- What an environment that answers as asked of it makes of a specified program: the value is as
-- specified, and what each answer preserves of the environment is preserved.
theorem Spec.run {P : Q → Prop} {B : (q : Q) → A q → Prop} {post : α → Prop} {R : σ → σ → Prop}
    (h : p.Spec P B post) (hrefl : ∀ x, R x x) (htrans : ∀ {x y z}, R x y → R y z → R x z)
    (hanswer : ∀ {q x b y}, P q → answer q x = .ok (b, y) → B q b ∧ R x y)
    (hrun : p.run answer e = .ok (a, e')) : post a ∧ R e e' := by
  induction p generalizing e with
  | Done b =>
    cases hrun
    exact ⟨h, hrefl _⟩
  | Ask q next ih =>
    simp only [Program.run] at hrun
    cases hq : answer q e with
    | error x => simp only [hq, reduceCtorEq] at hrun
    | ok r =>
      simp only [hq] at hrun
      obtain ⟨hb, hr⟩ := hanswer h.1 hq
      obtain ⟨hpost, hrest⟩ := ih r.1 (h.2 r.1 hb) hrun
      exact ⟨hpost, htrans hr hrest⟩

-- Environments that answer what is asked alike give the same run.
theorem Spec.run_congr {P : Q → Prop} {B : (q : Q) → A q → Prop} {post : α → Prop}
    {answer' : (q : Q) → σ → Except ε (A q × σ)} (h : p.Spec P B post)
    (hsame : ∀ q x, P q → answer' q x = answer q x) (hanswer : ∀ {q x b y}, P q → answer q x = .ok (b, y) → B q b) :
    p.run answer' e = p.run answer e := by
  induction p generalizing e with
  | Done b => rfl
  | Ask q next ih =>
    simp only [Program.run, hsame q e h.1]
    cases hq : answer q e with
    | error x => rfl
    | ok r => exact ih r.1 (h.2 r.1 (hanswer h.1 hq))

-- The same for a program under a discipline, where `Sim` says that what it knows is so.
theorem Tracks.run {K : Type} {may : K → Q → Prop} {learn : K → (q : Q) → A q → K} {post : K → α → Prop}
    {P : Q → Prop} {B : (q : Q) → A q → Prop} {post' : α → Prop} {k : K}
    (ht : p.Tracks may learn post k) (Sim : K → σ → Prop) (R : σ → σ → Prop) (hs : p.Spec P B post') (hsim : Sim k e)
    (hrefl : ∀ x, R x x) (htrans : ∀ {x y z}, R x y → R y z → R x z)
    (hanswer : ∀ {k q x b y}, may k q → P q → Sim k x → answer q x = .ok (b, y) →
      B q b ∧ Sim (learn k q b) y ∧ R x y)
    (hrun : p.run answer e = .ok (a, e')) : (∃ k', post k' a ∧ Sim k' e') ∧ post' a ∧ R e e' := by
  induction p generalizing e k with
  | Done b =>
    cases hrun
    exact ⟨⟨k, ht, hsim⟩, hs, hrefl _⟩
  | Ask q next ih =>
    simp only [Program.run] at hrun
    cases hq : answer q e with
    | error x => simp only [hq, reduceCtorEq] at hrun
    | ok r =>
      simp only [hq] at hrun
      obtain ⟨hb, hsim', hr⟩ := hanswer ht.1 hs.1 hsim hq
      obtain ⟨hpost, hpost', hrest⟩ := ih r.1 (ht.2 r.1) (hs.2 r.1 hb) hsim' hrun
      exact ⟨hpost, hpost', htrans hr hrest⟩

end Run

end Program

end Zeg.Base
