import Zeg.Base.Bytes
import Zeg.Base.Except

-- Readers of a byte stream that look at nothing past what they consume but how much of it there is.
namespace Zeg.Base

open List

variable {α β : Type}

def Local (f : Bytes → Except String (α × Bytes)) : Prop :=
  ∀ cursor a rest, f cursor = .ok (a, rest) →
    ∃ front, cursor = front ++ rest ∧
      ∀ rest' : Bytes, rest'.length = rest.length → f (front ++ rest') = .ok (a, rest')

theorem Local.pure (a : α) : Local fun cursor => .ok (a, cursor) := by
  intro cursor b rest h
  cases h
  exact ⟨[], rfl, fun rest' _ => rfl⟩

theorem Local.bind {f : Bytes → Except String (α × Bytes)} {g : α → Bytes → Except String (β × Bytes)}
    (hf : Local f) (hg : ∀ a, Local (g a)) : Local fun cursor => f cursor >>= fun x => g x.1 x.2 := by
  intro cursor b rest h
  obtain ⟨⟨a, middle⟩, hread, hrest⟩ := bind_eq_ok.1 h
  obtain ⟨first, rfl, hfirst⟩ := hf cursor a middle hread
  obtain ⟨second, rfl, hsecond⟩ := hg a middle b rest hrest
  refine ⟨first ++ second, (append_assoc _ _ _).symm, fun rest' hlen => ?_⟩
  rw [append_assoc]
  refine bind_eq_ok.2 ⟨(a, second ++ rest'), hfirst _ ?_, hsecond rest' hlen⟩
  rw [length_append, length_append, hlen]

theorem Local.map {f : Bytes → Except String (α × Bytes)} (hf : Local f) (g : α → β) :
    Local fun cursor => f cursor >>= fun x => .ok (g x.1, x.2) :=
  hf.bind fun a => Local.pure (g a)

theorem Local.lift {f : α → Bytes → Except String (β × Bytes)} (x : Except String α) (hf : ∀ a, Local (f a)) :
    Local fun cursor => x >>= fun a => f a cursor := by
  cases x with
  | error e =>
    intro cursor b rest h
    cases h
  | ok a => exact hf a

theorem Local.guard {f : Bytes → Except String (α × Bytes)} (hf : Local f) (bad : Nat → Prop) [DecidablePred bad]
    (message : String) : Local fun cursor => if bad cursor.length then .error message else f cursor := by
  intro cursor a rest h
  by_cases hbad : bad cursor.length
  · simp only [if_pos hbad] at h
    cases h
  · simp only [if_neg hbad] at h
    obtain ⟨front, rfl, hfront⟩ := hf cursor a rest h
    refine ⟨front, rfl, fun rest' hlen => ?_⟩
    have hsame : (front ++ rest').length = (front ++ rest).length := by
      rw [length_append, length_append, hlen]
    simp only [hsame, if_neg hbad]
    exact hfront rest' hlen

-- A fixed number of bytes, seen through `g`, which may refuse them.
theorem Local.chunk (n : Nat) (g : Bytes → Except String α) (message : String) :
    Local fun cursor =>
      if cursor.length < n then .error message
      else g (cursor.take n) >>= fun a => .ok (a, cursor.drop n) := by
  intro cursor a rest h
  by_cases hlen : cursor.length < n
  · simp only [if_pos hlen] at h
    cases h
  · simp only [if_neg hlen] at h
    obtain ⟨b, hb, heq⟩ := bind_eq_ok.1 h
    cases heq
    have htake : (cursor.take n).length = n := by
      rw [length_take]
      omega
    refine ⟨cursor.take n, (take_append_drop n cursor).symm, fun rest' _ => ?_⟩
    simp only [length_append, htake, show ¬ n + rest'.length < n by omega, if_false,
      take_left' htake, drop_left' htake]
    exact bind_eq_ok.2 ⟨_, hb, rfl⟩

end Zeg.Base
