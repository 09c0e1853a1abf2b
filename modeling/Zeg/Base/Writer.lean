import Zeg.Base.Bytes
import Zeg.Base.Except

-- Writing an encoding in two passes: sizes summed up first, bytes written into a buffer of that
-- size after.
namespace Zeg.Base.Writer

open List

variable {α : Type}

theorem ok_bind {β : Type} (a : α) (f : α → Except String β) : (Except.ok a >>= f) = f a := rfl

def sizeT (n : Nat) : Nat := n % 2 ^ 64

theorem sizeT_of_lt {n : Nat} (hn : n < 2 ^ 64) : sizeT n = n := Nat.mod_eq_of_lt hn

def sumSizes (size : α → Except String Nat) (xs : List α) (n : Nat) : Except String Nat :=
  xs.foldlM (fun n x => do return sizeT (n + (← size x))) n

theorem sumSizes_cons (size : α → Except String Nat) (x : α) (xs : List α) (n : Nat) :
    sumSizes size (x :: xs) n = size x >>= fun s => sumSizes size xs (sizeT (n + s)) := by
  rw [sumSizes, foldlM_cons]
  cases size x <;> rfl

-- Sizes that do not wrap add up to the length of what they are the sizes of.
theorem sumSizes_eq (size : α → Except String Nat) (bytes : α → Bytes) (bound : Nat) (hbound : bound ≤ 2 ^ 64)
    (xs : List α) (h : ∀ x ∈ xs, (bytes x).length < bound → size x = .ok (bytes x).length) (n : Nat)
    (hn : n + (xs.flatMap bytes).length < bound) :
    sumSizes size xs n = .ok (n + (xs.flatMap bytes).length) := by
  induction xs generalizing n with
  | nil => rfl
  | cons x xs ih =>
    rw [flatMap_cons, length_append] at hn
    rw [sumSizes_cons, h x mem_cons_self (by omega)]
    show sumSizes size xs (sizeT (n + (bytes x).length)) = _
    rw [sizeT_of_lt (by omega), ih (fun y hy => h y (mem_cons_of_mem x hy)) _ (by omega),
      flatMap_cons, length_append, Nat.add_assoc]

-- Bytes written at the end of what a buffer of `room` bytes already holds.
def put (room : Nat) (bytes out : Bytes) : Except String Bytes :=
  if out.length + bytes.length ≤ room then .ok (out ++ bytes) else .error "write past the end of the buffer"

-- A writer that appends `bytes` wherever they fit.
def Writes (room : Nat) (w : Bytes → Except String Bytes) (bytes : Bytes) : Prop :=
  ∀ out, out.length + bytes.length ≤ room → w out = .ok (out ++ bytes)

variable {room : Nat}

theorem writes_put (bytes : Bytes) : Writes room (put room bytes) bytes :=
  fun _ hout => if_pos hout

theorem writes_nil : Writes room .ok [] := by
  intro out _
  rw [append_nil]

theorem Writes.bind {v w : Bytes → Except String Bytes} {first second : Bytes} (hv : Writes room v first)
    (hw : Writes room w second) : Writes room (fun out => v out >>= w) (first ++ second) := by
  intro out hout
  rw [length_append] at hout
  show v out >>= w = _
  rw [hv out (by omega)]
  show w (out ++ first) = _
  rw [hw _ (by rw [length_append]; omega), append_assoc]

theorem Writes.foldlM {w : Bytes → α → Except String Bytes} {bytes : α → Bytes} (xs : List α)
    (h : ∀ x ∈ xs, Writes room (fun out => w out x) (bytes x)) :
    Writes room (fun out => xs.foldlM w out) (xs.flatMap bytes) := by
  induction xs with
  | nil => exact writes_nil
  | cons x xs ih =>
    have hrest := ih fun y hy => h y (mem_cons_of_mem x hy)
    have hboth := (h x mem_cons_self).bind hrest
    intro out hout
    show (x :: xs).foldlM w out = _
    exact hboth out hout

end Zeg.Base.Writer
