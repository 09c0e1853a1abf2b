import Zeg.StateDB.Cells

-- Every callback is a sequence of a few table actions. The invariants are proved of the
-- actions, and carried to the callbacks through this decomposition.
namespace Zeg.StateDB

open Base AccessList

inductive Key where
  | Account (a : Address)
  | Slot (key : SlotKey)
deriving DecidableEq

def Witness.last (w : Witness) : Key → Last
  | .Account a => match w.findAccount a with
      | some idx => .Account idx
      | none => .AccountKey a
  | .Slot key => match w.findSlot key with
      | some idx => .Slot idx
      | none => .SlotKey key

def Last.entry (old : Nat) : Last → Entry
  | .Account idx => .AccountWarm idx old
  | .Slot idx => .StorageWarm idx old
  | .AccountKey a => .WarmKeyAccount a old
  | .SlotKey key => .WarmKeySlot key old

inductive Act where
  -- some fields are logged, then the same fields written, maybe in another order
  | Write (logs sets : List (Nat × Field)) (same : ∀ s, s ∈ logs ↔ s ∈ sets)
  | Store (idx : Nat) (v : Word)
  | Warm (l : Last)
  | SetTransient (key : SlotKey) (v : Word)
  | InsertPending (idx : Nat)
  | AppendLog (entry : LogEntry)
  | Create (idx : Nat)
  | BalAccount (idx : Nat)
  | BalSlot (idx : Nat)
  | BalPending (p : Pending)
  -- the two that no entry can undo
  | Touch (l : Last)
  | RawWrite (idx : Nat) (f : Field)

namespace Host

variable (w : Witness) (h : Host)

def fieldEntry (s : Nat × Field) : Entry :=
  match s.2 with
  | .Balance _ => .Balance s.1 (h.accounts s.1).balance (h.accounts s.1).lastTx
  | .Nonce _ => .Nonce s.1 (h.accounts s.1).nonce (h.accounts s.1).lastTx
  | .CodeHash _ => .CodeHash s.1 (h.accounts s.1).codeHash (h.accounts s.1).lastTx

def logFields (logs : List (Nat × Field)) : Host :=
  { h with journal := (logs.map h.fieldEntry).reverse ++ h.journal }

def setFields (sets : List (Nat × Field)) : Host :=
  sets.foldl (fun h s => h.setFieldAt s.1 s.2 h.txCounter) h

def touch : Last → Host
  | .Account idx => h.markTouchedAt idx h.txCounter
  | .Slot idx => h.markSlotTouchedAt idx h.txCounter
  | .AccountKey a => h.setWarmAccount a h.txCounter
  | .SlotKey key => h.setWarmSlot key h.txCounter

def warm (l : Last) : Host :=
  if h.last l = h.txCounter then h else (h.log (l.entry (h.last l))).touch l

def act : Act → Host
  | .Write logs sets _ => (h.logFields logs).setFields sets
  | .Store idx v =>
    ((h.balOpenSlot idx (h.storages idx).value).logStorage idx).setValueAt idx v h.txCounter
  | .Warm l => h.warm l
  | .SetTransient key v =>
    (h.setTransient key (some v)).log
      (.Transient key (h.transient key).isSome ((h.transient key).getD 0))
  | .InsertPending idx => (h.insertPending idx).1
  | .AppendLog entry => h.setLogs (h.currentLogs ++ [entry])
  | .Create idx => { h with createdThisTx := h.createdThisTx.insert idx }
  | .BalAccount idx => h.balAccessAt idx
  | .BalSlot idx => h.balSlot idx
  | .BalPending p => { h with balPending := p }
  | .Touch l => h.touch l
  | .RawWrite idx f => h.setFieldAt idx f h.txCounter

-- What the callbacks make sure of before they act.
def Can : Act → Prop
  | .Store idx _ => ∀ b, h.bal = some b → (b.slots idx).isSome
  | .InsertPending idx => h.shouldDestroy w idx
  | .Create idx => ∀ i ∈ w.slotsOf idx, (h.storages i).value = 0
  | _ => True

def Runs : Host → List Act → Host → Prop
  | h, [], h' => h' = h
  | h, a :: acts, h' => h.Can w a ∧ Runs (h.act a) acts h'

end Host

def Act.lasts : Act → List Last
  | .Write _ sets _ => sets.map fun s => .Account s.1
  | .Store idx _ => [.Slot idx]
  | .Warm l => [l]
  | .Touch l => [l]
  | .RawWrite idx _ => [.Account idx]
  | _ => []

variable {w : Witness} {h h₁ h₂ h' : Host} {P : Act → Prop} {K L : List Last}

theorem runs_append {xs ys : List Act} (hx : Host.Runs w h xs h₁) (hy : Host.Runs w h₁ ys h₂) :
    Host.Runs w h (xs ++ ys) h₂ := by
  induction xs generalizing h with
  | nil => exact hx ▸ hy
  | cons a xs ih => exact ⟨hx.1, ih hx.2⟩

-- Actions of kind `P` lead from `h` to `h'` and touch exactly the keys in `K`.
def Does (w : Witness) (P : Act → Prop) (K : List Last) (h h' : Host) : Prop :=
  ∃ acts, h.Runs w acts h' ∧ (∀ a ∈ acts, P a) ∧ ∀ l, l ∈ acts.flatMap Act.lasts ↔ l ∈ K

namespace Does

theorem refl : Does w P [] h h := ⟨[], rfl, by simp, by simp⟩

theorem act {a : Act} (hp : P a) (hc : h.Can w a) : Does w P a.lasts h (h.act a) :=
  ⟨[a], ⟨hc, rfl⟩, by simpa using hp, by simp⟩

theorem trans (hx : Does w P K h h₁) (hy : Does w P L h₁ h₂) : Does w P (K ++ L) h h₂ := by
  obtain ⟨xs, hxs, hpx, hkx⟩ := hx
  obtain ⟨ys, hys, hpy, hky⟩ := hy
  refine ⟨xs ++ ys, runs_append hxs hys, ?_, ?_⟩
  · intro a ha
    rcases List.mem_append.mp ha with ha | ha
    · exact hpx a ha
    · exact hpy a ha
  · intro l
    simp only [List.flatMap_append, List.mem_append, hkx, hky]

theorem congr (hx : Does w P K h h') (hkl : ∀ l, l ∈ K ↔ l ∈ L) : Does w P L h h' := by
  obtain ⟨xs, hxs, hpx, hkx⟩ := hx
  exact ⟨xs, hxs, hpx, fun l => (hkx l).trans (hkl l)⟩

theorem mono {Q : Act → Prop} (hx : Does w P K h h') (hpq : ∀ a, P a → Q a) :
    Does w Q K h h' := by
  obtain ⟨xs, hxs, hpx, hkx⟩ := hx
  exact ⟨xs, hxs, fun a ha => hpq a (hpx a ha), hkx⟩

end Does

def Op.touched : Op → List Key
  | .GetBalance a | .GetNonce a | .GetCodeHash a | .CopyCode a => [.Account a]
  | .EntryCode a | .Authorize a _ _ _ _ | .WarmAddr a => [.Account a]
  | .GetStorage key | .WarmSlot key => [.Slot key]
  | _ => []

def Op.WritesRaw (w : Witness) : Op → Prop
  | .SetField _ _ => True
  | .Authorize _ _ _ _ _ => w.isAmsterdamOrLater = false
  | _ => False

def Op.logs : Op → Bool
  | .GetBalance _ | .GetNonce _ | .GetCodeHash _ | .CopyCode _ | .GetStorage _ => false
  | .EntryCode _ | .WarmAddr _ | .WarmSlot _ | .SetField _ _ => false
  | _ => true

def Op.Allows (w : Witness) (op : Op) : Act → Prop
  | .Write _ _ _ | .Warm _ => op.logs
  | .Store idx v => ∃ key, op = .SetStorage key v ∧ w.findSlot key = some idx
  | .BalSlot idx => ∃ key, w.findSlot key = some idx ∧
      (op = .GetStorage key ∨ ∃ v, op = .SetStorage key v)
  | .Touch l => ∃ key ∈ op.touched, w.last key = l
  | .RawWrite _ _ => op.WritesRaw w
  | _ => True

def Op.keys (w : Witness) (h : Host) : Op → List Key
  | .AccessAccount a | .WarmAddr a => if w.isPrecompile a then [] else [.Account a]
  | .AccessStorage key | .GetStorage key | .SetStorage key _ | .WarmSlot key => [.Slot key]
  | .GetBalance a | .GetNonce a | .CopyCode a | .EntryCode a | .Authorize a _ _ _ _ => [.Account a]
  | .WarmNew a | .RegisterDeployedCode a _ | .SetField a _ => [.Account a]
  | .GetCodeHash a =>
    if (w.findAccount a).any h.nonEmpty then [.Account a] else []
  | .TransferValue src dst _ => if src = dst then [] else [.Account src, .Account dst]
  | .BumpNonce a =>
    if (w.findAccount a).any fun idx => (h.accounts idx).nonce = 0xffffffffffffffff then []
    else [.Account a]
  | .Selfdestruct a beneficiary =>
    if a ≠ beneficiary then [.Account a, .Account beneficiary]
    else if !w.isAmsterdamOrLater ∧ (w.findAccount a).any (h.shouldDestroy w) then [.Account a]
    else []
  | .InitCreateAccount sender a v =>
    if (w.findAccount a).any (h.collides w) then []
    else if v = 0 ∨ sender = a then [.Account a] else [.Account a, .Account sender]
  | _ => []

end Zeg.StateDB
