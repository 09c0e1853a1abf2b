import Zeg.AccessList
import Zeg.Base.Netting

-- A record that is closed lazily holds the net changes of the periods before its open one.
namespace Zeg.AccessList

open Zeg.Base

variable {α : Type} [DecidableEq α] {value value' : Nat → α} {n n' : Nat} {t : Track α} {c : α}

-- `value i` is the value at the start of period `i` for every `i` up to the current period `n`,
-- and `c` is the current value.
inductive Track.Nets (value : Nat → α) (n : Nat) (t : Track α) (c : α) : Prop where
  | Untouched (hperiod : t.period = kNone) (hchanges : t.changes = []) (hvalue : ∀ i ≤ n, value i = c)
  | Open (hperiod : t.period ≤ n) (hpre : t.pre = value t.period)
      (hchanges : t.changes = changesOf value t.period)
      (hvalue : ∀ i, t.period < i → i ≤ n → value i = c)

namespace Track

theorem nets_init (pre : α) (hvalue : ∀ i ≤ n, value i = c) : (init pre).Nets value n c :=
  .Untouched rfl rfl hvalue

theorem Nets.period_le (ht : t.Nets value n c) : t.period ≤ n ∨ t.period = kNone := by
  cases ht with
  | Untouched hperiod _ _ => exact .inr hperiod
  | Open hperiod _ _ _ => exact .inl hperiod

theorem Nets.close_changes (ht : t.Nets value n c) (hn : n ≤ kNone)
    (hover : t.period < n ∨ t.period = kNone) : (t.close c).changes = changesOf value n := by
  cases ht with
  | Untouched hperiod hchanges hvalue =>
    simp [close, hperiod, hchanges, changesOf_constant hvalue]
  | Open hperiod hpre hchanges hvalue =>
    rcases hover with hlt | hnone
    · have hsome : t.period ≠ kNone := by omega
      rw [changesOf_steady hlt hvalue, ← hchanges, ← hpre]
      simp only [close, hsome, ne_eq, not_false_eq_true, true_and]
      split <;> simp_all
    · have heq : n = t.period := by omega
      rw [heq, ← hchanges]
      simp [close, hnone]

theorem nets_of_period {c' : α} (ht : t.Nets value n c) (hn : n < kNone) (hp : t.period = n) :
    t.Nets value n c' := by
  cases ht with
  | Untouched hperiod hchanges hvalue => omega
  | Open hperiod hpre hchanges hvalue => exact .Open hperiod hpre hchanges fun i hi hin => by omega

theorem openAt_period (t : Track α) (n : Nat) (c : α) : (t.openAt n c).period = n := by
  unfold openAt
  split
  · assumption
  · rfl

theorem Nets.openAt (ht : t.Nets value n c) (hn : n < kNone) (c' : α) :
    (t.openAt n c).Nets value n c' := by
  unfold Track.openAt
  split
  case isTrue hp => exact nets_of_period ht hn hp
  case isFalse hp =>
    have hover : t.period < n ∨ t.period = kNone := ht.period_le.imp_left fun hle => by omega
    refine .Open (Nat.le_refl n) ?_ (ht.close_changes (Nat.le_of_lt hn) hover) fun i hi hin => by
      simp only at hi
      omega
    cases ht with
    | Untouched hperiod hchanges hvalue => exact (hvalue n (Nat.le_refl n)).symm
    | Open hperiod hpre hchanges hvalue => exact (hvalue n (by omega) (Nat.le_refl n)).symm

theorem Nets.move (ht : t.Nets value n c) (hn : n ≤ n') (hagree : ∀ i ≤ n, value' i = value i)
    (hlater : ∀ i, n < i → i ≤ n' → value' i = c) : t.Nets value' n' c := by
  cases ht with
  | Untouched hperiod hchanges hvalue =>
    refine .Untouched hperiod hchanges fun i hi => ?_
    by_cases hin : i ≤ n
    · rw [hagree i hin, hvalue i hin]
    · exact hlater i (by omega) hi
  | Open hperiod hpre hchanges hvalue =>
    refine .Open (Nat.le_trans hperiod hn) ?_ ?_ fun i hi hin' => ?_
    · rw [hpre, hagree _ hperiod]
    · rw [hchanges, changesOf_congr fun i hi => hagree i (Nat.le_trans hi hperiod)]
    · by_cases hin : i ≤ n
      · rw [hagree i hin, hvalue i hi hin]
      · exact hlater i (by omega) hin'

end Track

inductive Column where
  | Balance
  | Nonce
  | CodeHash

abbrev Column.Val : Column → Type
  | .Balance => Word
  | .Nonce => UInt64
  | .CodeHash => Bytes32

instance (col : Column) : DecidableEq col.Val := by
  cases col <;> exact inferInstance

abbrev Columns := (col : Column) → col.Val

def columns (balance : Word) (nonce : UInt64) (codeHash : Bytes32) : Columns
  | .Balance => balance
  | .Nonce => nonce
  | .CodeHash => codeHash

namespace AccountRecord

def track (r : AccountRecord) : (col : Column) → Track col.Val
  | .Balance => ⟨r.period, r.preBalance, r.balance⟩
  | .Nonce => ⟨r.period, r.preNonce, r.nonce⟩
  | .CodeHash => ⟨r.period, r.preCodeHash, r.code⟩

theorem track_period (r : AccountRecord) (col : Column) : (r.track col).period = r.period := by
  cases col <;> rfl

variable (r : AccountRecord) (balance : Word) (nonce : UInt64) (codeHash : Bytes32) (col : Column)

theorem track_close : (r.close balance nonce codeHash).track col =
    (r.track col).close (columns balance nonce codeHash col) := by
  unfold close
  split
  case isTrue hp => cases col <;> simp [track, Track.close, hp]
  case isFalse hp => cases col <;> simp [track, Track.close, hp, columns]

theorem track_openAt (index : Nat) :
    (if r.period = index then r else r.openAt index balance nonce codeHash).track col =
      (r.track col).openAt index (columns balance nonce codeHash col) := by
  unfold Track.openAt
  rw [track_period]
  split
  · rfl
  · rw [← track_close]
    cases col <;> rfl

theorem openAt_accessed (index : Nat) : (r.openAt index balance nonce codeHash).accessed = r.accessed := by
  unfold openAt close
  split <;> rfl

end AccountRecord

namespace BlockAccessList

variable (b : BlockAccessList) (row : Nat) (balance : Word) (nonce : UInt64) (codeHash : Bytes32)

theorem track_beforeWrite (col : Column) :
    ((b.beforeWrite row balance nonce codeHash).accounts row).track col =
      ((b.accounts row).track col).openAt b.index (columns balance nonce codeHash col) := by
  simp only [beforeWrite, Function.update_self]
  exact ({ b.accounts row with accessed := true } : AccountRecord).track_openAt
    balance nonce codeHash col b.index

theorem accessed_beforeWrite : ((b.beforeWrite row balance nonce codeHash).accounts row).accessed = true := by
  simp only [beforeWrite, Function.update_self]
  split
  · rfl
  · rw [AccountRecord.openAt_accessed]

theorem beforeWrite_of_ne {row' : Nat} (hrow : row' ≠ row) :
    (b.beforeWrite row balance nonce codeHash).accounts row' = b.accounts row' :=
  Function.update_of_ne hrow _ _

end BlockAccessList

end Zeg.AccessList
