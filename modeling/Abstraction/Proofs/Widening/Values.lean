import Mathlib.Data.ENat.Basic
import Abstraction.Value.Congruence.Arithmetic
import Abstraction.Value.Interval.Guard
import Abstraction.Proofs.Congruence.Members
import Abstraction.Proofs.Number.Order

/-! The rank that widening a value cannot raise: the number of finite ends of an interval, the modulus of
a congruence with that of a constant above all others. A value whose rank stays is not left. -/
namespace Abstraction

class SettlingDomain (V : Type) [ValueDomain V] where
  rank : V → ℕ∞
  topPossible : ValueDomain.isBottom (ValueDomain.top : V) = false
  leqRefl (v : V) : ValueDomain.leq v v = true
  widenTop (w : V) : ValueDomain.widen ValueDomain.top w = ValueDomain.top
  widenPossible {v : V} (w : V) (possible : ValueDomain.isBottom v = false) :
    ValueDomain.isBottom (ValueDomain.widen v w) = false
  rankWiden {v : V} (w : V) (possible : ValueDomain.isBottom v = false) :
    rank (ValueDomain.widen v w) ≤ rank v
  steady {v w : V} (possible : ValueDomain.isBottom v = false)
    (same : rank (ValueDomain.widen v w) = rank v) :
    ValueDomain.leq (ValueDomain.widen v w) v = true

namespace Number

variable {a b : Number}

theorem isInfiniteNormalise (a : Number) : a.normalise.isInfinite = a.isInfinite := by
  cases a with
  | double x => rw [normalise]; split <;> rfl
  | _ => rfl

def finite (a : Number) : Nat := if a.isInfinite then 0 else 1

theorem finiteNormalise (a : Number) : a.normalise.finite = a.finite := by
  rw [finite, finite, isInfiniteNormalise]

end Number

namespace Interval

variable {lo hi low high : Number}

theorem properNormalise (proper : Proper lo hi) : Proper lo.normalise hi.normalise := by
  have order := ((Number.normaliseValue lo).1.trans proper.1).trans (Number.normaliseValue hi).2
  refine ⟨order, fun same => proper.2.1 ?_, fun same => proper.2.2 ?_⟩
  · have above := (Number.normaliseValue lo).1
    rw [same] at above
    cases lo with
    | posInf => rfl
    | _ => contradiction
  · have below := (Number.normaliseValue hi).2
    rw [same] at below
    cases hi with
    | negInf => rfl
    | _ => contradiction

def widenedLower (lo low : Number) : Number := if low < lo then .negInf else lo

def widenedUpper (hi high : Number) : Number := if hi < high then .posInf else hi

theorem properWidened (proper : Proper lo hi) (low high : Number) :
    Proper (widenedLower lo low) (widenedUpper hi high) := by
  unfold widenedLower widenedUpper
  split <;> split
  · exact ⟨Number.negInfLe _, nofun, nofun⟩
  · exact ⟨Number.negInfLe _, nofun, proper.2.2⟩
  · exact ⟨Number.lePosInf _, proper.2.1, nofun⟩
  · exact proper

theorem widenRange (proper : Proper lo hi) (other : Proper low high) :
    (range lo hi proper).widen (range low high other) =
      .range _ _ (properNormalise (properWidened proper low high)) :=
  dif_pos (properNormalise (properWidened proper low high))

theorem lowerFinite (low : Number) (proper : lo ≠ .posInf) :
    (widenedLower lo low).finite ≤ lo.finite ∧
      ((widenedLower lo low).finite = lo.finite → lo ≤ widenedLower lo low) := by
  unfold widenedLower
  split
  · rename_i outward
    refine ⟨Nat.zero_le _, fun same => ?_⟩
    cases lo with
    | negInf => exact Number.negInfLe _
    | _ => contradiction
  · exact ⟨Nat.le_refl _, fun _ => Number.leRefl _⟩

theorem upperFinite (high : Number) (proper : hi ≠ .negInf) :
    (widenedUpper hi high).finite ≤ hi.finite ∧
      ((widenedUpper hi high).finite = hi.finite → widenedUpper hi high ≤ hi) := by
  unfold widenedUpper
  split
  · rename_i outward
    refine ⟨Nat.zero_le _, fun same => ?_⟩
    cases hi with
    | posInf => exact Number.lePosInf _
    | _ => contradiction
  · exact ⟨Nat.le_refl _, fun _ => Number.leRefl _⟩

def finiteEnds : Interval → Nat
  | .empty => 0
  | .range lo hi _ => lo.finite + hi.finite

theorem finiteEndsWiden (a b : Interval) (full : a.isEmpty = false) :
    (a.widen b).finiteEnds ≤ a.finiteEnds ∧
      ((a.widen b).finiteEnds = a.finiteEnds → (a.widen b).leq a = true) := by
  cases a with
  | empty => contradiction
  | range lo hi proper =>
  cases b with
  | empty => exact ⟨Nat.le_refl _, fun _ => decide_eq_true ⟨Number.leRefl _, Number.leRefl _⟩⟩
  | range low high other =>
    obtain ⟨lower, kept⟩ := lowerFinite low proper.2.1
    obtain ⟨upper, kept'⟩ := upperFinite high proper.2.2
    rw [widenRange]
    simp only [finiteEnds, Number.finiteNormalise]
    refine ⟨Nat.add_le_add lower upper, fun same => decide_eq_true ⟨?_, ?_⟩⟩
    · exact (kept (by omega)).trans (Number.normaliseValue _).2
    · exact (Number.normaliseValue _).1.trans (kept' (by omega))

theorem widenFull (a b : Interval) (full : a.isEmpty = false) : (a.widen b).isEmpty = false := by
  cases a with
  | empty => contradiction
  | range lo hi proper =>
  cases b with
  | empty => rfl
  | range low high other => rw [widenRange]; rfl

theorem widenWhole (b : Interval) : whole.widen b = whole := by
  cases b with
  | empty => rfl
  | range low high other =>
    change ofBounds (if low < .negInf then .negInf else .negInf)
      (if .posInf < high then .posInf else .posInf) = whole
    rw [ite_self, ite_self]
    rfl

instance : SettlingDomain Interval where
  rank a := a.finiteEnds
  topPossible := rfl
  leqRefl a := by
    cases a with
    | empty => rfl
    | range lo hi proper => exact decide_eq_true ⟨Number.leRefl lo, Number.leRefl hi⟩
  widenTop := widenWhole
  widenPossible {a} b full := widenFull a b full
  rankWiden {a} b full := Nat.cast_le.mpr (finiteEndsWiden a b full).1
  steady {a b} full same := (finiteEndsWiden a b full).2 (Nat.cast_inj.mp same)

end Interval

namespace Congruence

/-- The modulus of a constant, which is zero, counts as infinite: every other one divides it. -/
def size (m : Nat) : ℕ∞ := if m = 0 then ⊤ else m

theorem sizeMono {g m : Nat} (divides : g ∣ m) : size g ≤ size m := by
  by_cases zero : m = 0
  · rw [size, size, if_pos zero]
    exact le_top
  · have nonzero : g ≠ 0 := fun same => zero (Nat.zero_dvd.mp (same ▸ divides))
    rw [size, size, if_neg zero, if_neg nonzero]
    exact Nat.cast_le.mpr (Nat.le_of_dvd (Nat.pos_of_ne_zero zero) divides)

theorem sizeInjective {g m : Nat} (same : size g = size m) : g = m := by
  unfold size at same
  split at same <;> split at same
  · omega
  · exact (ENat.natCast_ne_top m same.symm).elim
  · exact (ENat.natCast_ne_top g same).elim
  · exact Nat.cast_inj.mp same

def period : Congruence → ℕ∞
  | .empty => 0
  | .coset m _ _ => size m

theorem periodWiden (a b : Congruence) (full : a.isEmpty = false) :
    (a.widen b).period ≤ a.period ∧
      ((a.widen b).period = a.period → (a.widen b).leq a = true) := by
  cases a with
  | empty => contradiction
  | coset m r left =>
  cases b with
  | empty => exact ⟨le_refl _, fun _ => leqExact.mpr fun _ inside => inside⟩
  | coset k s right =>
    have divides : Nat.gcd (Nat.gcd m k) (r - s).natAbs ∣ m :=
      (Nat.gcd_dvd_left _ _).trans (Nat.gcd_dvd_left m k)
    refine ⟨sizeMono divides, fun same => leqExact.mpr fun n inside => ?_⟩
    have modulus : Nat.gcd (Nat.gcd m k) (r - s).natAbs = m := sizeInjective same
    have apart := gcdDividesRight (Nat.gcd m k) (Int.natAbs_dvd_self (a := r - s))
    rw [widen, memJoin] at inside
    rw [modulus] at apart inside
    have difference := dvd_sub inside apart
    rw [sub_sub_sub_cancel_right] at difference
    exact memCoset.mpr difference

theorem widenFull (a b : Congruence) (full : a.isEmpty = false) : (a.widen b).isEmpty = false := by
  cases a with
  | empty => contradiction
  | coset m r left =>
  cases b with
  | empty => rfl
  | coset k s right => rfl

theorem widenWhole (b : Congruence) : whole.widen b = whole :=
  ext fun n => iff_of_true (joinSound (.inl (memWhole n))) (memWhole n)

instance : SettlingDomain Congruence where
  rank := period
  topPossible := rfl
  leqRefl _ := leqExact.mpr fun _ inside => inside
  widenTop := widenWhole
  widenPossible {a} b full := widenFull a b full
  rankWiden {a} b full := (periodWiden a b full).1
  steady {a b} full same := (periodWiden a b full).2 same

end Congruence
end Abstraction
