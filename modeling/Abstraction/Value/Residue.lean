import Abstraction.Number.Basic

/-! Divisibility, the extended Euclidean algorithm and simultaneous congruences, over all integers.
Quotients and remainders take the floor. -/
namespace Abstraction.Residue

def divides (m n : Int) : Bool := if m = 0 then decide (n = 0) else decide (n.fmod m = 0)

theorem dividesExact {m n : Int} : divides m n = true ↔ m ∣ n := by
  unfold divides
  split
  · rename_i zero; subst zero; rw [decide_eq_true_eq]; exact Int.zero_dvd.symm
  · simp only [decide_eq_true_eq]; exact Int.dvd_iff_fmod_eq_zero.symm

def congruent (a b m : Int) : Bool := divides m (a - b).natAbs

theorem congruentExact {a b m : Int} : congruent a b m = true ↔ m ∣ a - b := by
  rw [congruent, dividesExact, Int.dvd_natAbs]

structure Bezout where
  divisor : Int
  left : Int
  right : Int
  deriving DecidableEq, Repr

def Inside (y x : Int) : Prop := (0 < y ∧ y < x) ∨ (x < y ∧ y < 0)

theorem fmodInside (a : Int) {b : Int} (nonzero : b ≠ 0) :
    a.fmod b = 0 ∨ Inside (a.fmod b) b := by
  unfold Inside
  rcases Int.lt_or_gt_of_ne nonzero with negative | positive
  · have low := Int.fmod_nonneg_of_pos (-a) (Int.neg_pos_of_neg negative)
    have high := Int.fmod_lt_of_pos (-a) (Int.neg_pos_of_neg negative)
    rw [Int.neg_fmod_neg] at low high
    omega
  · have low := Int.fmod_nonneg_of_pos a positive
    have high := Int.fmod_lt_of_pos a positive
    omega

theorem Inside.smaller {y x : Int} (inside : Inside y x) : y.natAbs < x.natAbs := by
  unfold Inside at inside
  omega

theorem fmodSmaller (a : Int) {b : Int} (nonzero : b ≠ 0) : (a.fmod b).natAbs < b.natAbs := by
  rcases fmodInside a nonzero with zero | inside
  · rw [zero]
    exact Int.natAbs_pos.mpr nonzero
  · exact inside.smaller

def bezout (a b : Int) : Bezout :=
  if _h : b = 0 then ⟨a, 1, 0⟩
  else
    let inner := bezout b (a.fmod b)
    ⟨inner.divisor, inner.right, inner.left - a.fdiv b * inner.right⟩
termination_by b.natAbs
decreasing_by exact fmodSmaller a _h

def solve (m r n s : Int) : Int :=
  let b := bezout m n
  (r + m * (s - r).fdiv b.divisor * b.left).fmod (m.fdiv b.divisor * n)

def solveChecked (m r n s : Int) : Except ArithmeticFault Int :=
  let divisor := (bezout m n).divisor
  if divisor = 0 then .error .quotientByZero
  else if m.fdiv divisor * n = 0 then .error .remainderByZero
  else .ok (solve m r n s)

end Abstraction.Residue
