import Mathlib.Algebra.Ring.Divisibility.Basic
import Mathlib.Tactic.LinearCombination
import Mathlib.Tactic.Ring
import Abstraction.Value.Residue

/-! The extended Euclidean algorithm ends in a common divisor of its operands and combines them to it.
So the solution of two congruences satisfies the first always, and the second whenever that
divisor divides the difference of the residues. Nothing is asked of the signs. -/
namespace Abstraction.Residue

variable {m r n s : Int}

theorem bezoutDivides (a b : Int) : (bezout a b).divisor ∣ a ∧ (bezout a b).divisor ∣ b := by
  fun_induction bezout a b with
  | case1 a => exact ⟨dvd_refl a, dvd_zero a⟩
  | case2 a b nonzero inner ih =>
    obtain ⟨left, right⟩ := ih
    refine ⟨?_, left⟩
    have step : a = b * a.fdiv b + a.fmod b := (Int.mul_fdiv_add_fmod a b).symm
    rw [step]
    exact dvd_add (left.mul_right _) right

theorem bezoutCombines (a b : Int) :
    a * (bezout a b).left + b * (bezout a b).right = (bezout a b).divisor := by
  fun_induction bezout a b with
  | case1 a => simp
  | case2 a b nonzero inner ih =>
    have step := Int.mul_fdiv_add_fmod a b
    dsimp only
    linear_combination ih - inner.right * step

theorem fmodCongruent {k l : Int} (divides : k ∣ l) (x : Int) : k ∣ x.fmod l - x := by
  have step := Int.mul_fdiv_add_fmod x l
  have same : x.fmod l - x = l * -x.fdiv l := by linear_combination step
  rw [same]
  exact divides.mul_right _

theorem fdivCancel {k x : Int} (divides : k ∣ x) : x.fdiv k * k = x := by
  have step := Int.mul_fdiv_add_fmod x k
  rw [Int.fmod_eq_zero_of_dvd divides] at step
  linear_combination step

theorem periodDivides (m n : Int) :
    m ∣ m.fdiv (bezout m n).divisor * n ∧ n ∣ m.fdiv (bezout m n).divisor * n := by
  obtain ⟨left, right⟩ := bezoutDivides m n
  refine ⟨?_, Int.dvd_mul_left _ _⟩
  obtain ⟨k, multiple⟩ := right
  refine ⟨k, ?_⟩
  have cancelled := fdivCancel left
  linear_combination m.fdiv (bezout m n).divisor * multiple + k * cancelled

theorem solveLeft (m r n s : Int) : m ∣ solve m r n s - r := by
  have reduced := fmodCongruent (periodDivides m n).1
    (r + m * (s - r).fdiv (bezout m n).divisor * (bezout m n).left)
  have whole : m ∣ r + m * (s - r).fdiv (bezout m n).divisor * (bezout m n).left - r :=
    ⟨(s - r).fdiv (bezout m n).divisor * (bezout m n).left, by ring⟩
  simpa only [solve, sub_add_sub_cancel] using dvd_add reduced whole

theorem solveRight (solvable : (bezout m n).divisor ∣ s - r) : n ∣ solve m r n s - s := by
  have reduced := fmodCongruent (periodDivides m n).2
    (r + m * (s - r).fdiv (bezout m n).divisor * (bezout m n).left)
  have whole : n ∣ r + m * (s - r).fdiv (bezout m n).divisor * (bezout m n).left - s := by
    refine ⟨-((s - r).fdiv (bezout m n).divisor * (bezout m n).right), ?_⟩
    have combined := bezoutCombines m n
    have cancelled := fdivCancel solvable
    linear_combination (s - r).fdiv (bezout m n).divisor * combined + cancelled
  simpa only [solve, sub_add_sub_cancel] using dvd_add reduced whole

end Abstraction.Residue
