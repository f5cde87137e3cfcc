import Mathlib.Data.Int.ModEq
import Mathlib.Data.Nat.Fib.Basic
import Abstraction.Proofs.Residue

/-! The extended Euclidean algorithm returns on operands of any sign, with their greatest common divisor up
to its sign, and two congruences with positive moduli have one solution in their period. A
remainder that takes the floor lies between zero and its divisor, on the divisor's side of zero. So
from the second call on the operands have one sign and go down as natural numbers do. -/
namespace Abstraction.Residue

variable {a b m r n s x y : Int} {calls : Nat} {found : Bezout}

theorem Inside.fmodSize (inside : Inside y x) : (x.fmod y).natAbs = x.natAbs % y.natAbs := by
  have positive {u v : Int} (low : 0 < v) (high : v < u) :
      (u.fmod v).natAbs = u.natAbs % v.natAbs := by
    rw [Int.fmod_eq_emod_of_nonneg u low.le, Int.natAbs_emod u low.ne',
      if_pos (.inl (low.trans high).le)]
  rcases inside with ⟨low, high⟩ | ⟨low, high⟩
  · exact positive low high
  · have mirrored := positive (Int.neg_pos_of_neg high) (Int.neg_lt_neg low)
    rwa [Int.neg_fmod_neg, Int.natAbs_neg, Int.natAbs_neg, Int.natAbs_neg] at mirrored

theorem Inside.room (inside : Inside y x) : (x.fmod y).natAbs + y.natAbs ≤ x.natAbs := by
  have smaller := inside.smaller
  have rest := Nat.mod_le (x.natAbs - y.natAbs) y.natAbs
  rw [inside.fmodSize, Nat.mod_eq_sub_mod smaller.le]
  omega

/-- The calls that the algorithm makes on two operands, each inside the one before, and what the
outermost returns. -/
inductive Returns : Int → Int → Nat → Bezout → Prop where
  | last (a : Int) : Returns a 0 1 ⟨a, 1, 0⟩
  | call {a b calls inner} (nonzero : b ≠ 0) (rest : Returns b (a.fmod b) calls inner) :
      Returns a b (calls + 1) ⟨inner.divisor, inner.right, inner.left - a.fdiv b * inner.right⟩

theorem bezoutZero (a : Int) : bezout a 0 = ⟨a, 1, 0⟩ := by rw [bezout, dif_pos rfl]

theorem bezoutReturns (a b : Int) : ∃ calls, Returns a b calls (bezout a b) := by
  fun_induction bezout a b with
  | case1 a => exact ⟨1, .last a⟩
  | case2 a b nonzero inner ih =>
    obtain ⟨calls, rest⟩ := ih
    exact ⟨calls + 1, .call nonzero rest⟩

theorem Returns.isBezout (run : Returns a b calls found) : found = bezout a b := by
  induction run with
  | last a => exact (bezoutZero a).symm
  | call nonzero rest ih => rw [bezout, dif_neg nonzero, ← ih]

theorem Returns.atOnce (run : Returns a 0 calls found) : calls = 1 := by
  cases run with
  | last => rfl
  | call nonzero => exact absurd rfl nonzero

/- The induction carries both operands: the second is at least the Fibonacci number of the calls and the
first at least the next one. Two calls are the fewest, because zero is not inside. -/
theorem Returns.growth (run : Returns x y calls found) (inside : Inside y x) :
    Nat.fib calls ≤ y.natAbs ∧ Nat.fib (calls + 1) ≤ x.natAbs := by
  induction run with
  | last x =>
    unfold Inside at inside
    omega
  | @call x y calls inner nonzero rest ih =>
    rcases fmodInside x nonzero with zero | deeper
    · rw [zero] at rest
      cases rest.atOnce
      have smaller := inside.smaller
      change 1 ≤ y.natAbs ∧ 2 ≤ x.natAbs
      omega
    · obtain ⟨second, first⟩ := ih deeper
      have room := inside.room
      rw [Nat.fib_add_two]
      omega

theorem Returns.fibLe (run : Returns a b calls found) (nonzero : b ≠ 0) :
    Nat.fib calls ≤ b.natAbs := by
  cases run with
  | last => exact absurd rfl nonzero
  | call _ rest =>
    rcases fmodInside a nonzero with zero | inside
    · rw [zero] at rest
      cases rest.atOnce
      exact Int.natAbs_pos.mpr nonzero
    · exact (rest.growth inside).2

theorem bezoutSign (a : Int) (nonzero : b ≠ 0) : 0 < (bezout a b).divisor ↔ 0 < b := by
  fun_induction bezout a b with
  | case1 a => exact absurd rfl nonzero
  | case2 a b _ inner ih =>
    rcases fmodInside a nonzero with zero | inside
    · have stop : inner = ⟨b, 1, 0⟩ := zero ▸ bezoutZero b
      rw [stop]
    · unfold Inside at inside
      rw [ih (by omega)]
      omega

theorem bezoutGreatest (a b : Int) : (bezout a b).divisor.natAbs = Int.gcd a b := by
  obtain ⟨left, right⟩ := bezoutDivides a b
  apply Nat.dvd_antisymm
  · exact Int.dvd_gcd (Int.natAbs_dvd.mpr left) (Int.natAbs_dvd.mpr right)
  · rw [← Int.natCast_dvd, ← bezoutCombines a b]
    exact dvd_add ((Int.gcd_dvd_left a b).mul_right _) ((Int.gcd_dvd_right a b).mul_right _)

theorem bezoutOfNonneg (left : 0 ≤ a) (right : 0 ≤ b) : (bezout a b).divisor = Int.gcd a b := by
  have nonneg : 0 ≤ (bezout a b).divisor := by
    rcases eq_or_ne b 0 with zero | nonzero
    · rw [zero, bezoutZero]
      exact left
    · exact ((bezoutSign a nonzero).mpr (by omega)).le
  rw [← bezoutGreatest, Int.natAbs_of_nonneg nonneg]

structure Combination (a b : Int) (found : Bezout) : Prop where
  combines : a * found.left + b * found.right = found.divisor
  greatest : found.divisor.natAbs = Int.gcd a b
  nonneg : 0 ≤ a → 0 ≤ b → found.divisor = Int.gcd a b

theorem bezoutCombination (a b : Int) : Combination a b (bezout a b) :=
  ⟨bezoutCombines a b, bezoutGreatest a b, bezoutOfNonneg⟩

theorem periodExact (left : 0 < m) (right : 0 < n) :
    m.fdiv (bezout m n).divisor * n = Int.lcm m n := by
  have divides := (bezoutDivides m n).1
  rw [bezoutOfNonneg left.le right.le] at divides ⊢
  have nonzero : (Int.gcd m n : Int) ≠ 0 := by
    rw [Int.natCast_ne_zero, Ne, Int.gcd_eq_zero_iff]
    omega
  apply mul_left_cancel₀ nonzero
  calc (Int.gcd m n : Int) * (m.fdiv (Int.gcd m n) * n)
    _ = m.fdiv (Int.gcd m n) * Int.gcd m n * n := by ring
    _ = m * n := by rw [fdivCancel divides]
    _ = (m.natAbs * n.natAbs : Nat) := by
        rw [Int.natCast_mul, Int.natAbs_of_nonneg left.le, Int.natAbs_of_nonneg right.le]
    _ = Int.gcd m n * Int.lcm m n := by rw [← Int.gcd_mul_lcm, Int.natCast_mul]

theorem periodPositive (left : 0 < m) (right : 0 < n) : 0 < (Int.lcm m n : Int) :=
  Int.natCast_pos.mpr (Int.lcm_pos left.ne' right.ne')

structure IsSolution (m r n s x : Int) : Prop where
  nonneg : 0 ≤ x
  below : x < Int.lcm m n
  left : x ≡ r [ZMOD m]
  right : x ≡ s [ZMOD n]

theorem IsSolution.unique (first : IsSolution m r n s x) (second : IsSolution m r n s y) :
    x = y := by
  have period : x ≡ y [ZMOD Int.lcm m n] := Int.modEq_and_modEq_iff_modEq_lcm.mp
    ⟨first.left.trans second.left.symm, first.right.trans second.right.symm⟩
  rwa [Int.ModEq, Int.emod_eq_of_lt first.nonneg first.below,
    Int.emod_eq_of_lt second.nonneg second.below] at period

theorem solveSolution (left : 0 < m) (right : 0 < n) (solvable : r ≡ s [ZMOD Int.gcd m n]) :
    IsSolution m r n s (solve m r n s) := by
  have period := periodPositive left right
  have divides : (bezout m n).divisor ∣ s - r := by
    rw [bezoutOfNonneg left.le right.le]
    exact solvable.dvd
  obtain ⟨whole, reduced⟩ : ∃ whole : Int, solve m r n s = whole.fmod (Int.lcm m n) :=
    ⟨_, by rw [solve, periodExact left right]⟩
  exact {
    nonneg := reduced ▸ Int.fmod_nonneg_of_pos whole period
    below := reduced ▸ Int.fmod_lt_of_pos whole period
    left := (Int.modEq_iff_dvd.mpr (solveLeft m r n s)).symm
    right := (Int.modEq_iff_dvd.mpr (solveRight divides)).symm }

theorem solveReturns (left : 0 < m) (right : 0 < n) (r s : Int) :
    solveChecked m r n s = .ok (solve m r n s) := by
  have divisor : (bezout m n).divisor ≠ 0 := ((bezoutSign m right.ne').mpr right).ne'
  have period : m.fdiv (bezout m n).divisor * n ≠ 0 := by
    rw [periodExact left right]
    exact (periodPositive left right).ne'
  rw [solveChecked, if_neg divisor, if_neg period]

/- On operands of any sign the algorithm returns, the number of its calls is at most logarithmic in the
second operand, and every run gives the combination. Two congruences that agree modulo the greatest
common divisor of their positive moduli are solved without a fault, by the only solution there is. -/
theorem congruencesSolved :
    (∀ a b : Int, Combination a b (bezout a b) ∧ (∃ calls, Returns a b calls (bezout a b)) ∧
      ∀ calls found, Returns a b calls found →
        found = bezout a b ∧ (b ≠ 0 → Nat.fib calls ≤ b.natAbs)) ∧
    (∀ m n : Int, 0 < m → 0 < n → ∀ r s, r ≡ s [ZMOD Int.gcd m n] →
      solveChecked m r n s = .ok (solve m r n s) ∧
        ∀ x, IsSolution m r n s x ↔ x = solve m r n s) := by
  constructor
  · intro a b
    exact ⟨bezoutCombination a b, bezoutReturns a b, fun _ _ run => ⟨run.isBezout, run.fibLe⟩⟩
  · intro m n left right r s solvable
    have solution := solveSolution left right solvable
    refine ⟨solveReturns left right r s, fun x => ⟨fun other => other.unique solution, ?_⟩⟩
    intro same
    exact same ▸ solution

/- Moduli with a common divisor and residues outside of their periods. Neighbouring Fibonacci numbers take
as many calls as the bound allows, and a negative second operand ends in a negative divisor. -/
theorem congruencesSolvedShared :
    (-7 : Int) ≡ 15 [ZMOD Int.gcd 4 6] ∧ solveChecked 4 (-7) 6 15 = .ok 9 ∧
      (∀ x, IsSolution 4 (-7) 6 15 x ↔ x = 9) ∧
      Returns 8 5 5 (bezout 8 5) ∧ Nat.fib 5 = 5 ∧ Nat.fib 5 ≤ (5 : Int).natAbs ∧
      (bezout 8 5).divisor = 1 ∧ (bezout 8 (-5)).divisor = -1 := by
  obtain ⟨combined, solved⟩ := congruencesSolved
  have solvable : (-7 : Int) ≡ 15 [ZMOD Int.gcd 4 6] := by decide
  obtain ⟨returned, only⟩ := solved 4 6 (by decide) (by decide) (-7) 15 solvable
  have nine : 9 = solve 4 (-7) 6 15 := (only 9).mp ⟨by decide, by decide, by decide, by decide⟩
  have long : Returns 8 5 5 _ :=
    .call (by decide) (.call (by decide) (.call (by decide) (.call (by decide) (.last 1))))
  have mixed : Returns 8 (-5) 4 _ :=
    .call (by decide) (.call (by decide) (.call (by decide) (.last (-1))))
  obtain ⟨same, bound⟩ := (combined 8 5).2.2 _ _ long
  obtain ⟨other, _⟩ := (combined 8 (-5)).2.2 _ _ mixed
  rw [← nine] at returned only
  exact ⟨solvable, returned, only, same ▸ long, rfl, bound (by decide),
    (combined 8 5).1.nonneg (by decide) (by decide), other ▸ rfl⟩

end Abstraction.Residue
