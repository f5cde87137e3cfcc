import Abstraction.Proofs.Faults
import Abstraction.Proofs.Interval.Order

/-! Interval arithmetic loses nothing that an interval can tell: sums, differences, products, negations
and the quotients over a divisor other than zero are the least intervals over what the members
yield. What carries it is that the ends of the operands are limits of their members, so that the
corners are limits of the results. -/
namespace Abstraction.Interval
open ArithmeticFault (bindOk yields)
open Number (LimitOf)
open Operator (Results)

variable {s : Int → Prop} {op : Operator} {a b c r : Interval} {lo hi : Number} {n : Int}

/-- The ends of the least interval over a set. A finite end is a member, and an end is infinite exactly
where the members have no bound on its side. -/
structure Ends (s : Int → Prop) (lo hi : Number) : Prop where
  integral : lo.Integral ∧ hi.Integral
  encloses : ∀ n, s n → lo ≤ .int n ∧ .int n ≤ hi
  lowest : ∀ m, lo = .int m → s m
  highest : ∀ m, hi = .int m → s m
  unboundedBelow : lo = .negInf ↔ ∀ k, ∃ n, s n ∧ n < k
  unboundedAbove : hi = .posInf ↔ ∀ k, ∃ n, s n ∧ k < n

def IsHull (s : Int → Prop) : Interval → Prop
  | .empty => ∀ n, ¬ s n
  | .range lo hi _ => Ends s lo hi

theorem endsOfLimits (proper : Proper lo hi) (low : LimitOf s lo) (high : LimitOf s hi)
    (encloses : ∀ n, s n → lo ≤ .int n ∧ .int n ≤ hi) : Ends s lo hi where
  integral := ⟨Number.limitIntegral low, Number.limitIntegral high⟩
  encloses := encloses
  lowest m same := by subst same; exact low
  highest m same := by subst same; exact high
  unboundedBelow := by
    refine ⟨fun same => by subst same; exact low, fun unbounded => ?_⟩
    refine Number.leAntisymm (Number.limitIntegral low) trivial ?_ (Number.negInfLe _)
    exact Number.belowLimit (a := .negInf) unbounded (by simp) (Number.limitIntegral low)
      fun n inside => (encloses n inside).1
  unboundedAbove := by
    refine ⟨fun same => by subst same; exact high, fun unbounded => ?_⟩
    refine Number.leAntisymm (Number.limitIntegral high) trivial (Number.lePosInf _) ?_
    exact Number.aboveLimit (a := .posInf) unbounded (by simp) (Number.limitIntegral high)
      fun n inside => (encloses n inside).2

theorem hullOfLimits (low : LimitOf s lo) (high : LimitOf s hi)
    (encloses : ∀ n, s n → n ∈ ofBounds lo hi) : IsHull s (ofBounds lo hi) := by
  have left := Number.limitIntegral low
  have right := Number.limitIntegral high
  simp only [memOfBounds left right] at encloses
  obtain ⟨n, inside, _⟩ := Number.limitSign low
  have proper := properOfMember (encloses n inside).1 (encloses n inside).2
  unfold ofBounds
  rw [Number.normaliseIntegral left, Number.normaliseIntegral right, dif_pos proper]
  exact endsOfLimits proper low high encloses

theorem hullOfCorners {ac ad bc bd : Number} (first : LimitOf s ac) (second : LimitOf s ad)
    (third : LimitOf s bc) (fourth : LimitOf s bd) (encloses : ∀ n, s n → n ∈ hull ac ad bc bd) :
    IsHull s (hull ac ad bc bd) :=
  hullOfLimits
    (Number.limitLeast (Number.limitLeast (Number.limitLeast first second) third) fourth)
    (Number.limitGreatest (Number.limitGreatest (Number.limitGreatest first second) third) fourth)
    encloses

theorem Ends.limits (ends : Ends s lo hi) (proper : Proper lo hi) :
    LimitOf s lo ∧ LimitOf s hi := by
  obtain ⟨⟨left, right⟩, _, lowest, highest, below, above⟩ := ends
  constructor
  · cases lo with
    | int m => exact lowest m rfl
    | negInf => exact below.mp rfl
    | double x => exact left.elim
    | posInf => exact (proper.2.1 rfl).elim
  · cases hi with
    | int m => exact highest m rfl
    | posInf => exact above.mp rfl
    | double x => exact right.elim
    | negInf => exact (proper.2.2 rfl).elim

theorem hullLeast (hull : IsHull s a) (integral : c.Integral) (included : ∀ n, s n → n ∈ c)
    (inside : n ∈ a) : n ∈ c := by
  cases a with
  | empty => exact (notMemEmpty n inside).elim
  | range lo hi proper =>
    obtain ⟨low, high⟩ := Ends.limits hull proper
    cases c with
    | empty =>
      obtain ⟨m, member, _⟩ := Number.limitSign low
      exact (notMemEmpty m (included m member)).elim
    | range least greatest _ =>
      have outer := memRange.mp inside
      have lower : least ≤ lo := Number.belowLimit low proper.2.1 integral.1
        fun m member => (memRange.mp (included m member)).1
      have upper : hi ≤ greatest := Number.aboveLimit high proper.2.2 integral.2
        fun m member => (memRange.mp (included m member)).2
      exact memRange.mpr ⟨lower.trans outer.1, outer.2.trans upper⟩

theorem Encloses.results (encloses : Encloses op a b r) (known : Results op (· ∈ a) (· ∈ b) n) :
    n ∈ r := by
  obtain ⟨x, first, y, second, yields⟩ := known
  exact encloses.member x first y second n yields

section
variable (left : a.Integral) (right : b.Integral) (full : a.isEmpty = false)
  (full' : b.isEmpty = false)
include left right full full'

theorem addHull (ok : a.add b = .ok r) : IsHull (Results .add (· ∈ a) (· ∈ b)) r := by
  have encloses := addEncloses left right ok
  match a, b with
  | .range lo hi _, .range low high _ =>
    obtain ⟨lowest, lower, ok⟩ := bindOk ok
    obtain ⟨highest, upper, ok⟩ := bindOk ok
    cases ok
    have first := rangeLimits left
    have second := rangeLimits right
    exact hullOfLimits (Number.limitSum first.1 second.1 lower)
      (Number.limitSum first.2 second.2 upper) fun _ => encloses.results

theorem subHull (ok : a.sub b = .ok r) : IsHull (Results .sub (· ∈ a) (· ∈ b)) r := by
  have encloses := subEncloses left right ok
  -- A difference is the sum with the negated operand.
  have difference (n : Int) (known : Results .add (· ∈ a) (fun y => -y ∈ b) n) :
      Results .sub (· ∈ a) (· ∈ b) n := by
    obtain ⟨x, first, y, second, same⟩ := known
    exact ⟨x, first, -y, second, same.trans (Int.sub_neg x y).symm⟩
  match a, b with
  | .range lo hi _, .range low high _ =>
    obtain ⟨lowest, lower, ok⟩ := bindOk ok
    obtain ⟨highest, upper, ok⟩ := bindOk ok
    cases ok
    have first := rangeLimits left
    have second := rangeLimits right
    exact hullOfLimits
      (Number.limitMono difference (Number.limitSum first.1 (Number.limitNeg second.2) lower))
      (Number.limitMono difference (Number.limitSum first.2 (Number.limitNeg second.1) upper))
      fun _ => encloses.results

theorem mulHull (ok : a.mul b = .ok r) : IsHull (Results .mul (· ∈ a) (· ∈ b)) r := by
  have encloses := mulEncloses left right ok
  obtain ⟨x, first⟩ := memberIntegral left full
  obtain ⟨y, second⟩ := memberIntegral right full'
  match a, b with
  | .range lo hi p, .range low high q =>
    simp only [mul] at ok
    split at ok
    · rename_i zero
      cases ok
      have zeroResult : Results .mul (· ∈ range lo hi p) (· ∈ range low high q) 0 := by
        rcases zero with zero | zero
        · obtain rfl := memConstValue left zero first
          exact ⟨0, first, y, second, (Int.zero_mul y).symm⟩
        · obtain rfl := memConstValue right zero second
          exact ⟨x, first, 0, second, (Int.mul_zero x).symm⟩
      exact hullOfLimits zeroResult zeroResult fun _ => encloses.results
    · obtain ⟨ac, hac, ok⟩ := bindOk ok
      obtain ⟨ad, had, ok⟩ := bindOk ok
      obtain ⟨bc, hbc, ok⟩ := bindOk ok
      obtain ⟨bd, hbd, ok⟩ := bindOk ok
      cases ok
      have ends := rangeLimits left
      have ends' := rangeLimits right
      refine hullOfCorners ?_ ?_ ?_ ?_ fun _ => encloses.results
      · exact Number.mulExact left.1 right.1 hac ▸ Number.limitProduct ends.1 ends'.1
      · exact Number.mulExact left.1 right.2 had ▸ Number.limitProduct ends.1 ends'.2
      · exact Number.mulExact left.2 right.1 hbc ▸ Number.limitProduct ends.2 ends'.1
      · exact Number.mulExact left.2 right.2 hbd ▸ Number.limitProduct ends.2 ends'.2

theorem divHull (nonzero : 0 ∉ b) (ok : a.div b = .ok r) :
    IsHull (Results .div (· ∈ a) (· ∈ b)) r := by
  have encloses := divEncloses left right ok
  obtain ⟨y, second⟩ := memberIntegral right full'
  match a, b with
  | .range lo hi p, .range low high q =>
    simp only [div] at ok
    split at ok
    · rename_i zero
      exact (nonzero (memConstValue right zero second ▸ second)).elim
    split at ok
    · rename_i inside
      exact (nonzero inside).elim
    obtain ⟨ac, hac, ok⟩ := bindOk ok
    obtain ⟨ad, had, ok⟩ := bindOk ok
    obtain ⟨bc, hbc, ok⟩ := bindOk ok
    obtain ⟨bd, hbd, ok⟩ := bindOk ok
    cases ok
    have ends := rangeLimits left
    have ends' := rangeLimits right
    have apart (y : Int) (inside : y ∈ range low high q) : y ≠ 0 :=
      fun zero => nonzero (zero ▸ inside)
    refine hullOfCorners ?_ ?_ ?_ ?_ fun _ => encloses.results
    · exact Number.floorDivExact left.1 right.1 hac ▸ Number.limitQuotient ends.1 ends'.1 apart
    · exact Number.floorDivExact left.1 right.2 had ▸ Number.limitQuotient ends.1 ends'.2 apart
    · exact Number.floorDivExact left.2 right.1 hbc ▸ Number.limitQuotient ends.2 ends'.1 apart
    · exact Number.floorDivExact left.2 right.2 hbd ▸ Number.limitQuotient ends.2 ends'.2 apart

theorem evalBinaryHull (tight : op = .add ∨ op = .sub ∨ op = .mul ∨ (op = .div ∧ 0 ∉ b))
    (ok : evalBinary op a b = .ok r) : IsHull (Results op (· ∈ a) (· ∈ b)) r := by
  rcases tight with rfl | rfl | rfl | ⟨rfl, nonzero⟩
  · exact addHull left right full full' ok
  · exact subHull left right full full' ok
  · exact mulHull left right full full' ok
  · exact divHull left right full full' nonzero ok

end

theorem negateHull (integral : a.Integral) (full : a.isEmpty = false) :
    IsHull (fun n => ∃ x ∈ a, n = -x) a.negate := by
  have negated (n : Int) (known : -n ∈ a) : ∃ x ∈ a, n = -x := ⟨-n, known, (Int.neg_neg n).symm⟩
  match a with
  | .range lo hi _ =>
    have ends := rangeLimits integral
    refine hullOfLimits (Number.limitMono negated (Number.limitNeg ends.2))
      (Number.limitMono negated (Number.limitNeg ends.1)) fun n known => ?_
    obtain ⟨x, inside, rfl⟩ := known
    exact negateSound integral inside

theorem arithmeticHull (a b : Interval) (left : a.Integral) (right : b.Integral)
    (full : a.isEmpty = false) (full' : b.isEmpty = false) :
    (∀ op, op = .add ∨ op = .sub ∨ op = .mul ∨ (op = .div ∧ 0 ∉ b) →
      evalBinary op a b = .error .tooLarge ∨ ∃ r, evalBinary op a b = .ok r ∧
        IsHull (fun n => ∃ x ∈ a, ∃ y ∈ b, op.Yields x y n) r) ∧
    IsHull (fun n => ∃ x ∈ a, n = -x) (evalUnary .negate a) := by
  refine ⟨fun op tight => ?_, negateHull left full⟩
  cases result : evalBinary op a b with
  | error fault =>
    obtain rfl := evalBinaryBySize op left right fault result
    exact .inl rfl
  | ok r => exact .inr ⟨r, rfl, evalBinaryHull left right full full' tight result⟩

/- Quotients of the integers from -7 up over those from -2 down: 3 is one of them, and they have no
lower bound. -/
theorem arithmeticHullQuotient :
    let a := ofBounds (.int (-7)) .posInf
    let b := ofBounds .negInf (.int (-2))
    evalBinary .div a b = .ok (ofBounds .negInf (.int 3)) ∧
      (∃ x ∈ a, ∃ y ∈ b, y ≠ 0 ∧ 3 = x.fdiv y) ∧
      ∀ k, ∃ n, (∃ x ∈ a, ∃ y ∈ b, y ≠ 0 ∧ n = x.fdiv y) ∧ n < k := by
  intro a b
  obtain ⟨_, value, rfl⟩ : ∃ r, evalBinary .div a b = .ok r ∧ r = ofBounds .negInf (.int 3) :=
    yields (by decide +kernel)
  obtain ⟨binary, _⟩ := arithmeticHull a b (by decide +kernel) (by decide +kernel)
    (by decide +kernel) (by decide +kernel)
  rcases binary .div (.inr (.inr (.inr ⟨rfl, by decide +kernel⟩))) with failed | ⟨r, ok, hull⟩
  · rw [value] at failed
    contradiction
  · cases Except.ok.inj (value.symm.trans ok)
    have ends : Ends (fun n => ∃ x ∈ a, ∃ y ∈ b, Operator.Yields .div x y n) .negInf (.int 3) := hull
    exact ⟨value, ends.highest 3 rfl, ends.unboundedBelow.mp rfl⟩

end Abstraction.Interval
