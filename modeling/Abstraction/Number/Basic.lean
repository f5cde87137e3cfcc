import Abstraction.Number.Double

/-! Numbers: integers of any size, finite doubles and the two infinities. The order compares exact
values. Arithmetic on integers is exact; as soon as a double or an infinity takes part, the other
operand has to be a double too, and an integer too large for one is a fault. -/
namespace Abstraction

inductive ArithmeticFault where
  /-- An integer beyond the doubles met a double or an infinity. -/
  | tooLarge
  | indeterminate
  | quotientByZero
  | remainderByZero
  | doubleByZero
  deriving DecidableEq, Repr

def ArithmeticFault.message : ArithmeticFault → String
  | .tooLarge => "int too large to convert to float"
  | .indeterminate => "sum of opposite infinities"
  | .quotientByZero => "integer division or modulo by zero"
  | .remainderByZero => "integer modulo by zero"
  | .doubleByZero => "float floor division by zero"

inductive Number where
  | negInf
  | int (value : Int)
  | double (value : Double)
  | posInf
  deriving DecidableEq, Repr

namespace Number

def le : Number → Number → Bool
  | .negInf, _ => true
  | .int _, .negInf => false
  | .int m, .int n => decide (m ≤ n)
  | .int m, .double y => decide (m * Double.one ≤ y.signed)
  | .int _, .posInf => true
  | .double _, .negInf => false
  | .double x, .int n => decide (x.signed ≤ n * Double.one)
  | .double x, .double y => decide (x.signed ≤ y.signed)
  | .double _, .posInf => true
  | .posInf, .negInf => false
  | .posInf, .int _ => false
  | .posInf, .double _ => false
  | .posInf, .posInf => true

instance : LE Number := ⟨fun a b => le a b = true⟩
instance : LT Number := ⟨fun a b => ¬ b ≤ a⟩
instance (a b : Number) : Decidable (a ≤ b) := inferInstanceAs (Decidable (le a b = true))
instance (a b : Number) : Decidable (a < b) := inferInstanceAs (Decidable (¬ b ≤ a))

theorem notLe {a b : Number} : ¬ a ≤ b ↔ b < a := Iff.rfl

theorem leIff {a b : Number} : a ≤ b ↔ le a b = true := Iff.rfl

theorem leRefl (a : Number) : a ≤ a := by
  cases a with
  | negInf => rfl
  | int n => exact decide_eq_true (Int.le_refl n)
  | double x => exact decide_eq_true (Int.le_refl x.signed)
  | posInf => rfl

theorem leTotal (a b : Number) : a ≤ b ∨ b ≤ a := by
  cases a <;> cases b <;>
    simp only [leIff, le, decide_eq_true_eq, Bool.false_eq_true, or_true, true_or, or_self]
  all_goals exact Int.le_total _ _

def least (a b : Number) : Number := if a ≤ b then a else b

def greatest (a b : Number) : Number := if b ≤ a then a else b

def sameValue (a b : Number) : Bool := le a b && le b a

def isInfinite : Number → Bool
  | .negInf | .posInf => true
  | .int _ | .double _ => false

def normalise : Number → Number
  | .double x => if x.isIntegral then .int x.truncate else .double x
  | .negInf => .negInf
  | .int n => .int n
  | .posInf => .posInf

def truncate : Number → Option Int
  | .int n => some n
  | .double x => some x.truncate
  | .negInf | .posInf => none

def rounded (num : Int) (den : Nat) : Number :=
  match Double.round num den with
  | some x => .double x
  | none => if num < 0 then .negInf else .posInf

def ofDecimal (negative : Bool) (digits : Nat) (exponent : Int) : Number :=
  let num := digits * Double.one * Nat.pow 10 exponent.toNat
  match rounded num (Nat.pow 10 (-exponent).toNat) with
  | .double x => .double ⟨negative, x.units⟩
  | _ => if negative then .negInf else .posInf

/-- Magnitudes of integers that a double can take: past this one, rounding leaves the range. -/
@[irreducible] def integerLimit : Nat := Nat.pow 2 1024 - Nat.pow 2 970

def fits (n : Int) : Bool := decide (n.natAbs < integerLimit)

def toDouble (n : Int) : Except ArithmeticFault Double :=
  match Double.ofInt n with
  | some x => .ok x
  | none => .error .tooLarge

def besideInfinity (n : Int) (result : Number) : Except ArithmeticFault Number :=
  if fits n then .ok result else .error .tooLarge

def neg : Number → Number
  | .negInf => .posInf
  | .int n => .int (-n)
  | .double x => .double x.neg
  | .posInf => .negInf

def pred : Number → Number
  | .negInf => .negInf
  | .int n => .int (n - 1)
  | .double x => rounded (x.signed - Double.one) 1
  | .posInf => .posInf

def succ : Number → Number
  | .negInf => .negInf
  | .int n => .int (n + 1)
  | .double x => rounded (x.signed + Double.one) 1
  | .posInf => .posInf

def add : Number → Number → Except ArithmeticFault Number
  | .int m, .int n => .ok (.int (m + n))
  | .int m, .double y => do
      let x ← toDouble m
      .ok (rounded (x.signed + y.signed) 1)
  | .double x, .int n => do
      let y ← toDouble n
      .ok (rounded (x.signed + y.signed) 1)
  | .double x, .double y => .ok (rounded (x.signed + y.signed) 1)
  | .negInf, .int n => besideInfinity n .negInf
  | .int n, .negInf => besideInfinity n .negInf
  | .posInf, .int n => besideInfinity n .posInf
  | .int n, .posInf => besideInfinity n .posInf
  | .negInf, .double _ => .ok .negInf
  | .double _, .negInf => .ok .negInf
  | .posInf, .double _ => .ok .posInf
  | .double _, .posInf => .ok .posInf
  | .negInf, .negInf => .ok .negInf
  | .posInf, .posInf => .ok .posInf
  | .negInf, .posInf => .error .indeterminate
  | .posInf, .negInf => .error .indeterminate

def sub (a b : Number) : Except ArithmeticFault Number := add a (neg b)

def scaleInfinity (positive : Bool) (factor : Int) : Number :=
  if factor = 0 then .int 0
  else if positive = decide (0 < factor) then .posInf else .negInf

def mul : Number → Number → Except ArithmeticFault Number
  | .int m, .int n => .ok (.int (m * n))
  | .int m, .double y => do
      let x ← toDouble m
      .ok (rounded (x.signed * y.signed) Double.one)
  | .double x, .int n => do
      let y ← toDouble n
      .ok (rounded (x.signed * y.signed) Double.one)
  | .double x, .double y => .ok (rounded (x.signed * y.signed) Double.one)
  | .negInf, .int n => besideInfinity n (scaleInfinity false n)
  | .int n, .negInf => besideInfinity n (scaleInfinity false n)
  | .posInf, .int n => besideInfinity n (scaleInfinity true n)
  | .int n, .posInf => besideInfinity n (scaleInfinity true n)
  | .negInf, .double y => .ok (scaleInfinity false y.signed)
  | .double x, .negInf => .ok (scaleInfinity false x.signed)
  | .posInf, .double y => .ok (scaleInfinity true y.signed)
  | .double x, .posInf => .ok (scaleInfinity true x.signed)
  | .negInf, .negInf => .ok .posInf
  | .posInf, .posInf => .ok .posInf
  | .negInf, .posInf => .ok .negInf
  | .posInf, .negInf => .ok .negInf

def snap : Number → Number
  | .double x =>
      let below := x.signed.fdiv Double.one
      let whole := if 2 * x.signed.fmod Double.one > (Double.one : Int) then below + 1 else below
      rounded (whole * Double.one) 1
  | .negInf => .negInf
  | .int n => .int n
  | .posInf => .posInf

/-- Floor quotient of doubles. The remainder is exact; the difference from it, the quotient and
the step down when the remainder's sign is not the divisor's are each rounded, and the outcome is
snapped to an integer. -/
def floorDivDouble (x y : Double) : Except ArithmeticFault Number :=
  if y.units = 0 then .error .doubleByZero
  else
    let rest := x.signed.tmod y.signed
    let difference := Double.nearest (x.signed - rest).natAbs 1
    let positive := decide (0 < x.signed - rest) == decide (0 < y.signed)
    let magnitude : Int := difference * Double.one
    let quotient := rounded (if positive then magnitude else -magnitude) y.units
    .ok (snap (if rest ≠ 0 ∧ decide (rest < 0) ≠ decide (y.signed < 0) then quotient.pred
      else quotient))

def isZero : Number → Bool
  | .int n => n == 0
  | .double x => x.units == 0
  | .negInf | .posInf => false

def isPositive (a : Number) : Bool := decide (.int 0 < a)

/-- Floor quotient, extended to infinite operands: against an infinite divisor the quotient is 0
or -1 by the signs, and an infinite dividend keeps its sign only over a positive divisor. -/
def floorDiv (a b : Number) : Except ArithmeticFault Number :=
  if a.isZero then .ok (.int 0)
  else if b.isInfinite then .ok (.int (if a.isPositive = b.isPositive then 0 else -1))
  else if a.isInfinite then .ok (if b.isPositive then a else a.neg)
  else match a, b with
    | .int m, .int n => if n = 0 then .error .quotientByZero else .ok (.int (m.fdiv n))
    | .int m, .double y => do
        let x ← toDouble m
        floorDivDouble x y
    | .double x, .int n => do
        let y ← toDouble n
        floorDivDouble x y
    | .double x, .double y => floorDivDouble x y
    | _, _ => .ok a

end Number
end Abstraction
