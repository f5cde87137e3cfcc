/-! Finite binary numbers of 53 significant bits, held exactly: a sign and a whole number of
units of 2^-1074. Every operation is taken exactly and rounded once, a tie to the even neighbour.
Infinities belong to `Number`; there is no NaN. -/
namespace Abstraction

structure Double where
  negative : Bool
  units : Nat
  deriving DecidableEq, Repr

namespace Double

@[irreducible] def one : Nat := Nat.pow 2 1074

@[irreducible] def limit : Nat := Nat.pow 2 2098

def signed (x : Double) : Int :=
  if x.negative then -(x.units : Int) else x.units

def halfEven (num den : Nat) : Nat :=
  let quotient := num / den
  let twice := 2 * (num % den)
  if twice < den ∨ (twice = den ∧ quotient % 2 = 0) then quotient else quotient + 1

def nearest (num den : Nat) : Nat :=
  let step := Nat.pow 2 ((num / den).log2 - 52)
  halfEven num (den * step) * step

def round (num : Int) (den : Nat) : Option Double :=
  let units := nearest num.natAbs den
  if units < limit then some ⟨decide (num < 0), units⟩ else none

def ofInt (n : Int) : Option Double := round (n * one) 1

def neg (x : Double) : Double := ⟨!x.negative, x.units⟩

def isIntegral (x : Double) : Bool := x.units % one == 0

def truncate (x : Double) : Int := x.signed.tdiv one

end Double
end Abstraction
