import Abstraction.Number.Basic

/-! Numbers as text. A double is written with the fewest digits that read back as it, the nearest
such numeral if there are several; positionally while the decimal point is close, else with an
exponent. -/
namespace Abstraction

structure Decimal where
  digits : Nat
  exponent : Int
  deriving DecidableEq, Repr

namespace Decimal

def gap (units : Nat) : Nat := Nat.pow 2 (units.log2 - 52)

/-- The multiples of `10 ^ exponent` on either side of `units`, nearest first, kept if they read
back as `units`. The reals that do reach half a gap up and half a gap down, a quarter under a
power of two, the ends themselves only for an even significand. -/
def onGrid (units : Nat) (exponent : Int) : List Nat :=
  let scale := Nat.pow 10 (-exponent).toNat
  let den := Double.one * Nat.pow 10 exponent.toNat
  let step := gap units
  let below := if 1 < step ∧ units = Nat.pow 2 52 * step then step else 2 * step
  let low := (4 * units - below) * scale
  let high := (4 * units + 2 * step) * scale
  let isEven := units / step % 2 == 0
  let floor := units * scale / den
  let readsBack := fun c =>
    let value := 4 * c * den
    if isEven then decide (low ≤ value ∧ value ≤ high) else decide (low < value ∧ value < high)
  let nearer := Double.halfEven (units * scale) den
  (if nearer = floor then [floor, floor + 1] else [floor + 1, floor]).filter readsBack

def magnitude (units : Nat) : Int :=
  ((units * Nat.pow 10 400 / Double.one).repr.length : Int) - 400

def shortest (units : Nat) : Decimal :=
  let top := magnitude units
  let found := (List.range 17).findSome? fun (k : Nat) =>
    let exponent := top - (k + 1)
    (onGrid units exponent).head?.map fun digits => Decimal.mk digits exponent
  found.getD ⟨units, 0⟩

def layout (d : Decimal) : List Char × Int :=
  let shown := d.digits.repr.toList
  let kept := (shown.reverse.dropWhile (· == '0')).reverse
  (kept, shown.length + d.exponent)

def exponentText (e : Int) : String :=
  let shown := e.natAbs.repr
  (if e < 0 then "-" else "+") ++ (if shown.length < 2 then "0" ++ shown else shown)

def text (d : Decimal) : String :=
  let (digits, point) := d.layout
  if point ≤ -4 ∨ 16 < point then
    let fraction := digits.drop 1
    String.ofList (digits.take 1 ++ (if fraction.isEmpty then [] else '.' :: fraction))
      ++ "e" ++ exponentText (point - 1)
  else if point ≤ 0 then
    "0." ++ String.ofList (List.replicate (-point).toNat '0' ++ digits)
  else
    let place := point.toNat
    let whole := digits.take place ++ List.replicate (place - digits.length) '0'
    let fraction := digits.drop place
    String.ofList (whole ++ '.' :: (if fraction.isEmpty then ['0'] else fraction))

end Decimal

namespace Double

def text (x : Double) : String :=
  (if x.negative then "-" else "")
    ++ (if x.units = 0 then "0.0" else (Decimal.shortest x.units).text)

end Double

namespace Number

def text : Number → String
  | .negInf => "-inf"
  | .int n => toString n
  | .double x => x.text
  | .posInf => "inf"

def boundText : Number → String
  | .negInf => "-∞"
  | .int n => toString n
  | .double x => x.text
  | .posInf => "+∞"

end Number
end Abstraction
