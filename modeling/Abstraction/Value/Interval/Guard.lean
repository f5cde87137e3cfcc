import Abstraction.Value.Interval.Arithmetic
import Abstraction.Value.Domain

/-! Comparisons of intervals: the verdict on a comparison, and what is left of the operands where it
holds. -/
namespace Abstraction.Interval

def refineLt (a : Interval) (bound : Number) : Interval := a.meet (ofBounds .negInf bound.pred)

def refineLe (a : Interval) (bound : Number) : Interval := a.meet (ofBounds .negInf bound)

def refineGt (a : Interval) (bound : Number) : Interval := a.meet (ofBounds bound.succ .posInf)

def refineGe (a : Interval) (bound : Number) : Interval := a.meet (ofBounds bound .posInf)

def refineNe (a b : Interval) : Interval :=
  match a, b.constValue with
  | .range lo hi p, some n =>
      if lo = .int n then ofBounds (.int (n + 1)) hi
      else if hi = .int n then ofBounds lo (.int (n - 1))
      else .range lo hi p
  | a, _ => a

def lessVerdict (a b c d : Number) : Verdict :=
  if b < c then .holds else if d ≤ a then .fails else .unknown

def atMostVerdict (a b c d : Number) : Verdict :=
  if b ≤ c then .holds else if d < a then .fails else .unknown

def equalVerdict (a b : Interval) : Verdict :=
  if (a.meet b).isEmpty then .fails
  else if a.isConst && a == b then .holds
  else .unknown

def compare (op : Operator) (l r : Interval) : Verdict :=
  match l, r with
  | .range a b _, .range c d _ =>
      match op with
      | .lt => lessVerdict a b c d
      | .le => atMostVerdict a b c d
      | .gt => lessVerdict c d a b
      | .ge => atMostVerdict c d a b
      | .eq => equalVerdict l r
      | .ne => (equalVerdict l r).negate
      | _ => .unknown
  | _, _ => .unknown

def refine (op : Operator) (l r : Interval) : Interval × Interval :=
  match l, r with
  | .range a b _, .range c d _ =>
      match op with
      | .lt => (l.refineLt d, r.refineGt a)
      | .le => (l.refineLe d, r.refineGe a)
      | .gt => (l.refineGt c, r.refineLt b)
      | .ge => (l.refineGe c, r.refineLe b)
      | .eq => (l.meet r, l.meet r)
      | .ne => (l.refineNe r, r.refineNe l)
      | _ => (l, r)
  | _, _ => (.empty, .empty)

instance : ValueDomain Interval where
  label := "IntervalValue"
  top := whole
  bottom := .empty
  isTop := isWhole
  isBottom := isEmpty
  leq := leq
  join := join
  meet := meet
  widen := widen
  narrow := narrow
  evalConstant := evalConstant
  evalUnary := evalUnary
  evalBinary := evalBinary
  compare := compare
  refine := refine
  render := render

end Abstraction.Interval
