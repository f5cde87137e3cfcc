import Abstraction.Value.Interval.Basic
import Abstraction.Program.Expr

/-! Interval arithmetic on the ends. Division and remainder take the floor: they are empty over the
divisor zero and know nothing when the divisor may be zero. -/
namespace Abstraction.Interval

def add : Interval → Interval → Except ArithmeticFault Interval
  | .range a b _, .range c d _ => do
      let lo ← a.add c
      let hi ← b.add d
      .ok (ofBounds lo hi)
  | _, _ => .ok .empty

def sub : Interval → Interval → Except ArithmeticFault Interval
  | .range a b _, .range c d _ => do
      let lo ← a.sub d
      let hi ← b.sub c
      .ok (ofBounds lo hi)
  | _, _ => .ok .empty

def negate : Interval → Interval
  | .empty => .empty
  | .range a b _ => ofBounds b.neg a.neg

def hull (a b c d : Number) : Interval :=
  ofBounds (((a.least b).least c).least d) (((a.greatest b).greatest c).greatest d)

def mul : Interval → Interval → Except ArithmeticFault Interval
  | .range a b p, .range c d q =>
      if (range a b p).constValue = some 0 ∨ (range c d q).constValue = some 0 then
        .ok (const (.int 0))
      else do
        let ac ← a.mul c
        let ad ← a.mul d
        let bc ← b.mul c
        let bd ← b.mul d
        .ok (hull ac ad bc bd)
  | _, _ => .ok .empty

/-- Over a divisor of constant sign the floor quotient is monotone in either operand, so the
quotients of the ends enclose it. -/
def div : Interval → Interval → Except ArithmeticFault Interval
  | .range a b _, .range c d q =>
      if (range c d q).constValue = some 0 then .ok .empty
      else if (range c d q).contains (.int 0) then .ok whole
      else do
        let ac ← a.floorDiv c
        let ad ← a.floorDiv d
        let bc ← b.floorDiv c
        let bd ← b.floorDiv d
        .ok (hull ac ad bc bd)
  | _, _ => .ok .empty

def rem : Interval → Interval → Interval
  | .range a b p, .range c d q =>
      if (range c d q).constValue = some 0 then .empty
      else if (range c d q).contains (.int 0) then whole
      else if .int 0 < c then
        if .int 0 ≤ a ∧ b < c then .range a b p else ofBounds (.int 0) d.pred
      else ofBounds c.succ (.int 0)
  | _, _ => .empty

def evalConstant (c : Constant) : Interval :=
  match c.integer with
  | some n => const (.int n)
  | none => whole

def evalUnary (op : Operator) (a : Interval) : Interval :=
  match op with
  | .negate => a.negate
  | _ => if a.isEmpty then a else whole

def evalBinary (op : Operator) (a b : Interval) : Except ArithmeticFault Interval :=
  match op with
  | .add => a.add b
  | .sub => a.sub b
  | .mul => a.mul b
  | .div => a.div b
  | .rem => .ok (a.rem b)
  | _ => .ok (if a.isEmpty || b.isEmpty then .empty else whole)

end Abstraction.Interval
