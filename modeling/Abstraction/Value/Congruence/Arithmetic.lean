import Abstraction.Value.Congruence.Basic
import Abstraction.Value.Domain

/-! Arithmetic and comparisons of congruence classes. Quotients and remainders are known only over a
constant divisor that divides the modulus. -/
namespace Abstraction.Congruence

def add : Congruence → Congruence → Congruence
  | .coset m r _, .coset n s _ => ofParts (Nat.gcd m n) (r + s)
  | _, _ => .empty

def sub : Congruence → Congruence → Congruence
  | .coset m r _, .coset n s _ => ofParts (Nat.gcd m n) (r - s)
  | _, _ => .empty

def negate : Congruence → Congruence
  | .empty => .empty
  | .coset m r _ => ofParts m (-r)

def mul : Congruence → Congruence → Congruence
  | .coset m r _, .coset n s _ =>
      ofParts (Int.gcd (m * n) (Int.gcd (m * s) (n * r))) (r * s)
  | _, _ => .empty

def div : Congruence → Congruence → Congruence
  | .coset m r _, .coset n d _ =>
      if n ≠ 0 then whole
      else if d = 0 then .empty
      else if Residue.divides d m && Residue.divides d r then
        ofParts ((m : Int).fdiv d) (r.fdiv d)
      else whole
  | _, _ => .empty

def rem : Congruence → Congruence → Congruence
  | .coset m r _, .coset n d _ =>
      if n ≠ 0 then whole
      else if d = 0 then .empty
      else if Residue.divides d m then const (r.fmod d)
      else whole
  | _, _ => .empty

def evalConstant (c : Constant) : Congruence :=
  match c.integer with
  | some n => const n
  | none => whole

def evalUnary (op : Operator) (a : Congruence) : Congruence :=
  match op with
  | .negate => a.negate
  | _ => if a.isEmpty then a else whole

def evalBinary (op : Operator) (a b : Congruence) : Congruence :=
  match op with
  | .add => a.add b
  | .sub => a.sub b
  | .mul => a.mul b
  | .div => a.div b
  | .rem => a.rem b
  | _ => if a.isEmpty || b.isEmpty then .empty else whole

/-- Equal classes with more than one member leave open whether two of their members are equal. -/
def equalVerdict (a b : Congruence) : Verdict :=
  if (a.meet b).isEmpty then .fails
  else if a.isConst && a.leq b && b.leq a then .holds
  else .unknown

def orderVerdict (a b : Congruence) (holds : Int → Int → Bool) : Verdict :=
  match a.constValue, b.constValue with
  | some m, some n => .of (holds m n)
  | _, _ => .unknown

def compare (op : Operator) (a b : Congruence) : Verdict :=
  if a.isEmpty || b.isEmpty then .unknown
  else
    match op with
    | .eq => equalVerdict a b
    | .ne => (equalVerdict a b).negate
    | .gt => orderVerdict a b fun m n => decide (n < m)
    | .ge => orderVerdict a b fun m n => decide (n ≤ m)
    | .lt => orderVerdict a b fun m n => decide (m < n)
    | .le => orderVerdict a b fun m n => decide (m ≤ n)
    | _ => .unknown

def refine (op : Operator) (a b : Congruence) : Congruence × Congruence :=
  match op with
  | .eq => (a.meet b, a.meet b)
  | _ => (a, b)

instance : ValueDomain Congruence where
  label := "CongruenceValue"
  top := whole
  bottom := .empty
  isTop := isWhole
  isBottom := isEmpty
  leq := leq
  join := join
  meet := meet
  widen := widen
  narrow := narrow
  evalConstant := evalConstant
  evalUnary := evalUnary
  evalBinary := fun op a b => .ok (evalBinary op a b)
  compare := compare
  refine := refine
  render := render

end Abstraction.Congruence
