import Abstraction.Text.Quoted

/-! The operators of the expressions that domains interpret. `other` stands for every operator that
no domain models. -/
namespace Abstraction

inductive Operator where
  | add | sub | mul | div | rem | negate
  | eq | ne | gt | ge | lt | le
  | not
  | other
  deriving DecidableEq, Repr

structure UnknownOperator where
  symbol : String
  deriving DecidableEq, Repr

def UnknownOperator.message (e : UnknownOperator) : String :=
  Text.quoted e.symbol ++ " is not a valid Operator"

namespace Operator

def all : List Operator :=
  [.add, .sub, .mul, .div, .rem, .negate, .eq, .ne, .gt, .ge, .lt, .le, .not, .other]

def symbol : Operator → String
  | .add => "+"
  | .sub => "-"
  | .mul => "*"
  | .div => "/"
  | .rem => "%"
  | .negate => "neg"
  | .eq => "=="
  | .ne => "!="
  | .gt => ">"
  | .ge => ">="
  | .lt => "<"
  | .le => "<="
  | .not => "!"
  | .other => "?"

def ofSymbol (s : String) : Except UnknownOperator Operator :=
  match all.find? (fun op => op.symbol == s) with
  | some op => .ok op
  | none => .error ⟨s⟩

def isComparison : Operator → Bool
  | .eq | .ne | .gt | .ge | .lt | .le => true
  | _ => false

def isArithmetic : Operator → Bool
  | .add | .sub | .mul | .div | .rem => true
  | _ => false

def complement : Operator → Operator
  | .eq => .ne
  | .ne => .eq
  | .lt => .ge
  | .ge => .lt
  | .gt => .le
  | .le => .gt
  | _ => .other

def exchange : Operator → Operator
  | .eq => .eq
  | .ne => .ne
  | .lt => .gt
  | .gt => .lt
  | .le => .ge
  | .ge => .le
  | _ => .other

end Operator
end Abstraction
