import Abstraction.Number.Decimal
import Abstraction.Program.Operator
import Abstraction.Program.Identifier

/-! Symbolic expressions, as a front end hands them to the domains. `unrecognised` is an object that
is no expression; domains know nothing about its value. -/
namespace Abstraction

inductive Constant where
  | number (value : Number)
  | truth (value : Bool)
  | text (value : String)
  | none
  deriving DecidableEq, Repr

namespace Constant

def numeric : Constant → Option Number
  | .number n => some n
  | .truth b => some (.int (if b then 1 else 0))
  | .text _ | .none => Option.none

def same (a b : Constant) : Bool :=
  match a.numeric, b.numeric with
  | some m, some n => m.sameValue n
  | _, _ => a == b

def render : Constant → String
  | .number n => n.text
  | .truth true => "True"
  | .truth false => "False"
  | .text s => s
  | .none => "None"

def integer : Constant → Option Int
  | .number (.int n) => some n
  | _ => Option.none

end Constant

inductive Expr where
  | constant (value : Constant)
  | identifier (id : Identifier)
  | unary (op : Operator) (operand : Expr)
  | binary (op : Operator) (left right : Expr)
  | unrecognised
  deriving DecidableEq, Repr

namespace Expr

def same : Expr → Expr → Bool
  | .constant a, .constant b => a.same b
  | .identifier i, .identifier j => i == j
  | .unary o e, .unary p f => o == p && same e f
  | .binary o l r, .binary p m s => o == p && same l m && same r s
  | .unrecognised, .unrecognised => true
  | _, _ => false

def render : Expr → String
  | .constant c => c.render
  | .identifier i => i.render
  | .unary .negate e => "-" ++ e.render
  | .unary op e => op.symbol ++ e.render
  | .binary op l r => "(" ++ l.render ++ " " ++ op.symbol ++ " " ++ r.render ++ ")"
  | .unrecognised => "None"

def integer : Expr → Option Int
  | .constant c => c.integer
  | _ => none

theorem integerExact {e : Expr} {n : Int} :
    e.integer = some n ↔ e = .constant (.number (.int n)) := by
  constructor
  · intro h
    cases e with
    | constant c =>
      cases c with
      | number v =>
        cases v with
        | int m => simp only [integer, Constant.integer, Option.some.injEq] at h; rw [h]
        | _ => simp [integer, Constant.integer] at h
      | _ => simp [integer, Constant.integer] at h
    | _ => simp [integer] at h
  · rintro rfl; rfl

end Expr
end Abstraction
