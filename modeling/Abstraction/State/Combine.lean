import Abstraction.State.Mixed

/-! Lattice operations on states of any domain. States of different domains do not combine, except
that a product takes any product as its operand. -/
namespace Abstraction

inductive LatticeOp where
  | join
  | meet
  | widen
  | narrow
  deriving DecidableEq, Repr

inductive Mismatch where
  | environment (label : String) (operand : Option State)
  | domains (domain : String) (operand : Option State)

namespace Mismatch

def explain (message : String) (operand : Option String) : String :=
  match operand with
  | none => message
  | some description => message ++ " (operand: " ++ description ++ ")"

def message : Mismatch → String
  | .environment label operand =>
      explain ("cannot combine an environment of " ++ label ++ " with a different domain")
        (operand.map State.describe)
  | .domains domain operand =>
      explain ("cannot combine " ++ domain ++ " with "
        ++ (operand.map State.domain).getD "NoneType") (operand.map State.describe)

end Mismatch

def Environment.combine {V : Type} [ValueDomain V] (op : LatticeOp) (a b : Environment V) :
    Environment V :=
  match op with
  | .join => a.join b
  | .meet => a.meet b
  | .widen => a.widen b
  | .narrow => a.narrow b

def Equalities.combine (op : LatticeOp) (a b : Equalities) : Equalities :=
  match op with
  | .join => a.join b
  | .meet => a.meet b
  | .widen => a.widen b
  | .narrow => a.narrow b

def UpperBounds.combine (op : LatticeOp) (a b : UpperBounds) : UpperBounds :=
  match op with
  | .join => a.join b
  | .meet => a.meet b
  | .widen => a.widen b
  | .narrow => a.narrow b

def Pentagon.combine (op : LatticeOp) (p q : Pentagon) : Pentagon :=
  match op with
  | .join => p.join q
  | .meet => p.meet q
  | .widen => p.widen q
  | .narrow => p.narrow q

def CongruentEqualities.combine (op : LatticeOp) (s t : CongruentEqualities) :
    CongruentEqualities :=
  match op with
  | .join => s.join t
  | .meet => s.meet t
  | .widen => s.widen t
  | .narrow => s.narrow t

def JoinClosure.apply (c : JoinClosure) (this other joined : State) : State :=
  match c with
  | .this => this
  | .other => other
  | .joined => joined
  | .bottom => joined.bottom

namespace State

def mismatch (s : State) (operand : Option State) : Mismatch :=
  match s with
  | .intervals _ => .environment (ValueDomain.label Interval) operand
  | .congruences _ => .environment (ValueDomain.label Congruence) operand
  | .plains _ => .environment (ValueDomain.label Plain) operand
  | s => .domains s.domain operand

/-- One lattice operation with an operand that may be missing. The halves of a product combine
left before right, and its closure decides what a join gives. -/
def combine (op : LatticeOp) : State → Option State → Except Mismatch State
  | .intervals a, some (.intervals b) => .ok (.intervals (a.combine op b))
  | .congruences a, some (.congruences b) => .ok (.congruences (a.combine op b))
  | .plains a, some (.plains b) => .ok (.plains (a.combine op b))
  | .equalities a, some (.equalities b) => .ok (.equalities (a.combine op b))
  | .bounds a, some (.bounds b) => .ok (.bounds (a.combine op b))
  | .pentagon p, some (.pentagon q) => .ok (.pentagon (p.combine op q))
  | .congruentEqualities s, some (.congruentEqualities t) =>
      .ok (.congruentEqualities (s.combine op t))
  | .product l r c, some operand =>
      match operand.halves with
      | none => .error ((State.product l r c).mismatch (some operand))
      | some (m, s) => do
          let left ← l.combine op (some m)
          let right ← r.combine op (some s)
          match op, c with
          | .join, some closure =>
              .ok (closure.apply (.product l r c) operand (.product left right c))
          | _, _ => .ok (.product left right c)
  | s, operand => .error (s.mismatch operand)

def leq : State → Option State → Except Mismatch Bool
  | .intervals a, some (.intervals b) => .ok (a.leq b)
  | .congruences a, some (.congruences b) => .ok (a.leq b)
  | .plains a, some (.plains b) => .ok (a.leq b)
  | .equalities a, some (.equalities b) => .ok (a.leq b)
  | .bounds a, some (.bounds b) => .ok (a.leq b)
  | .pentagon p, some (.pentagon q) => .ok (p.leq q)
  | .congruentEqualities s, some (.congruentEqualities t) => .ok (s.leq t)
  | .product l r c, some operand =>
      match operand.halves with
      | none => .error ((State.product l r c).mismatch (some operand))
      | some (m, s) => do
          if ← l.leq (some m) then r.leq (some s) else .ok false
  | s, operand => .error (s.mismatch operand)

end State
end Abstraction
