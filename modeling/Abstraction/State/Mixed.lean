import Abstraction.State.CongruentEqualities
import Abstraction.State.Pentagon
import Abstraction.Text.Quoted
import Abstraction.Value.Plain

/-! A state of any of the domains, and products of two such states. A product may have a join
closure, which picks what its join gives from the operands and the join of the halves. -/
namespace Abstraction

inductive JoinClosure where
  | this
  | other
  | joined
  | bottom
  deriving DecidableEq, Repr

inductive State where
  | intervals (env : Environment Interval)
  | congruences (env : Environment Congruence)
  | plains (env : Environment Plain)
  | equalities (e : Equalities)
  | bounds (b : UpperBounds)
  | pentagon (p : Pentagon)
  | congruentEqualities (s : CongruentEqualities)
  | product (left right : State) (closure : Option JoinClosure)

namespace State

def domain : State → String
  | .intervals _ | .congruences _ | .plains _ => "ValueEnvironment"
  | .equalities _ => "EqualityDomain"
  | .bounds _ => "StrictUpperBounds"
  | .pentagon _ => "Pentagon"
  | .congruentEqualities _ => "CongruenceEqualityProduct"
  | .product .. => "CartesianProduct"

def halves : State → Option (State × State)
  | .pentagon p => some (.bounds p.bounds, .intervals p.intervals)
  | .congruentEqualities s => some (.equalities s.equalities, .congruences s.congruences)
  | .product l r _ => some (l, r)
  | _ => none

def top : State → State
  | .intervals _ => .intervals .top
  | .congruences _ => .congruences .top
  | .plains _ => .plains .top
  | .equalities _ => .equalities .top
  | .bounds _ => .bounds .top
  | .pentagon _ => .pentagon .top
  | .congruentEqualities _ => .congruentEqualities .top
  | .product l r c => .product l.top r.top c

def bottom : State → State
  | .intervals _ => .intervals .bottom
  | .congruences _ => .congruences .bottom
  | .plains _ => .plains .bottom
  | .equalities _ => .equalities .bottom
  | .bounds _ => .bounds .bottom
  | .pentagon _ => .pentagon .bottom
  | .congruentEqualities _ => .congruentEqualities .bottom
  | .product l r c => .product l.bottom r.bottom c

def isTop : State → Bool
  | .intervals env => env.isTop
  | .congruences env => env.isTop
  | .plains env => env.isTop
  | .equalities e => e.isTop
  | .bounds b => b.isTop
  | .pentagon p => p.isTop
  | .congruentEqualities s => s.isTop
  | .product l r _ => l.isTop && r.isTop

def isBottom : State → Bool
  | .intervals env => env.isBottom
  | .congruences env => env.isBottom
  | .plains env => env.isBottom
  | .equalities e => e.isBottom
  | .bounds b => b.isBottom
  | .pentagon p => p.isBottom
  | .congruentEqualities s => s.isBottom
  | .product l r _ => l.isBottom && r.isBottom

def knows (id : Identifier) : State → Bool
  | .intervals env => env.knows id
  | .congruences env => env.knows id
  | .plains env => env.knows id
  | .equalities e => e.knows id
  | .bounds b => b.knows id
  | .pentagon p => p.knows id
  | .congruentEqualities s => s.knows id
  | .product l r _ => l.knows id || r.knows id

def same : State → State → Bool
  | .intervals a, .intervals b => a.same b
  | .congruences a, .congruences b => a.same b
  | .plains a, .plains b => a.same b
  | .equalities a, .equalities b => a.same b
  | .bounds a, .bounds b => a.same b
  | .pentagon p, .pentagon q => p.same q
  | .congruentEqualities s, .congruentEqualities t => s.same t
  | .product l r _, .product m s _ => same l m && same r s
  | _, _ => false

def quotedRows (rows : List (String × String)) : String :=
  "\x7b" ++ ", ".intercalate (rows.map fun r => Text.quoted r.1 ++ ": " ++ Text.quoted r.2)
    ++ "\x7d"

def renderInside : State → String
  | .intervals env => env.render
  | .congruences env => env.render
  | .plains env => env.render
  | .equalities e => e.render
  | .bounds b => b.render
  | .pentagon p =>
      match p.summary with
      | .inl text => text
      | .inr rows => quotedRows rows
  | .congruentEqualities s => s.render
  | .product l r _ =>
      if l.isBottom && r.isBottom then bottomText
      else if l.isTop && r.isTop then topText
      else "[" ++ l.renderInside ++ ", " ++ r.renderInside ++ "]"

def render : State → String
  | .pentagon p => p.render
  | s => s.renderInside

def summary : State → String ⊕ List (String × String)
  | .pentagon p => p.summary
  | s => .inl s.renderInside

def describe : State → String
  | .intervals env => env.describe
  | .congruences env => env.describe
  | .plains env => env.describe
  | .equalities e => e.describe
  | .bounds b => b.describe
  | .pentagon p => p.describe
  | .congruentEqualities s => s.describe
  | .product l r _ => "(" ++ l.describe ++ " × " ++ r.describe ++ ")"

end State
end Abstraction
