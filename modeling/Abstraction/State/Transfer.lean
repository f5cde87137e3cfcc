import Abstraction.State.Mixed

/-! Assignments, guards, forgetting and scopes on states of any domain. A product hands each of them
to both halves. -/
namespace Abstraction.State

def assign (id : Identifier) (e : Expr) : State → Except ArithmeticFault State
  | .intervals env => do .ok (.intervals (← env.assign id e))
  | .congruences env => do .ok (.congruences (← env.assign id e))
  | .plains env => do .ok (.plains (← env.assign id e))
  | .equalities s => .ok (.equalities (s.assign id e))
  | .bounds b => .ok (.bounds (b.assign id e))
  | .pentagon p => do .ok (.pentagon (← p.assign id e))
  | .congruentEqualities s => do .ok (.congruentEqualities (← s.assign id e))
  | .product l r c => do
      let left ← l.assign id e
      let right ← r.assign id e
      .ok (.product left right c)

def assume (e : Expr) : State → Except ArithmeticFault State
  | .intervals env => do .ok (.intervals (← env.assume e))
  | .congruences env => do .ok (.congruences (← env.assume e))
  | .plains env => do .ok (.plains (← env.assume e))
  | .equalities s => .ok (.equalities (s.assume e))
  | .bounds b => .ok (.bounds (b.assume e))
  | .pentagon p => do .ok (.pentagon (← p.assume e))
  | .congruentEqualities s => do .ok (.congruentEqualities (← s.assume e))
  | .product l r c => do
      let left ← l.assume e
      let right ← r.assume e
      .ok (.product left right c)

def satisfies (e : Expr) : State → Except ArithmeticFault Verdict
  | .intervals env => env.satisfies e
  | .congruences env => env.satisfies e
  | .plains env => env.satisfies e
  | .equalities s => .ok (s.satisfies e)
  | .bounds b => .ok (b.satisfies e)
  | .pentagon p => p.satisfies e
  | .congruentEqualities s => s.satisfies e
  | .product l r _ => do
      let left ← l.satisfies e
      let right ← r.satisfies e
      .ok (left.meet right)

def step (_ : Expr) (s : State) : State := s

def forget (id : Identifier) : State → State
  | .intervals env => .intervals (env.forget id)
  | .congruences env => .congruences (env.forget id)
  | .plains env => .plains (env.forget id)
  | .equalities s => .equalities (s.isolate id)
  | .bounds b => .bounds (b.forget id)
  | .pentagon p => .pentagon (p.forget id)
  | .congruentEqualities s => .congruentEqualities (s.forget id)
  | .product l r c => .product (l.forget id) (r.forget id) c

def forgetIf (drop : Identifier → Bool) : State → State
  | .intervals env => .intervals (env.forgetIf drop)
  | .congruences env => .congruences (env.forgetIf drop)
  | .plains env => .plains (env.forgetIf drop)
  | .equalities s => .equalities (s.forgetIf drop)
  | .bounds b => .bounds (b.forgetIf drop)
  | .pentagon p => .pentagon (p.forgetIf drop)
  | .congruentEqualities s => .congruentEqualities (s.forgetIf drop)
  | .product l r c => .product (l.forgetIf drop) (r.forgetIf drop) c

def forgetAll (ids : List Identifier) (s : State) : State :=
  s.forgetIf fun id => decide (id ∈ ids)

def pushScope (token : ScopeToken) : State → State
  | .intervals env => .intervals (env.pushScope token)
  | .congruences env => .congruences (env.pushScope token)
  | .plains env => .plains (env.pushScope token)
  | .equalities s => .equalities s
  | .bounds b => .bounds (b.pushScope token)
  | .pentagon p => .pentagon (p.pushScope token)
  | .congruentEqualities s => .congruentEqualities (s.pushScope token)
  | .product l r c => .product (l.pushScope token) (r.pushScope token) c

def popScope (token : ScopeToken) : State → State
  | .intervals env => .intervals (env.popScope token)
  | .congruences env => .congruences (env.popScope token)
  | .plains env => .plains (env.popScope token)
  | .equalities s => .equalities s
  | .bounds b => .bounds (b.popScope token)
  | .pentagon p => .pentagon (p.popScope token)
  | .congruentEqualities s => .congruentEqualities (s.popScope token)
  | .product l r c => .product (l.popScope token) (r.popScope token) c

end Abstraction.State
