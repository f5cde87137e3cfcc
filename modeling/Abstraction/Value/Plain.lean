import Abstraction.Value.Domain

/-! The three-point value domain: impossible, some values, any value. It keeps every default hook,
so that its environments know no more than which identifiers are impossible. -/
namespace Abstraction

inductive Plain where
  | bottom
  | middle
  | top
  deriving DecidableEq, Repr

namespace Plain

def rank : Plain → Nat
  | .bottom => 0
  | .middle => 1
  | .top => 2

def leq (a b : Plain) : Bool := decide (a.rank ≤ b.rank)

def join (a b : Plain) : Plain := if leq a b then b else a

def meet (a b : Plain) : Plain := if leq a b then a else b

def render : Plain → String
  | .bottom => "Plain(bot)"
  | .middle => "Plain(mid)"
  | .top => "Plain(top)"

instance : ValueDomain Plain where
  label := "Plain"
  top := .top
  bottom := .bottom
  isTop := fun v => v == .top
  isBottom := fun v => v == .bottom
  leq := leq
  join := join
  meet := meet
  widen := join
  narrow := meet
  render := render
  describe := render

def hooks : Hooks Plain where
  top := .ok .top
  bottom := .ok .bottom
  isTop := fun v => .ok (v == .top)
  isBottom := fun v => .ok (v == .bottom)

/- Nothing fails in the domain that its required hooks make with the defaults, and it is this one. -/
theorem keepsDefaults (c : Constant) (op : Operator) (l r : Plain) :
    hooks.evalConstant c = .ok (ValueDomain.evalConstant c) ∧
    hooks.evalUnary op l = .ok (ValueDomain.evalUnary op l) ∧
    ∃ v, hooks.evalBinary op l r = .ok v ∧ ValueDomain.evalBinary op l r = .ok v := by
  refine ⟨rfl, ?_, ?_⟩
  · cases l <;> rfl
  · cases l <;> cases r <;> exact ⟨_, rfl, rfl⟩

end Plain
end Abstraction
