import Abstraction.Program.Expr

/-! The few shapes of expressions that relational domains recognise. Each selector comes with the
exact set of expressions it accepts. -/
namespace Abstraction

namespace Expr

def identifierPair : Expr → Option (Operator × Identifier × Identifier)
  | .binary op (.identifier x) (.identifier y) => some (op, x, y)
  | _ => none

theorem identifierPairExact {e : Expr} {op : Operator} {x y : Identifier} :
    e.identifierPair = some (op, x, y) ↔ e = .binary op (.identifier x) (.identifier y) := by
  constructor
  · intro h
    unfold identifierPair at h
    split at h
    · simp only [Option.some.injEq, Prod.mk.injEq] at h
      obtain ⟨rfl, rfl, rfl⟩ := h
      rfl
    · contradiction
  · rintro rfl; rfl

def stripNegation : Expr → Expr × Bool
  | .unary .not e => (e, true)
  | e => (e, false)

structure Comparison where
  op : Operator
  left : Identifier
  right : Identifier
  negated : Bool
  deriving DecidableEq, Repr

def comparison (e : Expr) : Option Comparison :=
  let (inner, negated) := e.stripNegation
  inner.identifierPair.map fun (op, x, y) => ⟨op, x, y, negated⟩

theorem comparisonExact {e : Expr} {c : Comparison} :
    e.comparison = some c ↔
      e = (if c.negated then .unary .not (.binary c.op (.identifier c.left) (.identifier c.right))
        else .binary c.op (.identifier c.left) (.identifier c.right)) := by
  obtain ⟨op, x, y, negated⟩ := c
  constructor
  · intro h
    simp only [comparison, Option.map_eq_some_iff] at h
    obtain ⟨⟨o, a, b⟩, pair, last⟩ := h
    simp only [Comparison.mk.injEq] at last
    obtain ⟨rfl, rfl, rfl, stripped⟩ := last
    have inner := identifierPairExact.mp pair
    unfold stripNegation at inner stripped
    split at inner <;> simp_all
  · intro h
    cases negated <;> simp_all [comparison, stripNegation, identifierPair]

structure Shift where
  source : Identifier
  rising : Bool
  deriving DecidableEq, Repr

def shift : Expr → Option Shift
  | .binary op (.identifier y) right =>
      match right.integer with
      | some c =>
          if 0 < c then
            match op with
            | .add => some ⟨y, true⟩
            | .sub => some ⟨y, false⟩
            | _ => none
          else none
      | none => none
  | _ => none

theorem shiftExact {e : Expr} {s : Shift} :
    e.shift = some s ↔ ∃ c : Int, 0 < c ∧
      e = .binary (if s.rising then .add else .sub) (.identifier s.source)
        (.constant (.number (.int c))) := by
  constructor
  · intro h
    unfold shift at h
    split at h <;> try contradiction
    split at h <;> try contradiction
    rename_i c found
    split at h <;> try contradiction
    have same := integerExact.mp found
    subst same
    split at h <;> try contradiction
    all_goals
      cases Option.some.inj h
      exact ⟨c, by assumption, rfl⟩
  · rintro ⟨c, positive, rfl⟩
    obtain ⟨source, rising⟩ := s
    cases rising <;> simp [shift, integer, Constant.integer, positive]

def strictOrder (e : Expr) : Option (Identifier × Identifier) :=
  e.comparison.bind fun c =>
    match if c.negated then c.op.complement else c.op with
    | .lt => some (c.left, c.right)
    | .gt => some (c.right, c.left)
    | _ => none

end Expr
end Abstraction
