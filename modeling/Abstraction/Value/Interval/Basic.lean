import Abstraction.Number.Decimal
import Abstraction.Verdict

/-! Intervals. A nonempty interval has its ends in order, a lower end below plus infinity and an upper
end above minus infinity; anything else is empty. An end with an integral value is an integer. -/
namespace Abstraction

def Interval.Proper (lo hi : Number) : Prop := lo ≤ hi ∧ lo ≠ .posInf ∧ hi ≠ .negInf

instance (lo hi : Number) : Decidable (Interval.Proper lo hi) :=
  inferInstanceAs (Decidable (lo ≤ hi ∧ lo ≠ .posInf ∧ hi ≠ .negInf))

inductive Interval where
  | empty
  | range (lo hi : Number) (proper : Interval.Proper lo hi)
  deriving DecidableEq, Repr

namespace Interval

def ofBounds (lo hi : Number) : Interval :=
  if proper : Proper lo.normalise hi.normalise then .range _ _ proper else .empty

def whole : Interval := .range .negInf .posInf (by decide)

def const (n : Number) : Interval := ofBounds n n

def atLeast (lo : Number) : Interval := ofBounds lo .posInf

def atMost (hi : Number) : Interval := ofBounds .negInf hi

def isEmpty : Interval → Bool
  | .empty => true
  | .range .. => false

def isWhole : Interval → Bool
  | .range .negInf .posInf _ => true
  | _ => false

theorem isWholeExact {a : Interval} : a.isWhole = true ↔ a = whole := by
  unfold isWhole
  split
  · simp [whole]
  · rename_i other
    simp only [Bool.false_eq_true, false_iff]
    rintro rfl
    exact other _ rfl

def isConst : Interval → Bool
  | .empty => false
  | .range lo hi _ => decide (lo = hi)

def constValue : Interval → Option Int
  | .empty => none
  | .range lo hi _ => if lo = hi then lo.truncate else none

def contains : Interval → Number → Bool
  | .empty, _ => false
  | .range lo hi _, n => decide (lo ≤ n ∧ n ≤ hi)

def leq : Interval → Interval → Bool
  | .empty, _ => true
  | .range .., .empty => false
  | .range a b _, .range c d _ => decide (c ≤ a ∧ b ≤ d)

def join : Interval → Interval → Interval
  | .empty, b => b
  | a, .empty => a
  | .range a b _, .range c d _ => ofBounds (a.least c) (b.greatest d)

def meet : Interval → Interval → Interval
  | .range a b _, .range c d _ => ofBounds (a.greatest c) (b.least d)
  | _, _ => .empty

def widen : Interval → Interval → Interval
  | .empty, b => b
  | a, .empty => a
  | .range a b _, .range c d _ =>
      ofBounds (if c < a then .negInf else a) (if b < d then .posInf else b)

def narrow : Interval → Interval → Interval
  | .empty, _ => .empty
  | _, .empty => .empty
  | .range a b _, .range c d _ =>
      ofBounds (if a = .negInf then c else a) (if b = .posInf then d else b)

def render : Interval → String
  | .empty => bottomText
  | .range lo hi _ => "[" ++ lo.boundText ++ ", " ++ hi.boundText ++ "]"

end Interval
end Abstraction
