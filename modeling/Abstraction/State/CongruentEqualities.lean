import Abstraction.State.Environment
import Abstraction.State.Equalities
import Abstraction.Value.Congruence.Arithmetic

/-! Must-equal classes beside congruences, each half on its own. Identifiers are known through the
classes only. -/
namespace Abstraction

structure CongruentEqualities where
  equalities : Equalities
  congruences : Environment Congruence

namespace CongruentEqualities

def top : CongruentEqualities := ⟨.top, .top⟩

def bottom : CongruentEqualities := ⟨.bottom, .bottom⟩

def isTop (s : CongruentEqualities) : Bool := s.equalities.isTop && s.congruences.isTop

def isBottom (s : CongruentEqualities) : Bool := s.equalities.isBottom && s.congruences.isBottom

def knows (s : CongruentEqualities) (id : Identifier) : Bool := s.equalities.knows id

def same (s t : CongruentEqualities) : Bool :=
  s.equalities.same t.equalities && s.congruences.same t.congruences

def leq (s t : CongruentEqualities) : Bool :=
  s.equalities.leq t.equalities && s.congruences.leq t.congruences

def join (s t : CongruentEqualities) : CongruentEqualities :=
  ⟨s.equalities.join t.equalities, s.congruences.join t.congruences⟩

def meet (s t : CongruentEqualities) : CongruentEqualities :=
  ⟨s.equalities.meet t.equalities, s.congruences.meet t.congruences⟩

def widen (s t : CongruentEqualities) : CongruentEqualities :=
  ⟨s.equalities.widen t.equalities, s.congruences.widen t.congruences⟩

def narrow (s t : CongruentEqualities) : CongruentEqualities :=
  ⟨s.equalities.narrow t.equalities, s.congruences.narrow t.congruences⟩

def assign (s : CongruentEqualities) (id : Identifier) (e : Expr) :
    Except ArithmeticFault CongruentEqualities := do
  let congruences ← s.congruences.assign id e
  .ok ⟨s.equalities.assign id e, congruences⟩

def assume (s : CongruentEqualities) (e : Expr) : Except ArithmeticFault CongruentEqualities := do
  let congruences ← s.congruences.assume e
  .ok ⟨s.equalities.assume e, congruences⟩

def satisfies (s : CongruentEqualities) (e : Expr) : Except ArithmeticFault Verdict := do
  let verdict ← s.congruences.satisfies e
  .ok ((s.equalities.satisfies e).meet verdict)

def forget (s : CongruentEqualities) (id : Identifier) : CongruentEqualities :=
  ⟨s.equalities.isolate id, s.congruences.forget id⟩

def forgetIf (s : CongruentEqualities) (drop : Identifier → Bool) : CongruentEqualities :=
  ⟨s.equalities.forgetIf drop, s.congruences.forgetIf drop⟩

/-- The classes do not take part in scopes. -/
def pushScope (s : CongruentEqualities) (token : ScopeToken) : CongruentEqualities :=
  ⟨s.equalities, s.congruences.pushScope token⟩

def popScope (s : CongruentEqualities) (token : ScopeToken) : CongruentEqualities :=
  ⟨s.equalities, s.congruences.popScope token⟩

def render (s : CongruentEqualities) : String :=
  if s.isBottom then bottomText
  else if s.isTop then topText
  else "[" ++ s.equalities.render ++ ", " ++ s.congruences.render ++ "]"

def describe (s : CongruentEqualities) : String :=
  "CongruenceEqualityProduct(left=" ++ s.equalities.describe ++ ", right="
    ++ s.congruences.describe ++ ")"

end CongruentEqualities
end Abstraction
