import Abstraction.Value.Residue
import Abstraction.Verdict

/-! Congruence classes: all integers `residue + k · modulus`. Modulus zero is a single integer and
modulus one is every integer. A class has one representation: the residue of a positive modulus
is the least nonnegative one. -/
namespace Abstraction

def Congruence.Reduced (modulus : Nat) (residue : Int) : Prop :=
  modulus = 0 ∨ (0 ≤ residue ∧ residue < modulus)

inductive Congruence where
  | empty
  | coset (modulus : Nat) (residue : Int) (reduced : Congruence.Reduced modulus residue)
  deriving DecidableEq, Repr

namespace Congruence

theorem emodReduced (m : Nat) (r : Int) : Reduced m (r % m) := by
  rcases Nat.eq_zero_or_pos m with zero | pos
  · exact Or.inl zero
  · have positive : (0 : Int) < m := by omega
    exact Or.inr ⟨Int.emod_nonneg r (by omega), Int.emod_lt_of_pos r positive⟩

def ofParts (modulus residue : Int) : Congruence :=
  .coset modulus.natAbs _ (emodReduced modulus.natAbs residue)

def whole : Congruence := .coset 1 0 (Or.inr ⟨by decide, by decide⟩)

def const (n : Int) : Congruence := ofParts 0 n

def declare (modulus residue : Int) : Kind → Congruence
  | .bottom => .empty
  | .top => whole
  | .value => ofParts modulus residue

def isEmpty : Congruence → Bool
  | .empty => true
  | .coset .. => false

def isWhole : Congruence → Bool
  | .empty => false
  | .coset m _ _ => m == 1

def kind : Congruence → Kind
  | .empty => .bottom
  | .coset m _ _ => if m = 1 then .top else .value

def constValue : Congruence → Option Int
  | .empty => none
  | .coset m r _ => if m = 0 then some r else none

def isConst (a : Congruence) : Bool := a.constValue.isSome

def contains : Congruence → Int → Bool
  | .empty, _ => false
  | .coset m r _, n => Residue.congruent n r m

def leq : Congruence → Congruence → Bool
  | .empty, _ => true
  | .coset .., .empty => false
  | .coset m r _, .coset n s _ => Residue.divides n m && Residue.congruent r s n

def join : Congruence → Congruence → Congruence
  | .empty, b => b
  | a, .empty => a
  | .coset m r _, .coset n s _ => ofParts (Nat.gcd (Nat.gcd m n) (r - s).natAbs) s

def meet : Congruence → Congruence → Congruence
  | .coset m r p, .coset n s q =>
      if Residue.congruent r s (Nat.gcd m n) then
        if m = 0 then .coset m r p
        else if n = 0 then .coset n s q
        else ofParts (Nat.lcm m n) (Residue.solve m r n s)
      else .empty
  | _, _ => .empty

/-- Moduli only go down along divisors, so the join is a widening. -/
def widen (a b : Congruence) : Congruence := a.join b

def narrow : Congruence → Congruence → Congruence
  | .empty, _ => .empty
  | _, .empty => .empty
  | a, b => if a.isWhole then b else a

def render : Congruence → String
  | .empty => bottomText
  | .coset m r _ => toString m ++ "Z+" ++ toString r

end Congruence
end Abstraction
