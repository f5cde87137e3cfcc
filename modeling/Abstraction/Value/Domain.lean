import Abstraction.Program.Expr
import Abstraction.Verdict

/-! Abstract values of one identifier. Top, bottom, their tests and the lattice operations have to
be given; every other hook has a sound default: top for what an operator computes, `unknown` for a
comparison, and no refinement by a guard. Only arithmetic can fail. -/
namespace Abstraction

class ValueDomain (V : Type) where
  label : String
  top : V
  bottom : V
  isTop : V → Bool
  isBottom : V → Bool
  leq : V → V → Bool
  join : V → V → V
  meet : V → V → V
  widen : V → V → V
  narrow : V → V → V
  evalConstant : Constant → V := fun _ => top
  evalUnary : Operator → V → V := fun _ v => if isBottom v then v else top
  evalBinary : Operator → V → V → Except ArithmeticFault V := fun _ l r =>
    .ok (if isBottom l || isBottom r then bottom else top)
  compare : Operator → V → V → Verdict := fun _ _ _ => .unknown
  /-- Both operands, given that the comparison holds. -/
  refine : Operator → V → V → V × V := fun _ l r => (l, r)
  render : V → String
  describe : V → String := fun v => label ++ "(" ++ render v ++ ")"

inductive RequiredHook where
  | top
  | bottom
  | isTop
  | isBottom
  deriving DecidableEq, Repr

structure Unimplemented where
  hook : RequiredHook
  deriving DecidableEq, Repr

def Unimplemented.message (_ : Unimplemented) : String := ""

/-- A value class as far as it is written. A required hook fails until it is given, and so do the defaults
that ask for it. -/
structure Hooks (V : Type) where
  top : Except Unimplemented V := .error ⟨.top⟩
  bottom : Except Unimplemented V := .error ⟨.bottom⟩
  isTop : V → Except Unimplemented Bool := fun _ => .error ⟨.isTop⟩
  isBottom : V → Except Unimplemented Bool := fun _ => .error ⟨.isBottom⟩

namespace Hooks

variable {V : Type}

def evalConstant (hooks : Hooks V) (_ : Constant) : Except Unimplemented V := hooks.top

def evalUnary (hooks : Hooks V) (_ : Operator) (v : V) : Except Unimplemented V := do
  if ← hooks.isBottom v then return v else hooks.top

def evalBinary (hooks : Hooks V) (_ : Operator) (l r : V) : Except Unimplemented V := do
  if ← hooks.isBottom l then hooks.bottom
  else if ← hooks.isBottom r then hooks.bottom
  else hooks.top

end Hooks
end Abstraction
