import Abstraction.Proofs.Environment.Soundness
import Abstraction.Proofs.Interval.Overflow
import Abstraction.Proofs.Pentagon.Transfer

/-! The faults that a computation over integral intervals can have. Expressions and guards are evaluated
by the arithmetic of intervals, so nothing is left but an integer too large for a double. -/
namespace Abstraction

def ArithmeticFault.OnlyBySize {α : Type} (x : Except ArithmeticFault α) : Prop :=
  ∀ fault, x = .error fault → fault = .tooLarge

open ArithmeticFault (OnlyBySize)

namespace ArithmeticFault

variable {α β : Type} {x : Except ArithmeticFault α} {f : α → Except ArithmeticFault β}

theorem onlyBySizeOk (v : α) : OnlyBySize (.ok v) := fun _ failed => by contradiction

theorem OnlyBySize.bind (first : OnlyBySize x) (rest : ∀ v, x = .ok v → OnlyBySize (f v)) :
    OnlyBySize (x >>= f) := by
  intro fault failed
  cases result : x with
  | error other =>
    rw [result] at failed
    cases failed
    exact first fault result
  | ok v =>
    rw [result] at failed
    exact rest v result fault failed

end ArithmeticFault

theorem Interval.evalBinaryBySize {a b : Interval} (op : Operator) (left : a.Integral)
    (right : b.Integral) : OnlyBySize (evalBinary op a b) :=
  fun fault failed => ((evalBinaryOverflows op left right fault).mp failed).1

namespace Environment
open ArithmeticFault (onlyBySizeOk)

variable {env : Environment Interval} {e : Expr}

theorem evalBySize (regular : env.Regular) (e : Expr) : OnlyBySize (env.eval e) := by
  cases possible : env.isBottom with
  | true =>
    rw [eval, if_pos possible]
    exact onlyBySizeOk _
  | false =>
    rw [evalPossible possible]
    induction e with
    | unary op e ih => exact ih.bind fun _ _ => onlyBySizeOk _
    | binary op l r left right =>
      refine left.bind fun v first => right.bind fun w second => ?_
      exact Interval.evalBinaryBySize op (regularEval regular possible first)
        (regularEval regular possible second)
    | _ => exact onlyBySizeOk _

theorem assignBySize (regular : env.Regular) (id : Identifier) (e : Expr) :
    OnlyBySize (env.assign id e) := by
  unfold assign
  split
  · exact onlyBySizeOk _
  · exact (evalBySize regular e).bind fun _ _ => onlyBySizeOk _

theorem judgeBySize (regular : env.Regular) (e : Expr) : OnlyBySize (env.judge e) := by
  induction e with
  | constant c => cases c <;> exact onlyBySizeOk _
  | unary op e ih =>
    cases op
    case not => exact ih.bind fun _ _ => onlyBySizeOk _
    all_goals exact onlyBySizeOk _
  | binary op l r =>
    unfold judge
    split
    · refine (evalBySize regular l).bind fun _ _ => (evalBySize regular r).bind fun _ _ => ?_
      exact onlyBySizeOk _
    · exact onlyBySizeOk _
  | _ => exact onlyBySizeOk _

theorem refineBySize (regular : env.Regular) (negated : Bool) (e : Expr) :
    OnlyBySize (env.refine negated e) := by
  induction e generalizing negated with
  | unary op e ih =>
    cases op
    case not => exact ih _
    all_goals exact onlyBySizeOk _
  | binary op l r =>
    unfold refine
    split
    · refine (evalBySize regular l).bind fun _ _ => (evalBySize regular r).bind fun _ _ => ?_
      generalize (if negated then op.complement else op) = actual
      dsimp only
      split <;> exact onlyBySizeOk _
    · exact onlyBySizeOk _
  | _ => exact onlyBySizeOk _

theorem assumeBySize (regular : env.Regular) (e : Expr) : OnlyBySize (env.assume e) := by
  unfold assume
  split
  · exact onlyBySizeOk _
  · have answer : OnlyBySize (env.satisfies e) := by
      unfold satisfies
      split
      · exact onlyBySizeOk _
      · exact judgeBySize regular e
    refine answer.bind fun verdict _ => ?_
    cases verdict with
    | unknown => exact refineBySize regular false e
    | _ => exact onlyBySizeOk _

end Environment

namespace Pentagon
open ArithmeticFault (onlyBySizeOk)

variable {p : Pentagon}

theorem assignBySize (regular : p.intervals.Regular) (id : Identifier) (e : Expr) :
    OnlyBySize (p.assign id e) := by
  refine (Environment.assignBySize regular id e).bind fun intervals _ => ?_
  dsimp only
  split
  · exact onlyBySizeOk _
  · split <;> exact onlyBySizeOk _

theorem assumeBySize (regular : p.intervals.Regular) (e : Expr) : OnlyBySize (p.assume e) :=
  (Environment.assumeBySize regular e).bind fun _ _ => onlyBySizeOk _

end Pentagon
end Abstraction
