import Abstraction.Names
import Abstraction.Program.Shape
import Abstraction.Verdict

/-! Classes of identifiers that must be equal. Only classes of at least two members are kept, and an
identifier outside all of them is alone in its class. -/
namespace Abstraction

structure Equalities where
  kind : Kind
  classes : List Names

namespace Equalities

def addClass (classes : List Names) (c : Names) : List Names :=
  if classes.any (· == c) then classes else classes ++ [c]

def ofClasses (kind : Kind) (classes : List Names) : Equalities :=
  if kind = .bottom then ⟨.bottom, []⟩
  else ⟨kind, (classes.filter Names.hasTwo).foldl addClass []⟩

def top : Equalities := ⟨.value, []⟩

def bottom : Equalities := ⟨.bottom, []⟩

def isTop (e : Equalities) : Bool := e.kind == .value && e.classes.isEmpty

def isBottom (e : Equalities) : Bool := e.kind == .bottom

def knows (e : Equalities) (id : Identifier) : Bool := e.classes.any fun c => decide (id ∈ c)

def classOf (e : Equalities) (id : Identifier) : Names :=
  (e.classes.find? fun c => decide (id ∈ c)).getD (Names.single id)

theorem memClassOf (e : Equalities) (id : Identifier) : id ∈ e.classOf id := by
  unfold classOf
  cases found : e.classes.find? (fun c => decide (id ∈ c)) with
  | none => exact Names.memSingle.mpr rfl
  | some c =>
    have hit := List.find?_some found
    simpa using hit

def same (a b : Equalities) : Bool :=
  a.kind == b.kind && a.classes.all (fun c => b.classes.any (· == c))
    && b.classes.all (fun c => a.classes.any (· == c))

def merge (e : Equalities) (a b : Identifier) : Equalities :=
  if e.isBottom then e
  else
    let ca := e.classOf a
    let cb := e.classOf b
    if ca == cb then e
    else ofClasses .value ((e.classes.filter fun c => !(c == ca) && !(c == cb)) ++ [ca.union cb])

def mergeClass (e : Equalities) (c : Names) : Equalities :=
  match c.members with
  | [] => e
  | first :: rest => rest.foldl (fun e id => e.merge first id) e

def leq (a b : Equalities) : Bool :=
  if a.isBottom then true
  else if b.isBottom then false
  else b.classes.all fun o => a.classes.any fun c => o.subset c

def join (a b : Equalities) : Equalities :=
  if a.isBottom then b
  else if b.isBottom then a
  else ofClasses .value (a.classes.flatMap fun c => b.classes.map fun o => c.inter o)

def meet (a b : Equalities) : Equalities :=
  if a.isBottom || b.isBottom then bottom else b.classes.foldl mergeClass a

/-- A program has finitely many identifiers, so the join is a widening. -/
def widen (a b : Equalities) : Equalities := a.join b

def narrow (_ b : Equalities) : Equalities := b

def forgetIf (e : Equalities) (drop : Identifier → Bool) : Equalities :=
  if e.isBottom then e
  else ofClasses .value (e.classes.map fun c => c.filter fun id => !drop id)

def isolate (e : Equalities) (id : Identifier) : Equalities := e.forgetIf fun i => decide (i = id)

def assign (e : Equalities) (id : Identifier) (expr : Expr) : Equalities :=
  if e.isBottom || expr == .identifier id then e
  else
    match expr with
    | .identifier v => (e.isolate id).merge id v
    | _ => e.isolate id

def satisfies (e : Equalities) (expr : Expr) : Verdict :=
  if e.isBottom then .contradiction
  else
    match expr.comparison with
    | some c =>
        if (c.op = .eq ∨ c.op = .ne) ∧ c.right ∈ e.classOf c.left then
          .of (decide (c.op = .eq) != c.negated)
        else .unknown
    | none => .unknown

def assume (e : Equalities) (expr : Expr) : Equalities :=
  if e.satisfies expr = .fails then bottom else e

def render (e : Equalities) : String :=
  if e.isBottom then bottomText
  else ", ".intercalate (Names.sortTexts (e.classes.map fun c => " = ".intercalate c.texts))

def describe (e : Equalities) : String := "EqualityDomain(" ++ e.render ++ ")"

end Equalities
end Abstraction
