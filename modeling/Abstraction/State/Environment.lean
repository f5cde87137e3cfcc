import Abstraction.Table
import Abstraction.Value.Domain

/-! Environments: one abstract value for each identifier, and no restriction on those without an
entry. An operation that stores an impossible value leaves the impossible environment; a table
given from outside is kept as it is. -/
namespace Abstraction

structure Environment (V : Type) where
  kind : Kind
  table : Table V

namespace Environment

variable {V : Type} [ValueDomain V]

def top : Environment V := ⟨.value, ∅⟩

def bottom : Environment V := ⟨.bottom, ∅⟩

def isBottom (env : Environment V) : Bool := env.kind == .bottom

def isTop (env : Environment V) : Bool :=
  !env.isBottom && !env.table.anyValue fun v => !ValueDomain.isTop v

def ofTable (table : Table V) : Environment V :=
  if table.anyValue ValueDomain.isBottom then bottom else ⟨.value, table⟩

def get (env : Environment V) (id : Identifier) : V :=
  if env.isBottom then ValueDomain.bottom else (env.table.find id).getD ValueDomain.top

theorem isBottomOfTable (table : Table V) :
    (ofTable table).isBottom = table.anyValue ValueDomain.isBottom := by
  unfold ofTable
  split
  · rename_i impossible; rw [impossible]; rfl
  · rename_i possible; rw [Bool.eq_false_iff.mpr possible]; rfl

theorem keptOfTable {table : Table V} (possible : (ofTable table).isBottom = false) :
    ofTable table = ⟨.value, table⟩ := by
  rw [isBottomOfTable] at possible
  rw [ofTable, if_neg (by simp [possible])]

theorem getOfTable {table : Table V} (possible : (ofTable table).isBottom = false)
    (k : Identifier) : (ofTable table).get k = (table.find k).getD ValueDomain.top := by
  rw [keptOfTable possible]
  rfl

def put (env : Environment V) (id : Identifier) (v : V) : Environment V :=
  if env.isBottom then env else ofTable (env.table.set id v)

theorem getPut {env : Environment V} {id : Identifier} {v : V}
    (possible : env.isBottom = false) (after : (env.put id v).isBottom = false)
    (k : Identifier) : (env.put id v).get k = if k = id then v else env.get k := by
  have step : env.put id v = ofTable (env.table.set id v) := by
    rw [put, if_neg (by simp [possible])]
  rw [step] at after ⊢
  rw [getOfTable after, Table.findSet]
  have before : env.get k = (env.table.find k).getD ValueDomain.top := by
    simp [get, possible]
  rw [before]
  split <;> rfl

def knows (env : Environment V) (id : Identifier) : Bool := env.table.contains id

def same [BEq V] (a b : Environment V) : Bool := a.kind == b.kind && a.table.same b.table

def pointwise (f : V → V → V) (a b : Environment V) : Environment V :=
  ofTable (Table.tabulate (a.table.keysOfBoth b.table) (Table.keysOfBothDistinct _ _)
    fun k => f (a.get k) (b.get k))

def leq (a b : Environment V) : Bool :=
  if a.isBottom then true
  else if b.isBottom then false
  else (a.table.keysOfBoth b.table).all fun k => ValueDomain.leq (a.get k) (b.get k)

def join (a b : Environment V) : Environment V :=
  if a.isBottom then b
  else if b.isBottom then a
  else pointwise ValueDomain.join a b

def meet (a b : Environment V) : Environment V :=
  if a.isBottom || b.isBottom then bottom else pointwise ValueDomain.meet a b

def widen (a b : Environment V) : Environment V :=
  if a.isBottom then b
  else if b.isBottom then a
  else pointwise ValueDomain.widen a b

def narrow (a b : Environment V) : Environment V :=
  if a.isBottom || b.isBottom then bottom else pointwise ValueDomain.narrow a b

def evalExpr (env : Environment V) : Expr → Except ArithmeticFault V
  | .constant c => .ok (ValueDomain.evalConstant c)
  | .identifier id => .ok (env.get id)
  | .unary op e => do
      let v ← env.evalExpr e
      .ok (ValueDomain.evalUnary op v)
  | .binary op l r => do
      let v ← env.evalExpr l
      let w ← env.evalExpr r
      ValueDomain.evalBinary op v w
  | .unrecognised => .ok ValueDomain.top

def eval (env : Environment V) (e : Expr) : Except ArithmeticFault V :=
  if env.isBottom then .ok ValueDomain.bottom else env.evalExpr e

def assign (env : Environment V) (id : Identifier) (e : Expr) :
    Except ArithmeticFault (Environment V) :=
  if env.isBottom then .ok env
  else do
    let v ← env.eval e
    .ok (env.put id v)

def judge (env : Environment V) : Expr → Except ArithmeticFault Verdict
  | .constant (.truth b) => .ok (.of b)
  | .unary .not e => do
      let verdict ← env.judge e
      .ok verdict.negate
  | .binary op l r =>
      if op.isComparison then do
        let v ← env.eval l
        let w ← env.eval r
        .ok (ValueDomain.compare op v w)
      else .ok .unknown
  | _ => .ok .unknown

def satisfies (env : Environment V) (e : Expr) : Except ArithmeticFault Verdict :=
  if env.isBottom then .ok .contradiction else env.judge e

def putOperand (env : Environment V) (operand : Expr) (v : V) : Environment V :=
  match operand with
  | .identifier id => env.put id v
  | _ => env

def refine (env : Environment V) (negated : Bool) : Expr → Except ArithmeticFault (Environment V)
  | .unary .not e => env.refine (!negated) e
  | .binary op l r =>
      if op.isComparison then do
        let v ← env.eval l
        let w ← env.eval r
        let (v, w) := ValueDomain.refine (if negated then op.complement else op) v w
        if ValueDomain.isBottom v || ValueDomain.isBottom w then .ok bottom
        else .ok ((env.putOperand l v).putOperand r w)
      else .ok env
  | _ => .ok env

def assume (env : Environment V) (e : Expr) : Except ArithmeticFault (Environment V) :=
  if env.isBottom then .ok env
  else do
    match ← env.satisfies e with
    | .fails | .contradiction => .ok bottom
    | .holds => .ok env
    | .unknown => env.refine false e

def forget (env : Environment V) (id : Identifier) : Environment V :=
  if env.isBottom || !env.knows id then env
  else ⟨.value, env.table.filter fun k _ => decide (k ≠ id)⟩

def forgetIf (env : Environment V) (drop : Identifier → Bool) : Environment V :=
  if env.isBottom then env else ⟨.value, env.table.filter fun k _ => !drop k⟩

def renameKeys (env : Environment V) (f : Identifier → Option Identifier) : Environment V :=
  if env.isBottom then env else ⟨.value, env.table.renameKeys f⟩

def pushScope (env : Environment V) (token : ScopeToken) : Environment V :=
  env.renameKeys fun id => some (id.hide token)

def popScope (env : Environment V) (token : ScopeToken) : Environment V :=
  env.renameKeys fun id => id.leave token

def render (env : Environment V) : String :=
  if env.isBottom then bottomText
  else if env.table.isEmpty then topText
  else
    let entries := env.table.sorted.map fun (k, v) => k.render ++ ": " ++ ValueDomain.render v
    "\x7b" ++ ", ".intercalate entries ++ "\x7d"

def describe (env : Environment V) : String :=
  "Env[" ++ ValueDomain.label V ++ "](" ++ env.render ++ ")"

end Environment
end Abstraction
