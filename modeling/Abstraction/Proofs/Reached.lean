import Abstraction.State.Transfer
import Abstraction.Proofs.Congruence.Arithmetic
import Abstraction.Proofs.Pentagon.Invariant

/-! The states that operations lead to, for environments of intervals or congruences, bounds and
pentagons. They stay in the domain of the start, keep what its operations keep, and declare nothing
but whether some store is possible. -/
namespace Abstraction.State

/-- What any finite run of operations that do not fail leads to; the operands of lattice operations
are states of such runs themselves. -/
inductive ReachedFrom (start : State) : State → Prop where
  | start : ReachedFrom start start
  | top {s : State} : ReachedFrom start s → ReachedFrom start s.top
  | bottom {s : State} : ReachedFrom start s → ReachedFrom start s.bottom
  | assign {s next : State} {id : Identifier} {e : Expr} (ok : s.assign id e = .ok next) :
      ReachedFrom start s → ReachedFrom start next
  | assume {s next : State} {e : Expr} (ok : s.assume e = .ok next) :
      ReachedFrom start s → ReachedFrom start next
  | step {s : State} (e : Expr) : ReachedFrom start s → ReachedFrom start (s.step e)
  | forget {s : State} (id : Identifier) : ReachedFrom start s → ReachedFrom start (s.forget id)
  | forgetAll {s : State} (ids : List Identifier) :
      ReachedFrom start s → ReachedFrom start (s.forgetAll ids)
  | forgetIf {s : State} (drop : Identifier → Bool) :
      ReachedFrom start s → ReachedFrom start (s.forgetIf drop)
  | pushScope {s : State} (token : ScopeToken) :
      ReachedFrom start s → ReachedFrom start (s.pushScope token)
  | popScope {s : State} (token : ScopeToken) :
      ReachedFrom start s → ReachedFrom start (s.popScope token)
  | combine {s t next : State} {op : LatticeOp} (ok : s.combine op (some t) = .ok next) :
      ReachedFrom start s → ReachedFrom start t → ReachedFrom start next

inductive Action where
  | assign (id : Identifier) (e : Expr)
  | assume (e : Expr)
  | step (e : Expr)
  | forget (id : Identifier)
  | forgetAll (ids : List Identifier)
  | enter (token : ScopeToken)
  | leave (token : ScopeToken)

def act (s : State) : Action → Except ArithmeticFault State
  | .assign id e => s.assign id e
  | .assume e => s.assume e
  | .step e => .ok (s.step e)
  | .forget id => .ok (s.forget id)
  | .forgetAll ids => .ok (s.forgetAll ids)
  | .enter token => .ok (s.pushScope token)
  | .leave token => .ok (s.popScope token)

def run (s : State) : List Action → Except ArithmeticFault State
  | [] => .ok s
  | action :: rest => do (← s.act action).run rest

theorem ReachedFrom.act {start s next : State} {action : Action} (reached : ReachedFrom start s)
    (ok : s.act action = .ok next) : ReachedFrom start next := by
  cases action with
  | assign id e => exact .assign ok reached
  | assume e => exact .assume ok reached
  | step e => cases ok; exact .step e reached
  | forget id => cases ok; exact .forget id reached
  | forgetAll ids => cases ok; exact .forgetAll ids reached
  | enter token => cases ok; exact .pushScope token reached
  | leave token => cases ok; exact .popScope token reached

theorem ReachedFrom.run {start s next : State} {actions : List Action}
    (reached : ReachedFrom start s) (ok : s.run actions = .ok next) : ReachedFrom start next := by
  induction actions generalizing s with
  | nil => cases ok; exact reached
  | cons action rest ih =>
    obtain ⟨after, first, ok⟩ := ArithmeticFault.bindOk ok
    exact ih (reached.act first) ok

inductive WellFormed : State → State → Prop where
  | intervals {like env : Environment Interval} (occupied : env.Occupied)
      (declared : env.Declared) : WellFormed (.intervals like) (.intervals env)
  | congruences {like env : Environment Congruence} (occupied : env.Occupied)
      (declared : env.Declared) : WellFormed (.congruences like) (.congruences env)
  | bounds {like b : UpperBounds} (compact : b.Compact) (declared : b.Declared) :
      WellFormed (.bounds like) (.bounds b)
  | pentagon {like p : Pentagon} (consistent : p.Consistent) (declared : p.Declared) :
      WellFormed (.pentagon like) (.pentagon p)

inductive IsStart : State → Prop where
  | intervals : IsStart (.intervals .top)
  | congruences : IsStart (.congruences .top)
  | bounds : IsStart (.bounds .top)
  | pentagon : IsStart (.pentagon .top)

def rename (f : Identifier → Option Identifier) : State → State
  | .intervals env => .intervals (env.renameKeys f)
  | .congruences env => .congruences (env.renameKeys f)
  | .bounds b => .bounds (b.rename f)
  | .pentagon p => .pentagon ⟨p.bounds.rename f, p.intervals.renameKeys f⟩
  | s => s

variable {like s t next : State} {id : Identifier} {e : Expr}
open ArithmeticFault (bindOk)
open UpperBounds (compactLasting declaredLasting)

theorem wellFormedTop (formed : WellFormed like s) : WellFormed like s.top := by
  cases formed with
  | intervals => exact .intervals Environment.occupiedTop Environment.declaredTop
  | congruences => exact .congruences Environment.occupiedTop Environment.declaredTop
  | bounds => exact .bounds UpperBounds.compactTop (.inr rfl)
  | pentagon => exact .pentagon Pentagon.consistentTop Pentagon.declaredTop

theorem wellFormedBottom (formed : WellFormed like s) : WellFormed like s.bottom := by
  cases formed with
  | intervals => exact .intervals Environment.occupiedBottom Environment.declaredBottom
  | congruences => exact .congruences Environment.occupiedBottom Environment.declaredBottom
  | bounds => exact .bounds UpperBounds.compactBottom (.inl rfl)
  | pentagon => exact .pentagon Pentagon.consistentBottom Pentagon.declaredBottom

namespace WellFormed

theorem assign (formed : WellFormed like s) (ok : s.assign id e = .ok next) :
    WellFormed like next := by
  cases formed with
  | intervals occupied declared =>
    obtain ⟨env, assigned, ok⟩ := bindOk ok
    cases ok; exact .intervals (occupied.assign assigned) (declared.assign assigned)
  | congruences occupied declared =>
    obtain ⟨env, assigned, ok⟩ := bindOk ok
    cases ok; exact .congruences (occupied.assign assigned) (declared.assign assigned)
  | bounds compact declared =>
    cases ok; exact .bounds (compactLasting.assign compact id e) (declaredLasting.assign declared id e)
  | pentagon consistent declared =>
    obtain ⟨p, assigned, ok⟩ := bindOk ok
    cases ok; exact .pentagon (consistent.assign assigned) (declared.assign assigned)

theorem assume (formed : WellFormed like s) (ok : s.assume e = .ok next) :
    WellFormed like next := by
  cases formed with
  | intervals occupied declared =>
    obtain ⟨env, assumed, ok⟩ := bindOk ok
    cases ok; exact .intervals (occupied.assume assumed) (declared.assume assumed)
  | congruences occupied declared =>
    obtain ⟨env, assumed, ok⟩ := bindOk ok
    cases ok; exact .congruences (occupied.assume assumed) (declared.assume assumed)
  | bounds compact declared =>
    cases ok; exact .bounds (compactLasting.assume compact e) (declaredLasting.assume declared e)
  | pentagon consistent declared =>
    obtain ⟨p, assumed, ok⟩ := bindOk ok
    cases ok; exact .pentagon (consistent.assume assumed) (declared.assume assumed)

theorem forget (formed : WellFormed like s) (id : Identifier) : WellFormed like (s.forget id) := by
  cases formed with
  | intervals occupied declared => exact .intervals (occupied.forget id) (declared.forget id)
  | congruences occupied declared => exact .congruences (occupied.forget id) (declared.forget id)
  | bounds compact declared =>
    exact .bounds (compactLasting.rename compact _) (declaredLasting.rename declared _)
  | pentagon consistent declared =>
    exact .pentagon (consistent.forget id)
      ⟨declaredLasting.rename declared.bounds _, declared.intervals.forget id⟩

theorem forgetIf (formed : WellFormed like s) (drop : Identifier → Bool) :
    WellFormed like (s.forgetIf drop) := by
  cases formed with
  | intervals occupied declared => exact .intervals (occupied.forgetIf drop) (declared.forgetIf drop)
  | congruences occupied declared =>
    exact .congruences (occupied.forgetIf drop) (declared.forgetIf drop)
  | bounds compact declared =>
    exact .bounds (compactLasting.rename compact _) (declaredLasting.rename declared _)
  | pentagon consistent declared =>
    exact .pentagon (consistent.forgetIf drop)
      ⟨declaredLasting.rename declared.bounds _, declared.intervals.forgetIf drop⟩

theorem rename (formed : WellFormed like s) (f : Identifier → Option Identifier) :
    WellFormed like (s.rename f) := by
  cases formed with
  | intervals occupied declared => exact .intervals (occupied.renameKeys f) (declared.renameKeys f)
  | congruences occupied declared =>
    exact .congruences (occupied.renameKeys f) (declared.renameKeys f)
  | bounds compact declared =>
    exact .bounds (compactLasting.rename compact f) (declaredLasting.rename declared f)
  | pentagon consistent declared =>
    exact .pentagon (consistent.rename f)
      ⟨declaredLasting.rename declared.bounds f, declared.intervals.renameKeys f⟩

theorem pushScopeExact (formed : WellFormed like s) (token : ScopeToken) :
    s.pushScope token = s.rename fun id => some (id.hide token) := by
  cases formed <;> rfl

theorem popScopeExact (formed : WellFormed like s) (token : ScopeToken) :
    s.popScope token = s.rename fun id => id.leave token := by
  cases formed <;> rfl

theorem combine {op : LatticeOp} (left : WellFormed like s) (right : WellFormed like t)
    (ok : s.combine op (some t) = .ok next) : WellFormed like next := by
  cases left with
  | intervals occupied declared =>
    cases right with
    | intervals occupied' declared' =>
    cases ok; exact .intervals (occupied.combine op occupied') (declared.combine op declared')
  | congruences occupied declared =>
    cases right with
    | congruences occupied' declared' =>
    cases ok; exact .congruences (occupied.combine op occupied') (declared.combine op declared')
  | bounds compact declared =>
    cases right with
    | bounds compact' declared' =>
    cases ok
    exact .bounds (compactLasting.combine op compact compact')
      (declaredLasting.combine op declared declared')
  | pentagon consistent declared =>
    cases right with
    | pentagon consistent' declared' =>
    cases ok; exact .pentagon (consistent.combine op consistent') (declared.combine op declared')

end WellFormed

theorem IsStart.wellFormed {start : State} (known : IsStart start) : WellFormed start start := by
  cases known with
  | intervals => exact .intervals Environment.occupiedTop Environment.declaredTop
  | congruences => exact .congruences Environment.occupiedTop Environment.declaredTop
  | bounds => exact .bounds UpperBounds.compactTop (.inr rfl)
  | pentagon => exact .pentagon Pentagon.consistentTop Pentagon.declaredTop

theorem ReachedFrom.wellFormed {start : State} (known : IsStart start)
    (reached : ReachedFrom start s) : WellFormed start s := by
  induction reached with
  | start => exact known.wellFormed
  | top _ formed => exact wellFormedTop formed
  | bottom _ formed => exact wellFormedBottom formed
  | assign ok _ formed => exact formed.assign ok
  | assume ok _ formed => exact formed.assume ok
  | step _ _ formed => exact formed
  | forget id _ formed => exact formed.forget id
  | forgetAll ids _ formed => exact formed.forgetIf _
  | forgetIf drop _ formed => exact formed.forgetIf drop
  | pushScope token _ formed => rw [formed.pushScopeExact]; exact formed.rename _
  | popScope token _ formed => rw [formed.popScopeExact]; exact formed.rename _
  | combine ok _ _ left right => exact left.combine right ok

end Abstraction.State
