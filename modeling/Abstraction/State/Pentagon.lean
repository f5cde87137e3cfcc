import Abstraction.State.Environment
import Abstraction.State.UpperBounds
import Abstraction.Value.Interval.Guard

/-! Pentagons: strict upper bounds beside intervals. Each half restores what the other loses: a join
keeps a bound that one operand records and the other proves by its intervals, and the order does
not ask for a bound that the intervals prove. A pentagon with one impossible half is impossible. -/
namespace Abstraction

structure Pentagon where
  bounds : UpperBounds
  intervals : Environment Interval

namespace Pentagon

def top : Pentagon := ⟨.top, .top⟩

def bottom : Pentagon := ⟨.bottom, .bottom⟩

def isTop (p : Pentagon) : Bool := p.bounds.isTop && p.intervals.isTop

def isBottom (p : Pentagon) : Bool := p.bounds.isBottom && p.intervals.isBottom

def knows (p : Pentagon) (id : Identifier) : Bool := p.bounds.knows id || p.intervals.knows id

def same (p q : Pentagon) : Bool := p.bounds.same q.bounds && p.intervals.same q.intervals

def reduced (p : Pentagon) : Pentagon :=
  if p.isBottom then p
  else if p.bounds.isBottom || p.intervals.isBottom then bottom
  else p

def provablyBelow : Interval → Interval → Bool
  | .range _ b _, .range c _ _ => decide (b < c)
  | _, _ => false

def recoverAt (source : UpperBounds) (intervals : Environment Interval) (target : UpperBounds)
    (x : Identifier) : UpperBounds :=
  if (intervals.get x).isEmpty then target
  else
    target.put x ((target.get x).union
      ((source.get x).filter fun y => provablyBelow (intervals.get x) (intervals.get y)))

def recover (target source : UpperBounds) (intervals : Environment Interval) : UpperBounds :=
  source.keys.foldl (recoverAt source intervals) target

def join (p q : Pentagon) : Pentagon :=
  let shared := p.bounds.join q.bounds
  ⟨recover (recover shared p.bounds q.intervals) q.bounds p.intervals,
    p.intervals.join q.intervals⟩

def impliesBound (p q : Pentagon) (x y : Identifier) : Bool :=
  decide (y ∈ p.bounds.get x) || (p.intervals.get x).isEmpty || (q.intervals.get y).isWhole
    || provablyBelow (p.intervals.get x) (p.intervals.get y)

def leq (p q : Pentagon) : Bool :=
  p.intervals.leq q.intervals
    && q.bounds.table.entries.all fun (x, above) => above.members.all fun y => impliesBound p q x y

def meet (p q : Pentagon) : Pentagon :=
  reduced ⟨p.bounds.meet q.bounds, p.intervals.meet q.intervals⟩

def widen (p q : Pentagon) : Pentagon :=
  ⟨p.bounds.widen q.bounds, p.intervals.widen q.intervals⟩

def narrow (p q : Pentagon) : Pentagon :=
  reduced ⟨p.bounds.narrow q.bounds, p.intervals.narrow q.intervals⟩

/-- What `id := x - y` adds once the halves have been assigned: `id` is positive if `y` was below
`x`, and below `x` and its bounds if `y` was positive. -/
def assignDifference (before after : Pentagon) (id x y : Identifier) : Pentagon :=
  let intervals :=
    if x ∈ after.bounds.get y then
      after.intervals.put id ((after.intervals.get id).meet (.atLeast (.int 1)))
    else after.intervals
  let above : Names :=
    match before.intervals.get y with
    | .range lo _ _ => if .int 0 < lo then ((before.bounds.get x).insert x).erase id else ∅
    | .empty => ∅
  reduced ⟨after.bounds.put id above, intervals⟩

def assign (p : Pentagon) (id : Identifier) (e : Expr) : Except ArithmeticFault Pentagon := do
  let intervals ← p.intervals.assign id e
  let after := reduced ⟨p.bounds.assign id e, intervals⟩
  if after.isBottom then .ok after
  else
    match e.identifierPair with
    | some (.sub, x, y) => .ok (assignDifference p after id x y)
    | _ => .ok after

def assume (p : Pentagon) (e : Expr) : Except ArithmeticFault Pentagon := do
  let intervals ← p.intervals.assume e
  .ok (reduced ⟨p.bounds.assume e, intervals⟩)

def satisfies (p : Pentagon) (e : Expr) : Except ArithmeticFault Verdict := do
  let verdict ← p.intervals.satisfies e
  .ok ((p.bounds.satisfies e).meet verdict)

def forget (p : Pentagon) (id : Identifier) : Pentagon :=
  ⟨p.bounds.forget id, p.intervals.forget id⟩

def forgetIf (p : Pentagon) (drop : Identifier → Bool) : Pentagon :=
  ⟨p.bounds.forgetIf drop, p.intervals.forgetIf drop⟩

def pushScope (p : Pentagon) (token : ScopeToken) : Pentagon :=
  ⟨p.bounds.pushScope token, p.intervals.pushScope token⟩

def popScope (p : Pentagon) (token : ScopeToken) : Pentagon :=
  ⟨p.bounds.popScope token, p.intervals.popScope token⟩

def putRow (rows : List (String × String)) (row : String × String) : List (String × String) :=
  if rows.any (fun r => r.1 == row.1) then
    rows.map fun r => if r.1 == row.1 then row else r
  else rows ++ [row]

def rows (p : Pentagon) : List (String × String) :=
  let tracked := p.intervals.table.keysOfBoth p.bounds.table
  let ordered := tracked.mergeSort fun a b => decide (a.render ≤ b.render)
  ordered.foldl (fun rows id => putRow rows
    (id.render, (p.intervals.get id).render ++ ", " ++ p.bounds.renderBounds id)) []

def summary (p : Pentagon) : String ⊕ List (String × String) :=
  if p.isTop then .inl topText
  else if p.isBottom then .inl bottomText
  else .inr p.rows

def render (p : Pentagon) : String :=
  match p.summary with
  | .inl text => text
  | .inr rows => "\x7b" ++ "; ".intercalate (rows.map fun r => r.1 ++ ": " ++ r.2) ++ "\x7d"

def describe (p : Pentagon) : String := "Pentagon(" ++ p.render ++ ")"

end Pentagon
end Abstraction
