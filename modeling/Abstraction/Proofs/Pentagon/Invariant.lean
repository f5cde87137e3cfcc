import Abstraction.State.Combine
import Abstraction.Proofs.Environment.Invariant
import Abstraction.Proofs.Interval.Guard
import Abstraction.Proofs.UpperBounds.Ordered
import Abstraction.Proofs.Pentagon.Transfer

/-! The pentagons that operations lead to. Their halves are impossible together, the intervals are
integral and none of them is empty, and the bounds store no empty set. -/
namespace Abstraction.Pentagon
open UpperBounds (compactLasting declaredLasting)

variable {p q : Pentagon} {e : Expr} {id : Identifier}

/-- The pentagons that operations lead to from the one that knows nothing, by runs whose joins are
all allowed. -/
inductive ReachableBy (allowed : Pentagon → Pentagon → Prop) : Pentagon → Prop where
  | top : ReachableBy allowed top
  | assign {p q : Pentagon} {id : Identifier} {e : Expr} (ok : p.assign id e = .ok q) :
      ReachableBy allowed p → ReachableBy allowed q
  | assume {p q : Pentagon} {e : Expr} (ok : p.assume e = .ok q) :
      ReachableBy allowed p → ReachableBy allowed q
  | forget {p : Pentagon} (id : Identifier) : ReachableBy allowed p → ReachableBy allowed (p.forget id)
  | join {p q : Pentagon} (fits : allowed p q) :
      ReachableBy allowed p → ReachableBy allowed q → ReachableBy allowed (p.join q)
  | meet {p q : Pentagon} :
      ReachableBy allowed p → ReachableBy allowed q → ReachableBy allowed (p.meet q)
  | widen {p q : Pentagon} :
      ReachableBy allowed p → ReachableBy allowed q → ReachableBy allowed (p.widen q)
  | narrow {p q : Pentagon} :
      ReachableBy allowed p → ReachableBy allowed q → ReachableBy allowed (p.narrow q)

abbrev Reachable : Pentagon → Prop := ReachableBy fun _ _ => True

def assumeAll (p : Pentagon) : List Expr → Except ArithmeticFault Pentagon
  | [] => .ok p
  | e :: rest => do (← p.assume e).assumeAll rest

theorem ReachableBy.assumeAll {allowed : Pentagon → Pentagon → Prop} {guards : List Expr}
    (reachable : ReachableBy allowed p) (ok : p.assumeAll guards = .ok q) :
    ReachableBy allowed q := by
  induction guards generalizing p with
  | nil => cases ok; exact reachable
  | cons e rest ih =>
    obtain ⟨next, first, ok⟩ := ArithmeticFault.bindOk ok
    exact ih (.assume first reachable) ok

structure Consistent (p : Pentagon) : Prop where
  compact : p.bounds.Compact
  occupied : p.intervals.Occupied
  agree : p.bounds.isBottom = p.intervals.isBottom

theorem consistentTop : top.Consistent := ⟨UpperBounds.compactTop, Environment.occupiedTop, rfl⟩

theorem consistentBottom : bottom.Consistent :=
  ⟨UpperBounds.compactBottom, Environment.occupiedBottom, rfl⟩

theorem consistentReduced (compact : p.bounds.Compact) (occupied : p.intervals.Occupied) :
    p.reduced.Consistent := by
  obtain collapsed | ⟨same, impossible | possible⟩ := reducedCases p
  · rw [collapsed]; exact consistentBottom
  · obtain ⟨left, right⟩ := Bool.and_eq_true_iff.mp impossible
    rw [same]; exact ⟨compact, occupied, left.trans right.symm⟩
  · rw [same]; exact ⟨compact, occupied, possible.1.trans possible.2.symm⟩

theorem occupiedRaised {x y : Identifier} (occupied : p.intervals.Occupied) :
    (p.raisedIntervals id x y).Occupied := by
  unfold raisedIntervals
  split
  · cases possible : p.intervals.isBottom with
    | true => rwa [Environment.put, if_pos possible]
    | false =>
      exact occupied.put (Interval.integralMeet
        (Environment.regularGet occupied.regular possible id)
        (Interval.integralOfBounds (Number.integralInt 1) Number.integralPosInf))
  · exact occupied

theorem Consistent.assign (consistent : p.Consistent) (ok : p.assign id e = .ok q) :
    q.Consistent := by
  obtain ⟨intervals, assigned, step⟩ := assigned ok
  have occupied := consistent.occupied.assign assigned
  cases step with
  | halves => exact consistentReduced (compactLasting.assign consistent.compact id e) occupied
  | difference x y after cleared =>
    subst cleared
    have cleared : (p.bounds.forget id).Compact := compactLasting.rename consistent.compact _
    exact consistentReduced (compactLasting.put cleared id _) (occupiedRaised occupied)

theorem Consistent.assume (consistent : p.Consistent) (ok : p.assume e = .ok q) :
    q.Consistent := by
  obtain ⟨intervals, assumed, rfl⟩ := assumed ok
  exact consistentReduced (compactLasting.assume consistent.compact e)
    (consistent.occupied.assume assumed)

theorem Consistent.forget (consistent : p.Consistent) (id : Identifier) :
    (p.forget id).Consistent := by
  refine ⟨compactLasting.rename consistent.compact _, consistent.occupied.forget id, ?_⟩
  calc (p.bounds.forget id).isBottom
      = p.bounds.isBottom := UpperBounds.isBottomRename p.bounds _
    _ = p.intervals.isBottom := consistent.agree
    _ = (p.intervals.forget id).isBottom := (Environment.isBottomForget p.intervals id).symm

theorem Consistent.forgetIf (consistent : p.Consistent) (drop : Identifier → Bool) :
    (p.forgetIf drop).Consistent := by
  refine ⟨compactLasting.rename consistent.compact _, consistent.occupied.forgetIf drop, ?_⟩
  calc (p.bounds.forgetIf drop).isBottom
      = p.bounds.isBottom := UpperBounds.isBottomRename p.bounds _
    _ = p.intervals.isBottom := consistent.agree
    _ = (p.intervals.forgetIf drop).isBottom := (Environment.isBottomForgetIf p.intervals drop).symm

theorem Consistent.rename (consistent : p.Consistent) (f : Identifier → Option Identifier) :
    (⟨p.bounds.rename f, p.intervals.renameKeys f⟩ : Pentagon).Consistent := by
  refine ⟨compactLasting.rename consistent.compact f, consistent.occupied.renameKeys f, ?_⟩
  calc (p.bounds.rename f).isBottom
      = p.bounds.isBottom := UpperBounds.isBottomRename p.bounds f
    _ = p.intervals.isBottom := consistent.agree
    _ = (p.intervals.renameKeys f).isBottom := (Environment.isBottomRenameKeys p.intervals f).symm

theorem lastingRecover {P : UpperBounds → Prop} (lasting : UpperBounds.Lasting P)
    {target : UpperBounds} (before : P target) (source : UpperBounds)
    (intervals : Environment Interval) : P (recover target source intervals) := by
  unfold recover
  induction source.keys generalizing target with
  | nil => exact before
  | cons x rest ih =>
    refine ih ?_
    unfold recoverAt
    split
    · exact before
    · exact lasting.put before x _

theorem lastingJoin {P : UpperBounds → Prop} (lasting : UpperBounds.Lasting P)
    (left : P p.bounds) (right : P q.bounds) : P (p.join q).bounds :=
  lastingRecover lasting (lastingRecover lasting (lasting.combine .join left right) _ _) _ _

theorem Consistent.join (left : p.Consistent) (right : q.Consistent) :
    (p.join q).Consistent := by
  refine ⟨lastingJoin compactLasting left.compact right.compact,
    left.occupied.join right.occupied, ?_⟩
  rw [isBottomJoin, left.agree, right.agree]
  exact (Environment.isBottomJoin left.occupied right.occupied).symm

theorem Consistent.meet (left : p.Consistent) (right : q.Consistent) :
    (p.meet q).Consistent :=
  consistentReduced (compactLasting.combine .meet left.compact right.compact)
    (left.occupied.meet right.occupied)

theorem Consistent.widen (left : p.Consistent) (right : q.Consistent) :
    (p.widen q).Consistent := by
  refine ⟨compactLasting.combine .widen left.compact right.compact,
    left.occupied.widen right.occupied, ?_⟩
  calc (p.bounds.widen q.bounds).isBottom
      = (p.bounds.isBottom && q.bounds.isBottom) := UpperBounds.isBottomWiden _ _
    _ = (p.intervals.isBottom && q.intervals.isBottom) := by rw [left.agree, right.agree]
    _ = (p.intervals.widen q.intervals).isBottom :=
        (Environment.isBottomWiden left.occupied right.occupied).symm

theorem Consistent.narrow (left : p.Consistent) (right : q.Consistent) :
    (p.narrow q).Consistent :=
  consistentReduced (compactLasting.combine .narrow left.compact right.compact)
    (left.occupied.narrow right.occupied)

theorem Consistent.combine (op : LatticeOp) (left : p.Consistent) (right : q.Consistent) :
    (p.combine op q).Consistent :=
  match op with
  | .join => left.join right
  | .meet => left.meet right
  | .widen => left.widen right
  | .narrow => left.narrow right

theorem ReachableBy.consistent {allowed : Pentagon → Pentagon → Prop}
    (reachable : ReachableBy allowed p) : p.Consistent := by
  induction reachable with
  | top => exact consistentTop
  | assign ok _ ih => exact ih.assign ok
  | assume ok _ ih => exact ih.assume ok
  | forget id _ ih => exact ih.forget id
  | join _ _ _ left right => exact left.join right
  | meet _ _ left right => exact left.meet right
  | widen _ _ left right => exact left.widen right
  | narrow _ _ left right => exact left.narrow right

structure Declared (p : Pentagon) : Prop where
  bounds : p.bounds.Declared
  intervals : p.intervals.Declared

theorem declaredTop : top.Declared := ⟨.inr rfl, .inr rfl⟩

theorem declaredBottom : bottom.Declared := ⟨.inl rfl, .inl rfl⟩

theorem Declared.reduced (declared : p.Declared) : p.reduced.Declared := by
  obtain collapsed | ⟨same, _⟩ := reducedCases p
  · rw [collapsed]; exact declaredBottom
  · rwa [same]

theorem Declared.assign (declared : p.Declared) (ok : p.assign id e = .ok q) : q.Declared := by
  obtain ⟨intervals, assigned, step⟩ := assigned ok
  have after := declared.intervals.assign assigned
  cases step with
  | halves => exact Declared.reduced ⟨declaredLasting.assign declared.bounds id e, after⟩
  | difference x y _ cleared =>
    subst cleared
    refine Declared.reduced
      ⟨declaredLasting.put (declaredLasting.rename declared.bounds _) id _, ?_⟩
    unfold raisedIntervals
    split
    · exact after.put id _
    · exact after

theorem Declared.assume (declared : p.Declared) (ok : p.assume e = .ok q) : q.Declared := by
  obtain ⟨intervals, assumed, rfl⟩ := assumed ok
  exact Declared.reduced ⟨declaredLasting.assume declared.bounds e, declared.intervals.assume assumed⟩

theorem Declared.combine (op : LatticeOp) (left : p.Declared) (right : q.Declared) :
    (p.combine op q).Declared := by
  have halves (op : LatticeOp) :
      (⟨p.bounds.combine op q.bounds, p.intervals.combine op q.intervals⟩ : Pentagon).Declared :=
    ⟨declaredLasting.combine op left.bounds right.bounds, left.intervals.combine op right.intervals⟩
  cases op with
  | join => exact ⟨lastingJoin declaredLasting left.bounds right.bounds, (halves .join).intervals⟩
  | meet => exact (halves .meet).reduced
  | widen => exact halves .widen
  | narrow => exact (halves .narrow).reduced

end Abstraction.Pentagon
