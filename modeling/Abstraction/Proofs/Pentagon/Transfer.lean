import Mathlib.Tactic.Tauto
import Abstraction.State.Pentagon
import Abstraction.Proofs.Number.Order
import Abstraction.Proofs.Reach
import Abstraction.Proofs.UpperBounds.Edges

/-! What assignments, assumptions and joins do to the halves of a pentagon, said once for soundness and
for the invariants. -/
namespace Abstraction.Pentagon
open ArithmeticFault (bindOk)

variable {p q after : Pentagon} {e : Expr} {id x y : Identifier}

def raisedIntervals (after : Pentagon) (id x y : Identifier) : Environment Interval :=
  if x ∈ after.bounds.get y then
    after.intervals.put id ((after.intervals.get id).meet (.atLeast (.int 1)))
  else after.intervals

def loweredBounds (before : Pentagon) (id x y : Identifier) : Names :=
  match before.intervals.get y with
  | .range lo _ _ => if .int 0 < lo then ((before.bounds.get x).insert x).erase id else ∅
  | .empty => ∅

theorem memLoweredBounds {z : Identifier} : z ∈ p.loweredBounds id x y ↔
    (z ∈ p.bounds.get x ∨ z = x) ∧ z ≠ id ∧
      ∃ lo hi proper, p.intervals.get y = .range lo hi proper ∧ .int 0 < lo := by
  unfold loweredBounds
  cases same : p.intervals.get y with
  | empty => simp [Names.notMemEmpty]
  | range lo hi proper =>
    by_cases positive : .int 0 < lo
    · simp [positive, Names.memErase, Names.memInsert, proper]
    · simp [positive, Names.notMemEmpty]

/-- An assignment goes to both halves; a difference of identifiers then adds what it knows. -/
inductive Assigned (p : Pentagon) (id : Identifier) (intervals : Environment Interval) :
    Expr → Pentagon → Prop where
  | halves (e : Expr) : Assigned p id intervals e (reduced ⟨p.bounds.assign id e, intervals⟩)
  | difference (x y : Identifier) (after : Pentagon)
      (cleared : after = ⟨p.bounds.forget id, intervals⟩) :
      Assigned p id intervals (.binary .sub (.identifier x) (.identifier y))
        (reduced ⟨after.bounds.put id (p.loweredBounds id x y), after.raisedIntervals id x y⟩)

theorem reducedCases (p : Pentagon) : p.reduced = bottom ∨ (p.reduced = p ∧
    (p.isBottom = true ∨ (p.bounds.isBottom = false ∧ p.intervals.isBottom = false))) := by
  unfold reduced
  split
  · exact .inr ⟨rfl, .inl ‹_›⟩
  split
  · exact .inl rfl
  · rename_i possible
    simp only [Bool.or_eq_true, not_or, Bool.not_eq_true] at possible
    exact .inr ⟨rfl, .inr possible⟩

theorem reducedPossible (possible : p.reduced.isBottom = false) :
    p.reduced = p ∧ p.bounds.isBottom = false ∧ p.intervals.isBottom = false := by
  obtain collapsed | ⟨same, impossible | both⟩ := reducedCases p
  · rw [collapsed] at possible; contradiction
  · rw [same, impossible] at possible; contradiction
  · exact ⟨same, both⟩

theorem assigned (ok : p.assign id e = .ok q) :
    ∃ intervals, p.intervals.assign id e = .ok intervals ∧ Assigned p id intervals e q := by
  obtain ⟨intervals, assigned, ok⟩ := bindOk ok
  refine ⟨intervals, assigned, ?_⟩
  dsimp only at ok
  split at ok
  · cases ok; exact .halves e
  rename_i possible
  split at ok
  · rename_i x y pair
    cases ok
    obtain rfl := Expr.identifierPairExact.mp pair
    obtain collapsed | ⟨same, _⟩ :=
      reducedCases ⟨p.bounds.assign id (.binary .sub (.identifier x) (.identifier y)), intervals⟩
    · rw [collapsed] at possible; exact (possible rfl).elim
    · rw [same, UpperBounds.assignDifference]
      exact .difference x y _ rfl
  · cases ok; exact .halves e

theorem assumed (ok : p.assume e = .ok q) :
    ∃ intervals, p.intervals.assume e = .ok intervals ∧
      q = reduced ⟨p.bounds.assume e, intervals⟩ := by
  obtain ⟨intervals, assumed, ok⟩ := bindOk ok
  exact ⟨intervals, assumed, (Except.ok.inj ok).symm⟩

theorem isBottomRecoverAt (source target : UpperBounds) (intervals : Environment Interval)
    (x : Identifier) : (recoverAt source intervals target x).isBottom = target.isBottom := by
  unfold recoverAt
  split
  · rfl
  · exact UpperBounds.isBottomPut target x _

theorem isBottomRecover (target source : UpperBounds) (intervals : Environment Interval) :
    (recover target source intervals).isBottom = target.isBottom := by
  unfold recover
  induction source.keys generalizing target with
  | nil => rfl
  | cons x rest ih => exact (ih _).trans (isBottomRecoverAt source target intervals x)

theorem memGetRecoverAt {source target : UpperBounds} {intervals : Environment Interval}
    {k : Identifier} (possible : target.isBottom = false) :
    y ∈ (recoverAt source intervals target k).get x ↔ y ∈ target.get x ∨
      (x = k ∧ y ∈ source.get x ∧ provablyBelow (intervals.get x) (intervals.get y) = true) := by
  unfold recoverAt
  by_cases same : x = k
  · subst same
    cases range : intervals.get x with
    | empty => simp [Interval.isEmpty, provablyBelow]
    | range lo hi proper =>
      simp [Interval.isEmpty, UpperBounds.memGetPut possible, Names.memUnion, Names.memFilter]
  · split
    · simp [same]
    · simp [UpperBounds.memGetPut possible, same]

theorem memGetRecover {source target : UpperBounds} {intervals : Environment Interval}
    (possible : target.isBottom = false) :
    y ∈ (recover target source intervals).get x ↔ y ∈ target.get x ∨
      (y ∈ source.get x ∧ provablyBelow (intervals.get x) (intervals.get y) = true) := by
  have run (keys : List Identifier) :
      y ∈ (keys.foldl (recoverAt source intervals) target).get x ↔ y ∈ target.get x ∨
        (x ∈ keys ∧ y ∈ source.get x ∧
          provablyBelow (intervals.get x) (intervals.get y) = true) := by
    induction keys generalizing target with
    | nil => simp
    | cons k rest ih =>
      rw [List.foldl_cons, ih ((isBottomRecoverAt _ _ _ _).trans possible),
        memGetRecoverAt possible, List.mem_cons]
      tauto
  rw [recover, run]
  -- An identifier with a bound is a key, so none is left out.
  have listed (bound : y ∈ source.get x) : x ∈ source.keys := Reach.edgeKey bound
  tauto

def Entails (p : Pentagon) (x y : Identifier) : Prop :=
  y ∈ p.bounds.get x ∨ provablyBelow (p.intervals.get x) (p.intervals.get y) = true

def Shared (p q : Pentagon) (x y : Identifier) : Prop :=
  (y ∈ p.bounds.get x ∧ q.Entails x y) ∨ (y ∈ q.bounds.get x ∧ p.Entails x y)

theorem isBottomJoin (p q : Pentagon) :
    (p.join q).bounds.isBottom = (p.bounds.isBottom && q.bounds.isBottom) := by
  rw [join, isBottomRecover, isBottomRecover, UpperBounds.isBottomJoin]

theorem memGetJoin (left : p.bounds.isBottom = false) (right : q.bounds.isBottom = false) :
    y ∈ (p.join q).bounds.get x ↔ Shared p q x y := by
  have possible : (p.bounds.join q.bounds).isBottom = false := by
    rw [UpperBounds.isBottomJoin, left]; rfl
  rw [join, memGetRecover ((isBottomRecover _ _ _).trans possible), memGetRecover possible,
    UpperBounds.memGetJoin left right, Shared, Entails, Entails]
  tauto

end Abstraction.Pentagon
