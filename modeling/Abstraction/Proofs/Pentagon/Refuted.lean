import Abstraction.State.Equalities
import Abstraction.Proofs.Interval.Verdict
import Abstraction.Proofs.Pentagon.Invariant

/-! Guards that a query refutes. Environments and equalities ask the query first, so that assuming such
a guard is impossible. The bounds do not: they answer queries about every comparison of identifiers
and assume strict orders only. -/
namespace Abstraction

theorem Verdict.meetFails {a b : Verdict} (fails : a.meet b = .fails) :
    b = .fails ∨ (a = .fails ∧ b = .unknown) := by
  cases a <;> cases b <;> simp [meet] at fails ⊢

theorem Equalities.assumeRefuted {s : Equalities} {e : Expr} (refuted : s.satisfies e = .fails) :
    s.assume e = bottom := if_pos refuted

namespace Environment
open ArithmeticFault (bindOk)

theorem assumeRefuted {V : Type} [ValueDomain V] {env : Environment V} {e : Expr}
    (refuted : env.satisfies e = .ok .fails) : env.assume e = .ok bottom := by
  cases possible : env.isBottom with
  | true =>
    rw [satisfies, if_pos possible] at refuted
    contradiction
  | false =>
    rw [assume, if_neg (by simp [possible]), refuted]
    rfl

variable {env next : Environment Interval} {e : Expr}

theorem openRefine (occupied : env.Occupied) (possible : env.isBottom = false) {op : Operator}
    {x y : Identifier} {negated : Bool} (comparison : op.isComparison = true)
    (unknown : Interval.compare op (env.get x) (env.get y) = .unknown)
    (ok : env.refine negated (.binary op (.identifier x) (.identifier y)) = .ok next) :
    next.isBottom = false := by
  obtain ⟨actual, v, w, rfl, evalLeft, evalRight, rfl⟩ := refineSource comparison possible ok
  cases evalLeft
  cases evalRight
  have left : (env.get x).Integral := regularGet occupied.regular possible x
  have right : (env.get y).Integral := regularGet occupied.regular possible y
  obtain ⟨fullLeft, fullRight⟩ := Interval.refinedOpen comparison left right
    (occupied.get possible x) (occupied.get possible y) unknown negated
  generalize (if negated then op.complement else op) = actual at fullLeft fullRight ⊢
  have full : (ValueDomain.isBottom (ValueDomain.refine actual (env.get x) (env.get y)).1 ||
      ValueDomain.isBottom (ValueDomain.refine actual (env.get x) (env.get y)).2) = false :=
    Bool.or_eq_false_iff.mpr ⟨fullLeft, fullRight⟩
  rw [if_neg (Bool.eq_false_iff.mp full)]
  exact putPossible (occupied.put (Interval.integralRefine left right).1)
    (putPossible occupied possible fullLeft) fullRight

theorem openAssume (occupied : env.Occupied) (possible : env.isBottom = false)
    {c : Expr.Comparison} (shape : e.comparison = some c) (comparison : c.op.isComparison = true)
    (unknown : env.satisfies e = .ok .unknown) (ok : env.assume e = .ok next) :
    next.isBottom = false := by
  rw [assume, if_neg (by simp [possible]), unknown] at ok
  rw [satisfies, if_neg (by simp [possible])] at unknown
  have compared : env.judge (.binary c.op (.identifier c.left) (.identifier c.right)) =
      .ok (Interval.compare c.op (env.get c.left) (env.get c.right)) := by
    rw [judge, if_pos comparison, evalPossible possible, evalPossible possible]
    rfl
  obtain rfl := Expr.comparisonExact.mp shape
  cases negated : c.negated with
  | false =>
    simp only [negated, Bool.false_eq_true, if_false] at unknown ok
    rw [compared] at unknown
    exact openRefine occupied possible comparison (Except.ok.inj unknown) ok
  | true =>
    simp only [negated, if_true] at unknown ok
    rw [judge, compared] at unknown
    exact openRefine occupied possible comparison
      (Verdict.negateUnknown.mp (Except.ok.inj unknown)) ok

end Environment

namespace UpperBounds

variable {b : UpperBounds} {e : Expr} {x y lower upper : Identifier}

theorem orderVerdictHolds (holds : b.orderVerdict x y = .holds) : y ∈ b.get x := by
  unfold orderVerdict at holds
  split at holds
  · assumption
  split at holds <;> contradiction

theorem orderVerdictFails (fails : b.orderVerdict x y = .fails) : x ∈ b.get y := by
  unfold orderVerdict at fails
  split at fails
  · contradiction
  split at fails
  · assumption
  · contradiction

theorem refutedShape (refuted : b.satisfies e = .fails) : b.isBottom = false ∧
    ∃ c, e.comparison = some c ∧ c.op.isComparison = true ∧
      (if c.negated then (b.compare c.op c.left c.right).negate
        else b.compare c.op c.left c.right) = .fails := by
  unfold satisfies at refuted
  split at refuted
  · contradiction
  rename_i possible
  split at refuted
  · contradiction
  rename_i c shape
  refine ⟨Bool.eq_false_iff.mpr possible, c, shape, ?_, refuted⟩
  obtain ⟨op, _, _, negated⟩ := c
  cases op <;> cases negated <;> try contradiction
  all_goals rfl

theorem refutedOrder (refuted : b.satisfies e = .fails)
    (shape : e.strictOrder = some (lower, upper)) : lower ∈ b.get upper := by
  obtain ⟨_, c, compared, comparison, verdict⟩ := refutedShape refuted
  rw [Expr.strictOrder, compared] at shape
  obtain ⟨op, left, right, negated⟩ := c
  cases negated with
  | false =>
    cases op <;> simp [compare] at shape verdict
    case lt => obtain ⟨rfl, rfl⟩ := shape; exact orderVerdictFails verdict
    case gt => obtain ⟨rfl, rfl⟩ := shape; exact orderVerdictFails verdict
  | true =>
    cases op <;> simp [compare, Operator.complement] at shape verdict
    case le => obtain ⟨rfl, rfl⟩ := shape; exact orderVerdictHolds (Verdict.negateFails.mp verdict)
    case ge => obtain ⟨rfl, rfl⟩ := shape; exact orderVerdictHolds (Verdict.negateFails.mp verdict)

theorem assumeUnordered (shape : e.strictOrder = none) : b.assume e = b := by
  rw [assume, shape]
  exact ite_self b

theorem assumeCycle (possible : b.isBottom = false) (shape : e.strictOrder = some (lower, upper))
    (cycle : lower ∈ b.get upper) : b.assume e = bottom := by
  rw [assume, if_neg (by simp [possible]), shape]
  exact if_pos (.inr cycle)

end UpperBounds

namespace Pentagon
open ArithmeticFault (bindOk yields)

variable {p q : Pentagon} {e : Expr}

theorem refutedHalf (refuted : p.satisfies e = .ok .fails) :
    p.intervals.satisfies e = .ok .fails ∨
      (p.bounds.satisfies e = .fails ∧ p.intervals.satisfies e = .ok .unknown) := by
  obtain ⟨verdict, answer, both⟩ := bindOk refuted
  rcases Verdict.meetFails (Except.ok.inj both) with rfl | ⟨bounds, rfl⟩
  · exact .inl answer
  · exact .inr ⟨bounds, answer⟩

theorem isBottomReduced (p : Pentagon) :
    p.reduced.isBottom = (p.bounds.isBottom || p.intervals.isBottom) := by
  unfold reduced
  split
  · rename_i impossible
    rw [impossible, (Bool.and_eq_true_iff.mp impossible).1, Bool.true_or]
  split
  · rename_i half
    rw [half]
    rfl
  · rename_i whole possible
    rw [Bool.eq_false_iff.mpr whole, Bool.eq_false_iff.mpr possible]

/- A refuted guard is impossible exactly where the intervals refute it or it states a strict order. -/
theorem refutedGuardExact (p q : Pentagon) (e : Expr) (reachable : Reachable p)
    (refuted : p.satisfies e = .ok .fails) (ok : p.assume e = .ok q) :
    (q.isBottom = true ↔ p.intervals.satisfies e = .ok .fails ∨
      ∃ lower upper, e.strictOrder = some (lower, upper)) ∧
    (∀ (V : Type) [ValueDomain V] (env : Environment V),
      env.satisfies e = .ok .fails → env.assume e = .ok .bottom) ∧
    ∀ s : Equalities, s.satisfies e = .fails → s.assume e = .bottom := by
  refine ⟨?_, fun V _ env => Environment.assumeRefuted, fun s => Equalities.assumeRefuted⟩
  obtain ⟨intervals, assumed, rfl⟩ := assumed ok
  rw [isBottomReduced, Bool.or_eq_true]
  rcases refutedHalf refuted with half | ⟨half, undecided⟩
  · rw [Environment.assumeRefuted half] at assumed
    cases assumed
    exact iff_of_true (.inr rfl) (.inl half)
  · obtain ⟨possible, c, shape, comparison, _⟩ := UpperBounds.refutedShape half
    have consistent := reachable.consistent
    have kept : intervals.isBottom = false := Environment.openAssume consistent.occupied
      (consistent.agree.symm.trans possible) shape comparison undecided assumed
    cases order : e.strictOrder with
    | none =>
      rw [UpperBounds.assumeUnordered order, possible, kept, undecided]
      simp
    | some pair =>
      obtain ⟨lower, upper⟩ := pair
      rw [UpperBounds.assumeCycle possible order (UpperBounds.refutedOrder half order)]
      exact iff_of_true (.inl rfl) (.inr ⟨lower, upper, rfl⟩)

theorem refutedGuardCycle :
    let x := Identifier.visible "x"
    let y := Identifier.visible "y"
    let less (i j : Identifier) := Expr.binary .lt (.identifier i) (.identifier j)
    ∃ p q, top.assume (less x y) = .ok p ∧ p.satisfies (less y x) = .ok .fails ∧
      p.assume (less y x) = .ok q ∧ (less y x).strictOrder = some (y, x) ∧ q.isBottom = true := by
  intro x y less
  obtain ⟨p, assumed, check, check'⟩ : ∃ p, top.assume (less x y) = .ok p ∧
      ((p.satisfies (less y x)).toOption.any fun verdict => decide (verdict = .fails)) = true ∧
      ((p.assume (less y x)).toOption.any fun _ => decide True) = true := yields (by decide +kernel)
  obtain ⟨_, refuted, rfl⟩ := yields check
  obtain ⟨q, ok, _⟩ := yields check'
  obtain ⟨impossibleIff, _⟩ := refutedGuardExact p q (less y x) (.assume assumed .top) refuted ok
  exact ⟨p, q, assumed, refuted, ok, rfl, impossibleIff.mpr (.inr ⟨y, x, rfl⟩)⟩

/- The guard `x ≤ y` contradicts the bound `y < x` as well, and the query says so. But it is no strict
order and the intervals do not refute it: assuming it leaves a possible state. -/
theorem refutedGuardKept :
    let x := Identifier.visible "x"
    let y := Identifier.visible "y"
    let guard := Expr.binary .le (.identifier x) (.identifier y)
    ∃ p q, top.assume (.binary .lt (.identifier y) (.identifier x)) = .ok p ∧ Reachable p ∧
      p.satisfies guard = .ok .fails ∧ p.assume guard = .ok q ∧ q.isBottom = false := by
  intro x y guard
  obtain ⟨p, assumed, check, check'⟩ : ∃ p,
      top.assume (.binary .lt (.identifier y) (.identifier x)) = .ok p ∧
      ((p.satisfies guard).toOption.any fun verdict => decide (verdict = .fails)) = true ∧
      ((p.assume guard).toOption.any fun q => decide (q.isBottom = false)) = true :=
    yields (by decide +kernel)
  obtain ⟨_, refuted, rfl⟩ := yields check
  obtain ⟨q, ok, possible⟩ := yields check'
  exact ⟨p, q, assumed, .assume assumed .top, refuted, ok, possible⟩

end Pentagon
end Abstraction
