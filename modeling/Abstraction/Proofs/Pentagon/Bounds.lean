import Abstraction.Proofs.Pentagon.Invariant

/-! The bounds of a pentagon as a strict order. Every operation but the join keeps one. A join takes
over each bound that one operand records and the other entails. Two such bounds in a row may be
recorded by different operands, and then the bound they lead to may be recorded by neither. So runs
keep the order exactly as long as the shared bounds of what they join compose. -/
namespace Abstraction.Pentagon
open ArithmeticFault (yields)

variable {p q : Pentagon} {e : Expr} {id x y : Identifier}

theorem orderedReduced (order : p.bounds.Ordered) : p.reduced.bounds.Ordered := by
  obtain collapsed | ⟨same, _⟩ := reducedCases p
  · rw [collapsed]; exact UpperBounds.orderedBottom
  · rwa [same]

theorem orderedLowered (order : p.bounds.Ordered) (id x y : Identifier) :
    ((p.bounds.forget id).put id (p.loweredBounds id x y)).Ordered := by
  cases possible : p.bounds.isBottom with
  | true =>
    have kept : (p.bounds.forget id).isBottom = true :=
      (UpperBounds.isBottomRename p.bounds _).trans possible
    rw [UpperBounds.put, if_pos kept]
    exact order.forgetIf _
  | false =>
    refine order.placedBelow (UpperBounds.placedForget possible).put ?_ ?_
    · intro z w member edge other
      obtain ⟨above, _, positive⟩ := memLoweredBounds.mp member
      refine memLoweredBounds.mpr ⟨.inl ?_, other, positive⟩
      rcases above with above | rfl
      · exact order.transitive x z w above edge
      · exact edge
    · intro member
      exact (memLoweredBounds.mp member).2.1 rfl

theorem orderedAssign (order : p.bounds.Ordered) (ok : p.assign id e = .ok q) :
    q.bounds.Ordered := by
  obtain ⟨intervals, _, step⟩ := assigned ok
  cases step with
  | halves => exact orderedReduced (order.assign id e)
  | difference x y after cleared =>
    subst cleared
    exact orderedReduced (orderedLowered order id x y)

theorem orderedAssume (order : p.bounds.Ordered) (ok : p.assume e = .ok q) :
    q.bounds.Ordered := by
  obtain ⟨intervals, _, rfl⟩ := assumed ok
  exact orderedReduced (order.assume e)

def Composes (p q : Pentagon) : Prop :=
  ∀ x y z, Shared p q x y → Shared p q y z → Shared p q x z

theorem recoverImpossible {intervals : Environment Interval} (impossible : intervals.isBottom = true)
    (target source : UpperBounds) : recover target source intervals = target := by
  have empty (x : Identifier) : intervals.get x = .empty := by
    rw [Environment.get, if_pos impossible]; rfl
  unfold recover
  induction source.keys generalizing target with
  | nil => rfl
  | cons x rest ih =>
    rw [List.foldl_cons, ih, recoverAt, empty]
    rfl

theorem notEntailsImpossible (consistent : p.Consistent) (impossible : p.bounds.isBottom = true) :
    ¬ p.Entails x y := by
  have empty : p.intervals.get x = .empty := by
    rw [Environment.get, if_pos (consistent.agree ▸ impossible)]; rfl
  rw [Entails, consistent.compact.impossible impossible, empty]
  intro known
  rcases known with recorded | below
  · exact Names.notMemEmpty y recorded
  · contradiction

theorem joinImpossibleLeft (consistent : p.Consistent) (impossible : p.bounds.isBottom = true) :
    (p.join q).bounds = q.bounds := by
  rw [join, recoverImpossible (consistent.agree ▸ impossible), UpperBounds.join, if_pos impossible,
    consistent.compact.impossible impossible]
  rfl

theorem joinImpossibleRight (consistent : q.Consistent) (possible : p.bounds.isBottom = false)
    (impossible : q.bounds.isBottom = true) : (p.join q).bounds = p.bounds := by
  rw [join, recoverImpossible (consistent.agree ▸ impossible) _ p.bounds, UpperBounds.join,
    if_neg (by simp [possible]), if_pos impossible, consistent.compact.impossible impossible]
  rfl

theorem orderedJoinExact (left : p.Consistent) (right : q.Consistent) (first : p.bounds.Ordered)
    (second : q.bounds.Ordered) : (p.join q).bounds.Ordered ↔ Composes p q := by
  cases possible : p.bounds.isBottom with
  | true =>
    rw [joinImpossibleLeft left possible]
    refine iff_of_true second fun x y z shared => ?_
    rcases shared with ⟨recorded, _⟩ | ⟨_, entails⟩
    · exact (notEntailsImpossible left possible (.inl recorded)).elim
    · exact (notEntailsImpossible left possible entails).elim
  | false =>
  cases possible' : q.bounds.isBottom with
  | true =>
    rw [joinImpossibleRight right possible possible']
    refine iff_of_true first fun x y z shared => ?_
    rcases shared with ⟨_, entails⟩ | ⟨recorded, _⟩
    · exact (notEntailsImpossible right possible' entails).elim
    · exact (notEntailsImpossible right possible' (.inl recorded)).elim
  | false =>
    have edges {x y : Identifier} := memGetJoin (x := x) (y := y) possible possible'
    constructor
    · intro order x y z shared shared'
      exact edges.mp (order.transitive x y z (edges.mpr shared) (edges.mpr shared'))
    · intro composes
      refine ⟨fun x loop => ?_, fun x y z edge next => ?_⟩
      · rcases edges.mp loop with ⟨recorded, _⟩ | ⟨recorded, _⟩
        · exact first.irreflexive x recorded
        · exact second.irreflexive x recorded
      · exact edges.mpr (composes x y z (edges.mp edge) (edges.mp next))

/-- Runs keep the bounds in a strict order exactly if the shared bounds of every two pentagons that
they join compose. -/
theorem strictOrderExact (allowed : Pentagon → Pentagon → Prop) :
    (∀ p, ReachableBy allowed p → p.bounds.Ordered) ↔
      ∀ p q, ReachableBy allowed p → ReachableBy allowed q → allowed p q → Composes p q := by
  constructor
  · intro ordered p q left right fits
    exact (orderedJoinExact left.consistent right.consistent (ordered p left)
      (ordered q right)).mp (ordered _ (.join fits left right))
  · intro composes p reachable
    induction reachable with
    | top => exact UpperBounds.orderedTop
    | assign ok _ order => exact orderedAssign order ok
    | assume ok _ order => exact orderedAssume order ok
    | forget id _ order => exact order.forgetIf _
    | join fits left right first second =>
      exact (orderedJoinExact left.consistent right.consistent first second).mpr
        (composes _ _ left right fits)
    | meet => exact orderedReduced (UpperBounds.orderedMeet _ _)
    | widen _ _ first second => exact first.widen second
    | narrow _ _ first second => exact orderedReduced (first.narrow second)

/-- One operand records `x < y` and has `y < z` by its intervals, the other has `x < y` by its
intervals and records `y < z`. Their join records both bounds and not `x < z`, so that the guard
`z < x` puts `y` above itself and is not refuted. -/
theorem joinBreaksOrder :
    let x := Identifier.visible "x"
    let y := Identifier.visible "y"
    let z := Identifier.visible "z"
    ∃ p, Reachable p ∧ y ∈ p.bounds.get x ∧ z ∈ p.bounds.get y ∧ z ∉ p.bounds.get x ∧
      (p.meet top).same p = false ∧
      ∃ q, p.assume (.binary .lt (.identifier z) (.identifier x)) = .ok q ∧
        q.isBottom = false ∧ y ∈ q.bounds.get y := by
  intro x y z
  let below (i j : Identifier) := Expr.binary .lt (.identifier i) (.identifier j)
  let equals (i : Identifier) (n : Int) :=
    Expr.binary .eq (.identifier i) (.constant (.number (.int n)))
  obtain ⟨a, left, check⟩ : ∃ a, top.assumeAll [below x y, equals y 0, equals z 1] = .ok a ∧
      ((top.assumeAll [below y z, equals x 0, equals y 1]).toOption.any fun b =>
        decide (y ∈ (a.join b).bounds.get x ∧ z ∈ (a.join b).bounds.get y ∧
          z ∉ (a.join b).bounds.get x ∧ ((a.join b).meet top).same (a.join b) = false ∧
          ((a.join b).assume (below z x)).toOption.any (fun q =>
            decide (q.isBottom = false ∧ y ∈ q.bounds.get y)) = true)) = true :=
    yields (by decide +kernel)
  obtain ⟨b, right, first, second, missing, changed, cycle⟩ := yields check
  have reachable : Reachable (a.join b) :=
    .join trivial (ReachableBy.top.assumeAll left) (ReachableBy.top.assumeAll right)
  exact ⟨a.join b, reachable, first, second, missing, changed, yields cycle⟩

end Abstraction.Pentagon
