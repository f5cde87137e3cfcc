import Abstraction.Proofs.Pentagon.Laws

/-! Narrowing of pentagons. The halves are narrowed apart: the bounds of the first operand stay, and its
infinite ends come from the second. The result is below the first operand, but may lose the second:
a bound that the order did not ask for, because its upper identifier was unrestricted, counts
as soon as that identifier takes an interval. -/
namespace Abstraction.Pentagon
open ArithmeticFault (yields)

variable {p q : Pentagon} {x y : Identifier}

section
variable (left : p.Consistent) (right : q.Consistent) (possible : q.intervals.isBottom = false)
  (order : q.leq p = true)
include left right possible order

theorem narrowPossible : p.bounds.isBottom = false ∧ q.bounds.isBottom = false ∧
    (p.intervals.narrow q.intervals).isBottom = false := by
  have within := (leqExact.mp order).1
  have upper := ((Environment.leqPointwise possible).mp within).1
  exact ⟨left.agree.trans upper, right.agree.trans possible,
    Environment.narrowPossible left.occupied right.occupied possible within⟩

theorem narrowHalves :
    p.narrow q = ⟨p.bounds.narrow q.bounds, p.intervals.narrow q.intervals⟩ := by
  obtain ⟨first, second, after⟩ := narrowPossible left right possible order
  have bounds := (UpperBounds.memGetNarrow first second).1
  rw [narrow, reduced, if_neg (by simp [isBottom, bounds]), if_neg (by simp [bounds, after])]

theorem isWholeNarrow : ((p.intervals.narrow q.intervals).get y).isWhole = true ↔
    (q.intervals.get y).isWhole = true := by
  obtain ⟨_, _, after⟩ := narrowPossible left right possible order
  obtain ⟨upper, _, values⟩ := Environment.getInner Environment.liftsNarrow after
  have within := ((Environment.leqPointwise possible).mp (leqExact.mp order).1).2 y
  rw [Environment.narrow, values y]
  exact Interval.isWholeNarrow (Environment.regularGet left.occupied.regular upper y)
    (Environment.regularGet right.occupied.regular possible y)
    fun n => SoundDomain.leqSound within

theorem narrowLeqPossible : (p.narrow q).leq p = true := by
  obtain ⟨first, second, _⟩ := narrowPossible left right possible order
  rw [narrowHalves left right possible order]
  refine leqExact.mpr ⟨Environment.narrowLeq left.occupied right.occupied (leqExact.mp order).1,
    fun x y bound => ?_⟩
  rcases (UpperBounds.memGetNarrow first second).2 with kept | ⟨unbounded, _⟩
  · exact .recorded ((kept x y).mpr bound)
  · exact (unbounded x y bound).elim

theorem leqNarrowPossible : q.leq (p.narrow q) = true ↔
    ∀ x y, y ∈ p.bounds.get x → (q.intervals.get y).isWhole = false → q.Entails x y := by
  obtain ⟨first, second, _⟩ := narrowPossible left right possible order
  have within := Environment.leqNarrow left.occupied right.occupied (leqExact.mp order).1
  rw [narrowHalves left right possible order, leqExact, and_iff_right within]
  rcases (UpperBounds.memGetNarrow first second).2 with kept | ⟨unbounded, taken⟩
  · constructor
    · intro accepted x y bound restricted
      cases accepted x y ((kept x y).mpr bound) with
      | recorded bound => exact .inl bound
      | empty vacant =>
        have value : (q.intervals.get x).isEmpty = false := right.occupied.get possible x
        rw [value] at vacant
        contradiction
      | unrestricted whole =>
        rw [(isWholeNarrow left right possible order).mp whole] at restricted
        contradiction
      | proved below => exact .inr below
    · intro entailed x y bound
      cases restricted : (q.intervals.get y).isWhole with
      | true => exact .unrestricted ((isWholeNarrow left right possible order).mpr restricted)
      | false =>
        rcases entailed x y ((kept x y).mp bound) restricted with recorded | below
        · exact .recorded recorded
        · exact .proved below
  -- The larger pentagon records nothing, so the bounds are those of the smaller one.
  · exact iff_of_true (fun x y bound => .recorded ((taken x y).mp bound))
      fun x y bound => (unbounded x y bound).elim

end

theorem narrowImpossible (impossible : q.intervals.isBottom = true) (p : Pentagon) :
    (p.narrow q).intervals.isBottom = true := by
  have half : (p.intervals.narrow q.intervals).isBottom = true := by
    rw [Environment.narrow, if_pos (by simp [impossible])]
    rfl
  obtain collapsed | ⟨same, _⟩ :=
    reducedCases ⟨p.bounds.narrow q.bounds, p.intervals.narrow q.intervals⟩
  · rw [narrow, collapsed]; rfl
  · rw [narrow, same]; exact half

/-- Narrowing by a smaller pentagon goes down. It stays above the smaller one exactly where that one is
impossible or entails each bound of the larger one whose upper identifier it restricts. -/
theorem narrowBetweenExact (p q : Pentagon) (left : Reachable p) (right : Reachable q)
    (order : q.leq p = true) :
    (p.narrow q).leq p = true ∧
      (q.leq (p.narrow q) = true ↔ q.isBottom = true ∨
        ∀ x y, y ∈ p.bounds.get x → (q.intervals.get y).isWhole = false → q.Entails x y) := by
  have agree : q.isBottom = q.intervals.isBottom := by
    rw [isBottom, right.consistent.agree, Bool.and_self]
  rw [agree]
  cases possible : q.intervals.isBottom with
  | true =>
    exact ⟨leqImpossible (narrowImpossible possible p) p,
      iff_of_true (leqImpossible possible _) (.inl rfl)⟩
  | false =>
    rw [leqNarrowPossible left.consistent right.consistent possible order]
    exact ⟨narrowLeqPossible left.consistent right.consistent possible order, by simp⟩

theorem narrowBetweenProvedBound :
    let x := Identifier.visible "x"
    let y := Identifier.visible "y"
    ∃ p q : Pentagon, Reachable p ∧ Reachable q ∧ q.leq p = true ∧ (p.narrow q).leq p = true ∧
      q.leq (p.narrow q) = true ∧ y ∈ p.bounds.get x ∧ y ∉ q.bounds.get x ∧ q.Entails x y := by
  intro x y
  let less := Expr.binary .lt (.identifier x) (.identifier y)
  let equals (i : Identifier) (n : Int) :=
    Expr.binary .eq (.identifier i) (.constant (.number (.int n)))
  obtain ⟨p, okLeft, bound, check⟩ : ∃ p, top.assume less = .ok p ∧ y ∈ p.bounds.get x ∧
      ((top.assumeAll [equals x 0, equals y 1]).toOption.any fun q =>
        decide (q.leq p = true ∧ q.leq (p.narrow q) = true ∧ q.isBottom = false ∧
          y ∉ q.bounds.get x ∧ (q.intervals.get y).isWhole = false)) = true :=
    yields (by decide +kernel)
  obtain ⟨q, okRight, order, kept, possible, unrecorded, restricted⟩ := yields check
  have left : Reachable p := .assume okLeft .top
  have right : Reachable q := ReachableBy.top.assumeAll okRight
  obtain ⟨below, keptIff⟩ := narrowBetweenExact p q left right order
  have entailed := (keptIff.mp kept).resolve_left (by simp [possible])
  exact ⟨p, q, left, right, order, below, kept, bound, unrecorded, entailed x y bound restricted⟩

/-- Narrowing `x < y` by `y = 0` keeps the bound and takes the interval. The result is not above the
state with `y = 0`, which knows nothing about `x`. -/
theorem narrowLosesSmaller :
    ∃ p q : Pentagon, Reachable p ∧ Reachable q ∧ q.leq p = true ∧ q.leq (p.narrow q) = false := by
  let x := Expr.identifier (.visible "x")
  let y := Expr.identifier (.visible "y")
  let zero := Expr.constant (.number (.int 0))
  obtain ⟨p, okLeft, check⟩ : ∃ p, top.assume (.binary .lt x y) = .ok p ∧
      ((top.assume (.binary .eq y zero)).toOption.any fun q =>
        decide (q.leq p = true ∧ q.leq (p.narrow q) = false)) = true :=
    yields (by decide +kernel)
  obtain ⟨q, okRight, order, lost⟩ := yields check
  exact ⟨p, q, .assume okLeft .top, .assume okRight .top, order, lost⟩

end Abstraction.Pentagon
