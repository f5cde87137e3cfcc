import Abstraction.Value.Interval.Arithmetic
import Abstraction.Proofs.Number.Order

/-! The integers in an interval, and what the lattice operations do to them. An interval is integral if
its ends are integers or infinities; the laws are about those. -/
namespace Abstraction.Interval

instance : Membership Int Interval := ⟨fun a n => a.contains (.int n) = true⟩

instance (n : Int) (a : Interval) : Decidable (n ∈ a) :=
  inferInstanceAs (Decidable (a.contains (.int n) = true))

def Integral : Interval → Prop
  | .empty => True
  | .range lo hi _ => lo.Integral ∧ hi.Integral

instance : DecidablePred Integral
  | .empty => isTrue trivial
  | .range lo hi _ => inferInstanceAs (Decidable (lo.Integral ∧ hi.Integral))

variable {a b : Interval} {lo hi : Number} {n : Int}

theorem notMemEmpty (n : Int) : n ∉ Interval.empty := Bool.false_ne_true

theorem memRange {proper : Proper lo hi} :
    n ∈ range lo hi proper ↔ lo ≤ .int n ∧ .int n ≤ hi := by
  change contains _ _ = true ↔ _
  simp [contains]

theorem memWhole (n : Int) : n ∈ whole := memRange.mpr ⟨Number.negInfLe _, Number.lePosInf _⟩

theorem integralWhole : whole.Integral := ⟨trivial, trivial⟩

theorem properOfMember (low : lo ≤ .int n) (high : .int n ≤ hi) : Proper lo hi := by
  refine ⟨low.trans high, ?_, ?_⟩
  · intro same
    subst same
    exact Number.posInfLeInt low
  · intro same
    subst same
    exact Number.intLeNegInf high

theorem memOfBounds (left : lo.Integral) (right : hi.Integral) :
    n ∈ ofBounds lo hi ↔ lo ≤ .int n ∧ .int n ≤ hi := by
  unfold ofBounds
  rw [Number.normaliseIntegral left, Number.normaliseIntegral right]
  split
  · exact memRange
  · rename_i improper
    exact ⟨fun inside => (notMemEmpty n inside).elim,
      fun inside => (improper (properOfMember inside.1 inside.2)).elim⟩

theorem integralOfBounds (left : lo.Integral) (right : hi.Integral) :
    (ofBounds lo hi).Integral := by
  unfold ofBounds
  rw [Number.normaliseIntegral left, Number.normaliseIntegral right]
  split
  · exact ⟨left, right⟩
  · trivial

theorem memberIntegral (integral : a.Integral) (full : a.isEmpty = false) : ∃ n, n ∈ a := by
  match a, integral, full with
  | .range (.int m) _ proper, _, _ => exact ⟨m, memRange.mpr ⟨Number.leRefl _, proper.1⟩⟩
  | .range .negInf (.int m) _, _, _ => exact ⟨m, memRange.mpr ⟨Number.negInfLe _, Number.leRefl _⟩⟩
  | .range .negInf .posInf _, _, _ => exact ⟨0, memWhole 0⟩
  | .range .negInf .negInf proper, _, _ => exact (proper.2.2 rfl).elim
  | .range .posInf _ proper, _, _ => exact (proper.2.1 rfl).elim

theorem isEmptyExact (integral : a.Integral) : a.isEmpty = true ↔ ∀ n, n ∉ a := by
  constructor
  · intro empty n
    cases a with
    | empty => exact notMemEmpty n
    | range lo hi proper => contradiction
  · intro absent
    cases empty : a.isEmpty with
    | true => rfl
    | false =>
      obtain ⟨n, inside⟩ := memberIntegral integral empty
      exact (absent n inside).elim

theorem leqSound (order : a.leq b = true) (inside : n ∈ a) : n ∈ b := by
  cases a with
  | empty => exact (notMemEmpty n inside).elim
  | range lo hi proper =>
    cases b with
    | empty => contradiction
    | range low high _ =>
      simp only [leq, decide_eq_true_eq] at order
      rw [memRange] at inside ⊢
      exact ⟨order.1.trans inside.1, inside.2.trans order.2⟩

theorem memMeet (left : a.Integral) (right : b.Integral) : n ∈ a.meet b ↔ n ∈ a ∧ n ∈ b := by
  cases a with
  | empty => exact ⟨fun h => (notMemEmpty n h).elim, fun h => (notMemEmpty n h.1).elim⟩
  | range lo hi p =>
    cases b with
    | empty => exact ⟨fun h => (notMemEmpty n h).elim, fun h => (notMemEmpty n h.2).elim⟩
    | range low high q =>
      rw [meet, memOfBounds (Number.integralGreatest left.1 right.1)
        (Number.integralLeast left.2 right.2), memRange, memRange]
      constructor
      · intro known
        obtain ⟨below, above⟩ := known
        exact ⟨⟨(Number.greatestLeft _ _).trans below, above.trans (Number.leastLeft _ _)⟩,
          (Number.greatestRight _ _).trans below, above.trans (Number.leastRight _ _)⟩
      · intro known
        obtain ⟨first, second⟩ := known
        exact ⟨Number.greatestLe first.1 second.1, Number.leLeast first.2 second.2⟩

theorem integralMeet (left : a.Integral) (right : b.Integral) : (a.meet b).Integral := by
  cases a with
  | empty => trivial
  | range lo hi p =>
    cases b with
    | empty => trivial
    | range low high q =>
      exact integralOfBounds (Number.integralGreatest left.1 right.1)
        (Number.integralLeast left.2 right.2)

theorem joinSound (left : a.Integral) (right : b.Integral) (inside : n ∈ a ∨ n ∈ b) :
    n ∈ a.join b := by
  cases a with
  | empty => exact inside.resolve_left (notMemEmpty n)
  | range lo hi p =>
    cases b with
    | empty => exact inside.resolve_right (notMemEmpty n)
    | range low high q =>
      rw [join, memOfBounds (Number.integralLeast left.1 right.1)
        (Number.integralGreatest left.2 right.2)]
      rw [memRange, memRange] at inside
      rcases inside with inside | inside
      · exact ⟨(Number.leastLeft _ _).trans inside.1, inside.2.trans (Number.greatestLeft _ _)⟩
      · exact ⟨(Number.leastRight _ _).trans inside.1, inside.2.trans (Number.greatestRight _ _)⟩

theorem integralJoin (left : a.Integral) (right : b.Integral) : (a.join b).Integral := by
  cases a with
  | empty => exact right
  | range lo hi p =>
    cases b with
    | empty => exact left
    | range low high q =>
      exact integralOfBounds (Number.integralLeast left.1 right.1)
        (Number.integralGreatest left.2 right.2)

theorem integralEither {p : Prop} [Decidable p] {x y : Number} (left : x.Integral)
    (right : y.Integral) : (if p then x else y).Integral := by
  split <;> assumption

theorem widenSound (left : a.Integral) (right : b.Integral) (inside : n ∈ a ∨ n ∈ b) :
    n ∈ a.widen b := by
  cases a with
  | empty => exact inside.resolve_left (notMemEmpty n)
  | range lo hi p =>
    cases b with
    | empty => exact inside.resolve_right (notMemEmpty n)
    | range low high q =>
      rw [widen, memOfBounds (integralEither Number.integralNegInf left.1)
        (integralEither Number.integralPosInf left.2)]
      rw [memRange, memRange] at inside
      constructor
      · split
        · exact Number.negInfLe _
        · rename_i kept
          rcases inside with inside | inside
          · exact inside.1
          · exact (Number.notLt.mp kept).trans inside.1
      · split
        · exact Number.lePosInf _
        · rename_i kept
          rcases inside with inside | inside
          · exact inside.2
          · exact inside.2.trans (Number.notLt.mp kept)

theorem integralWiden (left : a.Integral) (right : b.Integral) : (a.widen b).Integral := by
  cases a with
  | empty => exact right
  | range lo hi p =>
    cases b with
    | empty => exact left
    | range low high q =>
      exact integralOfBounds (integralEither Number.integralNegInf left.1)
        (integralEither Number.integralPosInf left.2)

theorem integralNarrow (left : a.Integral) (right : b.Integral) : (a.narrow b).Integral := by
  cases a with
  | empty => trivial
  | range lo hi p =>
    cases b with
    | empty => trivial
    | range low high q =>
      exact integralOfBounds (integralEither right.1 left.1) (integralEither right.2 left.2)

end Abstraction.Interval
