import Abstraction.Proofs.Interval.Guard
import Abstraction.Proofs.Number.Limits

/-! The order of integral intervals is the inclusion of their members. What carries it is that either end
of an interval is a member, or the members go past every integer on that side. -/
namespace Abstraction

theorem Number.leAntisymm {a b : Number} (left : a.Integral) (right : b.Integral) (below : a ≤ b)
    (above : b ≤ a) : a = b := by
  cases a <;> cases b <;> simp_all [Integral]
  omega

namespace Interval
open Number (LimitOf)

variable {op : Operator} {a b c : Interval} {lo hi bound : Number} {proper : Proper lo hi} {n : Int}

theorem lowestMember (left : lo.Integral) (right : hi.Integral) (proper : Proper lo hi) :
    (∃ m, lo = .int m ∧ m ∈ range lo hi proper) ∨
      (lo = .negInf ∧ ∀ k, ∃ n ∈ range lo hi proper, n < k) := by
  match lo, hi with
  | .int m, _ => exact .inl ⟨m, rfl, memRange.mpr ⟨Number.leRefl _, proper.1⟩⟩
  | .negInf, .int m =>
    refine .inr ⟨rfl, fun k => ⟨min m (k - 1), memRange.mpr ⟨Number.negInfLe _, ?_⟩, by omega⟩⟩
    exact Number.intLe.mpr (by omega)
  | .negInf, .posInf => exact .inr ⟨rfl, fun k => ⟨k - 1, memWhole _, by omega⟩⟩
  | .negInf, .negInf => exact (proper.2.2 rfl).elim
  | .posInf, _ => exact (proper.2.1 rfl).elim

theorem highestMember (left : lo.Integral) (right : hi.Integral) (proper : Proper lo hi) :
    (∃ m, hi = .int m ∧ m ∈ range lo hi proper) ∨
      (hi = .posInf ∧ ∀ k, ∃ n ∈ range lo hi proper, k < n) := by
  match lo, hi with
  | _, .int m => exact .inl ⟨m, rfl, memRange.mpr ⟨proper.1, Number.leRefl _⟩⟩
  | .int m, .posInf =>
    refine .inr ⟨rfl, fun k => ⟨max m (k + 1), memRange.mpr ⟨?_, Number.lePosInf _⟩, by omega⟩⟩
    exact Number.intLe.mpr (by omega)
  | .negInf, .posInf => exact .inr ⟨rfl, fun k => ⟨k + 1, memWhole _, by omega⟩⟩
  | .posInf, .posInf => exact (proper.2.1 rfl).elim
  | _, .negInf => exact (proper.2.2 rfl).elim

theorem rangeLimits (integral : (range lo hi proper).Integral) :
    LimitOf (· ∈ range lo hi proper) lo ∧ LimitOf (· ∈ range lo hi proper) hi := by
  constructor
  · rcases lowestMember integral.1 integral.2 proper with ⟨m, rfl, inside⟩ | ⟨rfl, unbounded⟩
    · exact inside
    · exact unbounded
  · rcases highestMember integral.1 integral.2 proper with ⟨m, rfl, inside⟩ | ⟨rfl, unbounded⟩
    · exact inside
    · exact unbounded

theorem belowLowerEnd (left : lo.Integral) (right : hi.Integral) (integral : bound.Integral)
    (below : ∀ n, n ∈ range lo hi proper → bound ≤ .int n) : bound ≤ lo :=
  Number.belowLimit (rangeLimits ⟨left, right⟩).1 proper.2.1 integral below

theorem aboveUpperEnd (left : lo.Integral) (right : hi.Integral) (integral : bound.Integral)
    (above : ∀ n, n ∈ range lo hi proper → .int n ≤ bound) : hi ≤ bound :=
  Number.aboveLimit (rangeLimits ⟨left, right⟩).2 proper.2.2 integral above

theorem leqComplete (left : a.Integral) (right : b.Integral) (included : ∀ n, n ∈ a → n ∈ b) :
    a.leq b = true := by
  cases a with
  | empty => rfl
  | range lo hi proper =>
  cases b with
  | empty =>
    obtain ⟨n, inside⟩ := memberIntegral left rfl
    exact (notMemEmpty n (included n inside)).elim
  | range low high _ =>
    have lower := belowLowerEnd left.1 left.2 right.1 fun n inside =>
      (memRange.mp (included n inside)).1
    have upper := aboveUpperEnd left.1 left.2 right.2 fun n inside =>
      (memRange.mp (included n inside)).2
    exact decide_eq_true ⟨lower, upper⟩

theorem ext (left : a.Integral) (right : b.Integral) (same : ∀ n, n ∈ a ↔ n ∈ b) : a = b := by
  have below := leqComplete left right fun n => (same n).mp
  have above := leqComplete right left fun n => (same n).mpr
  cases a with
  | empty =>
    cases b with
    | empty => rfl
    | range => contradiction
  | range lo hi _ =>
  cases b with
  | empty => contradiction
  | range low high _ =>
    simp only [leq, decide_eq_true_eq] at below above
    obtain rfl := Number.leAntisymm left.1 right.1 above.1 below.1
    obtain rfl := Number.leAntisymm left.2 right.2 below.2 above.2
    rfl

theorem joinLeast (upper : c.Integral) (left : a.Integral) (right : b.Integral)
    (first : ∀ n, n ∈ a → n ∈ c) (second : ∀ n, n ∈ b → n ∈ c) (inside : n ∈ a.join b) : n ∈ c := by
  cases a with
  | empty => exact second n inside
  | range lo hi _ =>
  cases b with
  | empty => exact first n inside
  | range low high _ =>
    have below := leqComplete left upper first
    have above := leqComplete right upper second
    rw [join, memOfBounds (Number.integralLeast left.1 right.1)
      (Number.integralGreatest left.2 right.2)] at inside
    cases c with
    | empty => contradiction
    | range least greatest _ =>
      simp only [leq, decide_eq_true_eq] at below above
      exact memRange.mpr ⟨(Number.leLeast below.1 above.1).trans inside.1,
        inside.2.trans (Number.greatestLe below.2 above.2)⟩

theorem narrowAbove (left : a.Integral) (right : b.Integral) (first : n ∈ a) (second : n ∈ b) :
    n ∈ a.narrow b := by
  cases a with
  | empty => exact first
  | range lo hi _ =>
  cases b with
  | empty => exact second
  | range low high _ =>
    rw [narrow, memOfBounds (integralEither right.1 left.1) (integralEither right.2 left.2)]
    rw [memRange] at first second
    constructor
    · split
      · exact second.1
      · exact first.1
    · split
      · exact second.2
      · exact first.2

theorem narrowBelow (left : a.Integral) (right : b.Integral) (inside : n ∈ a.narrow b) : n ∈ a := by
  cases a with
  | empty => exact inside
  | range lo hi _ =>
  cases b with
  | empty => exact (notMemEmpty n inside).elim
  | range low high _ =>
    rw [narrow, memOfBounds (integralEither right.1 left.1) (integralEither right.2 left.2)]
      at inside
    obtain ⟨lower, upper⟩ := inside
    refine memRange.mpr ⟨?_, ?_⟩
    · split at lower
      · rename_i infinite; rw [infinite]; exact Number.negInfLe _
      · exact lower
    · split at upper
      · rename_i infinite; rw [infinite]; exact Number.lePosInf _
      · exact upper

theorem narrowWhole (integral : b.Integral) : whole.narrow b = b := by
  cases b with
  | empty => rfl
  | range lo hi _ =>
    refine ext (integralNarrow integralWhole integral) integral fun n => ?_
    change n ∈ ofBounds lo hi ↔ _
    rw [memOfBounds integral.1 integral.2, memRange]

theorem isWholeNarrow (left : a.Integral) (right : b.Integral) (included : ∀ n, n ∈ b → n ∈ a) :
    (a.narrow b).isWhole = true ↔ b.isWhole = true := by
  rw [isWholeExact, isWholeExact]
  constructor
  · intro all
    -- The result is below the first operand, so that is unrestricted too and narrows to the second.
    have above : a = whole := ext left integralWhole fun n =>
      iff_of_true (narrowBelow left right (all ▸ memWhole n)) (memWhole n)
    rwa [above, narrowWhole right] at all
  · intro all
    refine ext (integralNarrow left right) integralWhole fun n => iff_of_true ?_ (memWhole n)
    have inside : n ∈ b := all ▸ memWhole n
    exact narrowAbove left right (included n inside) inside

theorem refineNeBelow (integral : a.Integral) (inside : n ∈ a.refineNe b) : n ∈ a := by
  unfold refineNe at inside
  split at inside
  · rename_i lo hi _ m _
    split at inside
    · rename_i first
      subst first
      rw [memOfBounds (Number.integralInt _) integral.2, Number.intLe] at inside
      exact memRange.mpr ⟨Number.intLe.mpr (by omega), inside.2⟩
    split at inside
    · rename_i _ last
      subst last
      rw [memOfBounds integral.1 (Number.integralInt _), Number.intLe] at inside
      exact memRange.mpr ⟨inside.1, Number.intLe.mpr (by omega)⟩
    · exact inside
  · exact inside

theorem refineBelow (left : a.Integral) (right : b.Integral) :
    (n ∈ (refine op a b).1 → n ∈ a) ∧ (n ∈ (refine op a b).2 → n ∈ b) := by
  cases a with
  | empty => exact ⟨id, fun inside => (notMemEmpty n inside).elim⟩
  | range lo hi _ =>
  cases b with
  | empty => exact ⟨fun inside => (notMemEmpty n inside).elim, id⟩
  | range low high _ =>
    cases op
    case eq =>
      exact ⟨fun inside => ((memMeet left right).mp inside).1,
        fun inside => ((memMeet left right).mp inside).2⟩
    case ne => exact ⟨refineNeBelow left, refineNeBelow right⟩
    case lt =>
      exact ⟨fun inside => ((memRefineLt left right.2).mp inside).1,
        fun inside => ((memRefineGt right left.1).mp inside).1⟩
    case le =>
      exact ⟨fun inside => ((memRefineLe left right.2).mp inside).1,
        fun inside => ((memRefineGe right left.1).mp inside).1⟩
    case gt =>
      exact ⟨fun inside => ((memRefineGt left right.1).mp inside).1,
        fun inside => ((memRefineLt right left.2).mp inside).1⟩
    case ge =>
      exact ⟨fun inside => ((memRefineGe left right.1).mp inside).1,
        fun inside => ((memRefineLe right left.2).mp inside).1⟩
    all_goals exact ⟨id, id⟩

instance : ExactDomain Interval where
  ext := ext
  leqComplete := leqComplete
  memMeet left right := memMeet left right
  joinLeast upper left right first second _ inside := joinLeast upper left right first second inside
  narrowAbove left right _ first second := narrowAbove left right first second
  narrowBelow left right _ _ inside := narrowBelow left right inside
  refineBelow left right := refineBelow left right

end Interval
end Abstraction
