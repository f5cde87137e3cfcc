import Abstraction.Value.Interval.Guard
import Abstraction.Proofs.Domain
import Abstraction.Proofs.Interval.Arithmetic

/-! Comparisons of intervals against comparisons of their members: a verdict admits every outcome that
members have, and refinement keeps every pair of members between which the comparison holds. -/
namespace Abstraction.Interval

variable {op : Operator} {a b : Interval} {lo hi low high : Number} {x y : Int}

theorem lessVerdictSound (left : lo ≤ .int x ∧ .int x ≤ hi) (right : low ≤ .int y ∧ .int y ≤ high) :
    (lessVerdict lo hi low high).Admits (decide (x < y)) := by
  unfold lessVerdict
  split
  · rename_i below
    have order := Number.intLt.mp (lt_of_le_of_lt left.2 (lt_of_lt_of_le below right.1))
    simp [Verdict.Admits, order]
  split
  · rename_i above
    have order := Number.intLe.mp ((right.2.trans above).trans left.1)
    simp [Verdict.Admits, order]
  · trivial

theorem atMostVerdictSound (left : lo ≤ .int x ∧ .int x ≤ hi)
    (right : low ≤ .int y ∧ .int y ≤ high) :
    (atMostVerdict lo hi low high).Admits (decide (x ≤ y)) := by
  unfold atMostVerdict
  split
  · rename_i below
    have order := Number.intLe.mp ((left.2.trans below).trans right.1)
    simp [Verdict.Admits, order]
  split
  · rename_i above
    have order := Number.intLt.mp (lt_of_le_of_lt right.2 (lt_of_lt_of_le above left.1))
    simp [Verdict.Admits, order]
  · trivial

theorem constMembers (integral : a.Integral) (only : a.isConst = true) (first : x ∈ a)
    (second : y ∈ a) : x = y := by
  cases a with
  | empty => exact (notMemEmpty x first).elim
  | range lo hi p =>
    simp only [isConst, decide_eq_true_eq] at only
    subst only
    rw [memRange] at first second
    have below := Number.intLe.mp (first.2.trans second.1)
    have above := Number.intLe.mp (second.2.trans first.1)
    omega

theorem equalVerdictSound (left : a.Integral) (right : b.Integral) (first : x ∈ a)
    (second : y ∈ b) : (equalVerdict a b).Admits (decide (x = y)) := by
  unfold equalVerdict
  split
  · rename_i disjoint
    have apart : x ≠ y := by
      intro same
      subst same
      exact (isEmptyExact (integralMeet left right)).mp disjoint x
        ((memMeet left right).mpr ⟨first, second⟩)
    simp [Verdict.Admits, apart]
  split
  · rename_i same
    simp only [Bool.and_eq_true, beq_iff_eq] at same
    obtain ⟨only, rfl⟩ := same
    simp [Verdict.Admits, constMembers left only first second]
  · trivial

theorem compareSound (comparison : op.isComparison = true) (left : a.Integral)
    (right : b.Integral) (first : x ∈ a) (second : y ∈ b) :
    (compare op a b).Admits (op.holds x y) := by
  cases a with
  | empty => exact (notMemEmpty x first).elim
  | range lo hi p =>
    cases b with
    | empty => exact (notMemEmpty y second).elim
    | range low high q =>
      have inLeft := memRange.mp first
      have inRight := memRange.mp second
      cases op <;> try contradiction
      case eq => exact equalVerdictSound left right first second
      case ne =>
        change (equalVerdict _ _).negate.Admits (decide (x ≠ y))
        rw [Verdict.admitsNegate, decide_not, Bool.not_not]
        exact equalVerdictSound left right first second
      case lt => exact lessVerdictSound inLeft inRight
      case le => exact atMostVerdictSound inLeft inRight
      case gt => exact lessVerdictSound inRight inLeft
      case ge => exact atMostVerdictSound inRight inLeft

theorem memRefineLt (integral : a.Integral) (bound : high.Integral) :
    x ∈ a.refineLt high ↔ x ∈ a ∧ .int x < high := by
  have ends := Number.integralPred bound
  rw [refineLt, memMeet integral (integralOfBounds Number.integralNegInf ends),
    memOfBounds Number.integralNegInf ends, Number.lePred bound]
  simp

theorem memRefineLe (integral : a.Integral) (bound : high.Integral) :
    x ∈ a.refineLe high ↔ x ∈ a ∧ .int x ≤ high := by
  rw [refineLe, memMeet integral (integralOfBounds Number.integralNegInf bound),
    memOfBounds Number.integralNegInf bound]
  simp

theorem memRefineGt (integral : a.Integral) (bound : low.Integral) :
    x ∈ a.refineGt low ↔ x ∈ a ∧ low < .int x := by
  have ends := Number.integralSucc bound
  rw [refineGt, memMeet integral (integralOfBounds ends Number.integralPosInf),
    memOfBounds ends Number.integralPosInf, Number.succLe bound]
  simp

theorem memRefineGe (integral : a.Integral) (bound : low.Integral) :
    x ∈ a.refineGe low ↔ x ∈ a ∧ low ≤ .int x := by
  rw [refineGe, memMeet integral (integralOfBounds bound Number.integralPosInf),
    memOfBounds bound Number.integralPosInf]
  simp

theorem refineNeSound (left : a.Integral) (right : b.Integral) (inside : x ∈ a) (other : y ∈ b)
    (apart : x ≠ y) : x ∈ a.refineNe b := by
  cases a with
  | empty => exact (notMemEmpty x inside).elim
  | range lo hi p =>
    cases only : b.constValue with
    | none => simpa only [refineNe, only] using inside
    | some n =>
      have same := memConstValue right only other
      subst same
      have ends := memRange.mp inside
      simp only [refineNe, only]
      split
      · rename_i first
        subst first
        rw [memOfBounds (Number.integralInt _) left.2, Number.intLe]
        have low := Number.intLe.mp ends.1
        exact ⟨by omega, ends.2⟩
      split
      · rename_i _ last
        subst last
        rw [memOfBounds left.1 (Number.integralInt _), Number.intLe]
        have high := Number.intLe.mp ends.2
        exact ⟨ends.1, by omega⟩
      · exact inside

theorem integralRefineNe (integral : a.Integral) : (a.refineNe b).Integral := by
  unfold refineNe
  split
  · split
    · exact integralOfBounds (Number.integralInt _) integral.2
    split
    · exact integralOfBounds integral.1 (Number.integralInt _)
    · exact integral
  · exact integral

theorem refineSound (comparison : op.isComparison = true) (left : a.Integral)
    (right : b.Integral) (first : x ∈ a) (second : y ∈ b) (holds : op.holds x y = true) :
    x ∈ (refine op a b).1 ∧ y ∈ (refine op a b).2 := by
  cases a with
  | empty => exact (notMemEmpty x first).elim
  | range lo hi p =>
    cases b with
    | empty => exact (notMemEmpty y second).elim
    | range low high q =>
      have inLeft := memRange.mp first
      have inRight := memRange.mp second
      cases op <;> simp only [Operator.isComparison, Bool.false_eq_true] at comparison <;>
        simp only [Operator.holds, decide_eq_true_eq] at holds
      case eq =>
        subst holds
        have common := (memMeet left right).mpr ⟨first, second⟩
        exact ⟨common, common⟩
      case ne =>
        exact ⟨refineNeSound left right first second holds,
          refineNeSound right left second first (Ne.symm holds)⟩
      case lt =>
        have order := Number.intLt.mpr holds
        exact ⟨(memRefineLt left right.2).mpr ⟨first, lt_of_lt_of_le order inRight.2⟩,
          (memRefineGt right left.1).mpr ⟨second, lt_of_le_of_lt inLeft.1 order⟩⟩
      case le =>
        have order := Number.intLe.mpr holds
        exact ⟨(memRefineLe left right.2).mpr ⟨first, order.trans inRight.2⟩,
          (memRefineGe right left.1).mpr ⟨second, inLeft.1.trans order⟩⟩
      case gt =>
        have order := Number.intLt.mpr holds
        exact ⟨(memRefineGt left right.1).mpr ⟨first, lt_of_le_of_lt inRight.1 order⟩,
          (memRefineLt right left.2).mpr ⟨second, lt_of_lt_of_le order inLeft.2⟩⟩
      case ge =>
        have order := Number.intLe.mpr holds
        exact ⟨(memRefineGe left right.1).mpr ⟨first, inRight.1.trans order⟩,
          (memRefineLe right left.2).mpr ⟨second, order.trans inLeft.2⟩⟩

theorem integralRefine (left : a.Integral) (right : b.Integral) :
    (refine op a b).1.Integral ∧ (refine op a b).2.Integral := by
  cases a with
  | empty => exact ⟨trivial, trivial⟩
  | range lo hi p =>
    cases b with
    | empty => exact ⟨trivial, trivial⟩
    | range low high q =>
      have below {n : Number} (bound : n.Integral) : (ofBounds .negInf n).Integral :=
        integralOfBounds Number.integralNegInf bound
      have above {n : Number} (bound : n.Integral) : (ofBounds n .posInf).Integral :=
        integralOfBounds bound Number.integralPosInf
      cases op
      case eq => exact ⟨integralMeet left right, integralMeet left right⟩
      case ne => exact ⟨integralRefineNe left, integralRefineNe right⟩
      case lt =>
        exact ⟨integralMeet left (below (Number.integralPred right.2)),
          integralMeet right (above (Number.integralSucc left.1))⟩
      case le => exact ⟨integralMeet left (below right.2), integralMeet right (above left.1)⟩
      case gt =>
        exact ⟨integralMeet left (above (Number.integralSucc right.1)),
          integralMeet right (below (Number.integralPred left.2))⟩
      case ge => exact ⟨integralMeet left (above right.1), integralMeet right (below left.2)⟩
      all_goals exact ⟨left, right⟩

instance : SoundDomain Interval where
  Regular := Integral
  memTop := memWhole
  regularTop := integralWhole
  isBottomExact := isEmptyExact
  leqSound order _ inside := leqSound order inside
  joinSound left right _ inside := joinSound left right inside
  widenSound left right _ inside := widenSound left right inside
  regularJoin := integralJoin
  regularMeet := integralMeet
  regularWiden := integralWiden
  regularNarrow := integralNarrow
  constantSound := evalConstantSound
  regularConstant := integralEvalConstant
  unarySound integral _ _ inside yields := evalUnarySound integral inside yields
  regularUnary := integralEvalUnary
  binarySound left right ok _ _ _ first second yields :=
    (evalBinaryEncloses left right ok).member _ first _ second _ yields
  regularBinary left right ok := (evalBinaryEncloses left right ok).integral
  compareSound comparison _ _ left right _ _ first second :=
    compareSound comparison left right first second
  refineSound comparison _ _ left right _ _ first second holds :=
    refineSound comparison left right first second holds
  regularRefine := integralRefine

instance : DecidablePred (SoundDomain.Regular : Interval → Prop) :=
  inferInstanceAs (DecidablePred Integral)

end Abstraction.Interval
