import Abstraction.Proofs.Concrete
import Abstraction.Proofs.Number.Corners
import Abstraction.Proofs.Interval.Members

/-! Interval arithmetic encloses the arithmetic of the members: over integral operands the result is
integral, and it holds whatever the operator yields over a member of each operand. -/
namespace Abstraction.Interval
open ArithmeticFault (bindOk)

structure Encloses (op : Operator) (a b r : Interval) : Prop where
  integral : r.Integral
  member : ∀ x ∈ a, ∀ y ∈ b, ∀ n, op.Yields x y n → n ∈ r

variable {op : Operator} {a b r : Interval} {lo hi low high : Number} {p : Proper lo hi}
  {q : Proper low high}

theorem enclosesEmptyLeft (integral : r.Integral) : Encloses op .empty b r :=
  ⟨integral, fun x inside => (notMemEmpty x inside).elim⟩

theorem enclosesEmptyRight (integral : r.Integral) : Encloses op a .empty r :=
  ⟨integral, fun _ _ y inside => (notMemEmpty y inside).elim⟩

theorem enclosesWhole : Encloses op a b whole :=
  ⟨integralWhole, fun _ _ _ _ n _ => memWhole n⟩

theorem memConst (n : Int) : n ∈ const (.int n) :=
  (memOfBounds (Number.integralInt n) (Number.integralInt n)).mpr
    ⟨Number.leRefl _, Number.leRefl _⟩

theorem integralConst (n : Int) : (const (.int n)).Integral :=
  integralOfBounds (Number.integralInt n) (Number.integralInt n)

theorem addEncloses (left : a.Integral) (right : b.Integral) (ok : a.add b = .ok r) :
    Encloses .add a b r := by
  cases a with
  | empty => cases ok; exact enclosesEmptyLeft trivial
  | range lo hi p =>
    cases b with
    | empty => cases ok; exact enclosesEmptyRight trivial
    | range low high q =>
      obtain ⟨c, lower, ok⟩ := bindOk ok
      obtain ⟨d, upper, ok⟩ := bindOk ok
      cases ok
      have first := Number.integralAdd left.1 right.1 lower
      have second := Number.integralAdd left.2 right.2 upper
      refine ⟨integralOfBounds first second, ?_⟩
      intro x inLeft y inRight _ same
      subst same
      rw [memRange] at inLeft inRight
      rw [memOfBounds first second]
      exact ⟨Number.addLe inLeft.1 inRight.1 lower left.1 right.1,
        Number.leAdd inLeft.2 inRight.2 upper left.2 right.2⟩

theorem subEncloses (left : a.Integral) (right : b.Integral) (ok : a.sub b = .ok r) :
    Encloses .sub a b r := by
  cases a with
  | empty => cases ok; exact enclosesEmptyLeft trivial
  | range lo hi p =>
    cases b with
    | empty => cases ok; exact enclosesEmptyRight trivial
    | range low high q =>
      obtain ⟨c, lower, ok⟩ := bindOk ok
      obtain ⟨d, upper, ok⟩ := bindOk ok
      cases ok
      have least := Number.integralNeg right.1
      have greatest := Number.integralNeg right.2
      have first := Number.integralAdd left.1 greatest lower
      have second := Number.integralAdd left.2 least upper
      refine ⟨integralOfBounds first second, ?_⟩
      intro x inLeft y inRight _ same
      subst same
      rw [memRange] at inLeft inRight
      rw [memOfBounds first second, Int.sub_eq_add_neg]
      exact ⟨Number.addLe inLeft.1 (Number.negLeNeg inRight.2 trivial right.2) lower left.1 greatest,
        Number.leAdd inLeft.2 (Number.negLeNeg inRight.1 right.1 trivial) upper left.2 least⟩

theorem negateSound {x : Int} (integral : a.Integral) (inside : x ∈ a) : -x ∈ a.negate := by
  cases a with
  | empty => exact (notMemEmpty x inside).elim
  | range lo hi p =>
    rw [memRange] at inside
    rw [negate, memOfBounds (Number.integralNeg integral.2) (Number.integralNeg integral.1)]
    exact ⟨Number.negLeNeg inside.2 trivial integral.2, Number.negLeNeg inside.1 integral.1 trivial⟩

theorem integralNegate (integral : a.Integral) : a.negate.Integral := by
  cases a with
  | empty => trivial
  | range lo hi p =>
    exact integralOfBounds (Number.integralNeg integral.2) (Number.integralNeg integral.1)

theorem integralHull {c d e f : Number} (hc : c.Integral) (hd : d.Integral) (he : e.Integral)
    (hf : f.Integral) : (hull c d e f).Integral :=
  integralOfBounds (Number.integralLeast (Number.integralLeast (Number.integralLeast hc hd) he) hf)
    (Number.integralGreatest (Number.integralGreatest (Number.integralGreatest hc hd) he) hf)

theorem memHull {c d e f : Number} {n : Int} (hc : c.Integral) (hd : d.Integral) (he : e.Integral)
    (hf : f.Integral) {first second : Number} (between : Number.Between (.int n) first second)
    (above : Number.Between first c d) (below : Number.Between second e f) :
    n ∈ hull c d e f := by
  rw [hull, memOfBounds
    (Number.integralLeast (Number.integralLeast (Number.integralLeast hc hd) he) hf)
    (Number.integralGreatest (Number.integralGreatest (Number.integralGreatest hc hd) he) hf)]
  exact Number.cornersEnclose between above below

theorem memConstValue {n x : Int} (integral : a.Integral) (only : a.constValue = some n)
    (inside : x ∈ a) : x = n := by
  cases a with
  | empty => contradiction
  | range lo hi p =>
    rw [memRange] at inside
    simp only [constValue] at only
    split at only <;> try contradiction
    rename_i same
    subst same
    cases lo with
    | double d => exact integral.1.elim
    | int m =>
      simp only [Number.truncate, Option.some.injEq] at only
      simp only [Number.intLe] at inside
      omega
    | _ => contradiction

theorem mulEncloses (left : a.Integral) (right : b.Integral) (ok : a.mul b = .ok r) :
    Encloses .mul a b r := by
  cases a with
  | empty => cases ok; exact enclosesEmptyLeft trivial
  | range lo hi p =>
    cases b with
    | empty => cases ok; exact enclosesEmptyRight trivial
    | range low high q =>
      simp only [mul] at ok
      split at ok
      · rename_i zero
        cases ok
        refine ⟨integralConst 0, ?_⟩
        intro x inLeft y inRight _ same
        subst same
        rcases zero with zero | zero
        · rw [memConstValue left zero inLeft, Int.zero_mul]; exact memConst 0
        · rw [memConstValue right zero inRight, Int.mul_zero]; exact memConst 0
      · obtain ⟨ac, hac, ok⟩ := bindOk ok
        obtain ⟨ad, had, ok⟩ := bindOk ok
        obtain ⟨bc, hbc, ok⟩ := bindOk ok
        obtain ⟨bd, hbd, ok⟩ := bindOk ok
        cases ok
        rw [Number.mulExact left.1 right.1 hac, Number.mulExact left.1 right.2 had,
          Number.mulExact left.2 right.1 hbc, Number.mulExact left.2 right.2 hbd]
        have hac := Number.integralProduct left.1 right.1
        have had := Number.integralProduct left.1 right.2
        have hbc := Number.integralProduct left.2 right.1
        have hbd := Number.integralProduct left.2 right.2
        refine ⟨integralHull hac had hbc hbd, ?_⟩
        intro x inLeft y inRight _ same
        subst same
        rw [memRange] at inLeft inRight
        -- x * y lies between lo * y and hi * y, and each of them between two corners.
        have edges : Number.Between (.int (x * y)) (lo.product (.int y)) (hi.product (.int y)) := by
          have swapped :=
            Number.productBetween inLeft.1 inLeft.2 (Number.integralInt y) left.1 left.2
          rw [Number.productComm (Number.integralInt y) left.1,
            Number.productComm (Number.integralInt y) left.2] at swapped
          simpa [Number.product, Int.mul_comm] using swapped
        exact memHull hac had hbc hbd edges
          (Number.productBetween inRight.1 inRight.2 left.1 right.1 right.2)
          (Number.productBetween inRight.1 inRight.2 left.2 right.1 right.2)

theorem oneSign {proper : Proper low high} (apart : (range low high proper).contains (.int 0) = false) :
    Number.OneSign low high := by
  simp only [contains, decide_eq_false_iff_not, Classical.not_and_iff_not_or_not] at apart
  exact apart

theorem divEncloses (left : a.Integral) (right : b.Integral) (ok : a.div b = .ok r) :
    Encloses .div a b r := by
  cases a with
  | empty => cases ok; exact enclosesEmptyLeft trivial
  | range lo hi p =>
    cases b with
    | empty => cases ok; exact enclosesEmptyRight trivial
    | range low high q =>
      simp only [div] at ok
      split at ok
      · rename_i zero
        cases ok
        refine ⟨trivial, ?_⟩
        intro x inLeft y inRight _ known
        obtain ⟨nonzero, rfl⟩ := known
        exact (nonzero (memConstValue right zero inRight)).elim
      split at ok
      · cases ok; exact enclosesWhole
      rename_i apart
      have sign := oneSign (Bool.eq_false_iff.mpr apart)
      obtain ⟨ac, hac, ok⟩ := bindOk ok
      obtain ⟨ad, had, ok⟩ := bindOk ok
      obtain ⟨bc, hbc, ok⟩ := bindOk ok
      obtain ⟨bd, hbd, ok⟩ := bindOk ok
      cases ok
      rw [Number.floorDivExact left.1 right.1 hac, Number.floorDivExact left.1 right.2 had,
        Number.floorDivExact left.2 right.1 hbc, Number.floorDivExact left.2 right.2 hbd]
      have hac := Number.integralQuotient lo low
      have had := Number.integralQuotient lo high
      have hbc := Number.integralQuotient hi low
      have hbd := Number.integralQuotient hi high
      refine ⟨integralHull hac had hbc hbd, ?_⟩
      intro x inLeft y inRight _ known
      obtain ⟨nonzero, rfl⟩ := known
      rw [memRange] at inLeft inRight
      exact memHull hac had hbc hbd
        (Number.quotientBetweenDividends nonzero inLeft.1 inLeft.2 left.1 left.2)
        (Number.quotientBetweenDivisors sign inRight.1 inRight.2 left.1 right.1 right.2)
        (Number.quotientBetweenDivisors sign inRight.1 inRight.2 left.2 right.1 right.2)

theorem fmodOfNegative {x y : Int} (negative : y < 0) : y < x.fmod y ∧ x.fmod y ≤ 0 := by
  have positive : 0 < -y := by omega
  have nonneg := Int.fmod_nonneg_of_pos (-x) positive
  have small := Int.fmod_lt_of_pos (-x) positive
  rw [Int.neg_fmod_neg] at nonneg small
  omega

theorem remPositive (positive : .int 0 < low) (left : (range lo hi p).Integral)
    (right : (range low high q).Integral) :
    Encloses .rem (range lo hi p) (range low high q)
      (if .int 0 ≤ lo ∧ hi < low then range lo hi p else ofBounds (.int 0) high.pred) := by
  split
  · rename_i inner
    refine ⟨left, ?_⟩
    intro x inLeft y inRight _ known
    obtain ⟨_, rfl⟩ := known
    have outer := memRange.mp inLeft
    have divisor := memRange.mp inRight
    have nonneg : 0 ≤ x := Number.intLe.mp (inner.1.trans outer.1)
    have below : x < y := Number.intLt.mp
      (lt_of_le_of_lt outer.2 (lt_of_lt_of_le inner.2 divisor.1))
    rwa [Int.fmod_eq_of_lt nonneg below]
  · have least := Number.integralInt 0
    have greatest := Number.integralPred right.2
    refine ⟨integralOfBounds least greatest, ?_⟩
    intro x _ y inRight _ known
    obtain ⟨_, rfl⟩ := known
    have divisor := memRange.mp inRight
    have above : 0 < y := Number.intLt.mp (lt_of_lt_of_le positive divisor.1)
    rw [memOfBounds least greatest, Number.lePred right.2, Number.intLe]
    exact ⟨Int.fmod_nonneg_of_pos x above,
      lt_of_lt_of_le (Number.intLt.mpr (Int.fmod_lt_of_pos x above)) divisor.2⟩

theorem remNegative (negative : high < .int 0) (right : (range low high q).Integral) :
    Encloses .rem a (range low high q) (ofBounds low.succ (.int 0)) := by
  have least := Number.integralSucc right.1
  have greatest := Number.integralInt 0
  refine ⟨integralOfBounds least greatest, ?_⟩
  intro x _ y inRight _ known
  obtain ⟨_, rfl⟩ := known
  have divisor := memRange.mp inRight
  have below : y < 0 := Number.intLt.mp (lt_of_le_of_lt divisor.2 negative)
  obtain ⟨above, nonpos⟩ := fmodOfNegative (x := x) below
  rw [memOfBounds least greatest, Number.succLe right.1, Number.intLe]
  exact ⟨lt_of_le_of_lt divisor.1 (Number.intLt.mpr above), nonpos⟩

theorem remEncloses (left : a.Integral) (right : b.Integral) : Encloses .rem a b (a.rem b) := by
  cases a with
  | empty => exact enclosesEmptyLeft trivial
  | range lo hi p =>
    cases b with
    | empty => exact enclosesEmptyRight trivial
    | range low high q =>
      simp only [rem]
      split
      · rename_i zero
        refine ⟨trivial, ?_⟩
        intro x _ y inRight _ known
        obtain ⟨nonzero, rfl⟩ := known
        exact (nonzero (memConstValue right zero inRight)).elim
      split
      · exact enclosesWhole
      rename_i apart
      split
      · exact remPositive ‹_› left right
      · exact remNegative ((oneSign (Bool.eq_false_iff.mpr apart)).resolve_left ‹_›) right

theorem evalBinaryEncloses (left : a.Integral) (right : b.Integral)
    (ok : evalBinary op a b = .ok r) : Encloses op a b r := by
  have other (same : Except.ok (if a.isEmpty || b.isEmpty then .empty else whole) =
      (Except.ok r : Except ArithmeticFault Interval)) : Encloses op a b r := by
    cases same
    split
    · rename_i empty
      rcases Bool.or_eq_true_iff.mp empty with leftEmpty | rightEmpty
      · exact ⟨trivial, fun x inside => ((isEmptyExact left).mp leftEmpty x inside).elim⟩
      · exact ⟨trivial, fun _ _ y inside => ((isEmptyExact right).mp rightEmpty y inside).elim⟩
    · exact enclosesWhole
  cases op
  case add => exact addEncloses left right ok
  case sub => exact subEncloses left right ok
  case mul => exact mulEncloses left right ok
  case div => exact divEncloses left right ok
  case rem => cases ok; exact remEncloses left right
  all_goals exact other ok

theorem evalUnarySound {v n : Int} (integral : a.Integral) (inside : v ∈ a)
    (yields : op.YieldsOf v n) : n ∈ evalUnary op a := by
  have other : n ∈ (if a.isEmpty then a else whole) := by
    split
    · rename_i empty
      exact ((isEmptyExact integral).mp empty v inside).elim
    · exact memWhole n
  cases op
  case negate => cases yields; exact negateSound integral inside
  all_goals exact other

theorem integralEvalUnary (integral : a.Integral) : (evalUnary op a).Integral := by
  have other : (if a.isEmpty then a else whole).Integral := by
    split
    · exact integral
    · exact integralWhole
  cases op
  case negate => exact integralNegate integral
  all_goals exact other

theorem evalConstantSound {c : Constant} {n : Int} (known : ∀ m, c.integer = some m → n = m) :
    n ∈ evalConstant c := by
  unfold evalConstant
  split
  · rename_i m found
    rw [known m found]
    exact memConst m
  · exact memWhole n

theorem integralEvalConstant (c : Constant) : (evalConstant c).Integral := by
  unfold evalConstant
  split
  · exact integralConst _
  · exact integralWhole

end Abstraction.Interval
