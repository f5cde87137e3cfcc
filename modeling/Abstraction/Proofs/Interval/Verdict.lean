import Abstraction.Proofs.Interval.Order

/-! An undecided comparison of integral intervals is open: some members satisfy it and some do not. So
the operands that refinement leaves, by the comparison or by its complement, are not empty. -/
namespace Abstraction.Interval

variable {op : Operator} {a b : Interval} {lo hi low high : Number}

theorem someLess (left : lo.Integral ∧ hi.Integral) (right : low.Integral ∧ high.Integral)
    (proper : Proper lo hi) (proper' : Proper low high) (crossing : ¬ high ≤ lo) :
    ∃ x ∈ range lo hi proper, ∃ y ∈ range low high proper', x < y := by
  by_contra never
  have order (y : Int) (second : y ∈ range low high proper') (x : Int)
      (first : x ∈ range lo hi proper) : .int y ≤ Number.int x :=
    Number.intLe.mpr (Int.not_lt.mp fun less => never ⟨x, first, y, second, less⟩)
  exact crossing (aboveUpperEnd right.1 right.2 left.1 fun y second =>
    belowLowerEnd left.1 left.2 trivial (order y second))

theorem someNotLess (left : lo.Integral ∧ hi.Integral) (right : low.Integral ∧ high.Integral)
    (proper : Proper lo hi) (proper' : Proper low high) (crossing : ¬ hi < low) :
    ∃ x ∈ range lo hi proper, ∃ y ∈ range low high proper', ¬ x < y := by
  rcases lowestMember right.1 right.2 proper' with ⟨m, rfl, lowest⟩ | ⟨_, unbounded⟩
  · by_contra never
    have below (x : Int) (first : x ∈ range lo hi proper) : .int x ≤ Number.int (m - 1) := by
      have less : x < m := by
        by_contra above
        exact never ⟨x, first, m, lowest, above⟩
      exact Number.intLe.mpr (by omega)
    have ends : hi ≤ .int (m - 1) := aboveUpperEnd left.1 left.2 (Number.integralInt _) below
    exact crossing (lt_of_le_of_lt ends (Number.intLt.mpr (by omega)))
  · obtain ⟨x, first⟩ := memberIntegral (a := range lo hi proper) left rfl
    obtain ⟨y, second, less⟩ := unbounded x
    exact ⟨x, first, y, second, by omega⟩

theorem openLess (left : lo.Integral ∧ hi.Integral) (right : low.Integral ∧ high.Integral)
    (proper : Proper lo hi) (proper' : Proper low high)
    (unknown : lessVerdict lo hi low high = .unknown) (outcome : Bool) :
    ∃ x ∈ range lo hi proper, ∃ y ∈ range low high proper', decide (x < y) = outcome := by
  unfold lessVerdict at unknown
  split at unknown <;> try contradiction
  rename_i notBelow
  split at unknown <;> try contradiction
  rename_i notAbove
  cases outcome with
  | true =>
    obtain ⟨x, first, y, second, less⟩ := someLess left right proper proper' notAbove
    exact ⟨x, first, y, second, decide_eq_true less⟩
  | false =>
    obtain ⟨x, first, y, second, notLess⟩ := someNotLess left right proper proper' notBelow
    exact ⟨x, first, y, second, decide_eq_false notLess⟩

theorem lessOfAtMost (unknown : atMostVerdict lo hi low high = .unknown) :
    lessVerdict low high lo hi = .unknown := by
  unfold atMostVerdict at unknown
  unfold lessVerdict
  split at unknown <;> try contradiction
  split at unknown <;> try contradiction
  rename_i notBelow notAbove
  rw [if_neg notAbove, if_neg notBelow]

theorem openAtMost (left : lo.Integral ∧ hi.Integral) (right : low.Integral ∧ high.Integral)
    (proper : Proper lo hi) (proper' : Proper low high)
    (unknown : atMostVerdict lo hi low high = .unknown) (outcome : Bool) :
    ∃ x ∈ range lo hi proper, ∃ y ∈ range low high proper', decide (x ≤ y) = outcome := by
  obtain ⟨y, second, x, first, less⟩ :=
    openLess right left proper' proper (lessOfAtMost unknown) (!outcome)
  refine ⟨x, first, y, second, ?_⟩
  cases outcome with
  | true => exact decide_eq_true (Int.not_lt.mp (of_decide_eq_false less))
  | false => exact decide_eq_false (Int.not_le.mpr (of_decide_eq_true less))

theorem endsOfSingle {n : Int} (integral : lo.Integral ∧ hi.Integral) (proper : Proper lo hi)
    (inside : n ∈ range lo hi proper) (single : ∀ x ∈ range lo hi proper, x = n) :
    lo = .int n ∧ hi = .int n := by
  have below : hi ≤ .int n := aboveUpperEnd integral.1 integral.2 trivial
    fun x inside => Number.intLe.mpr (single x inside).le
  have above : .int n ≤ lo := belowLowerEnd integral.1 integral.2 trivial
    fun x inside => Number.intLe.mpr (single x inside).ge
  have ends := memRange.mp inside
  exact ⟨Number.leAntisymm integral.1 trivial ends.1 above,
    Number.leAntisymm integral.2 trivial below ends.2⟩

theorem constOfEqualMembers (left : a.Integral) (right : b.Integral) (full : a.isEmpty = false)
    (full' : b.isEmpty = false) (equal : ∀ x ∈ a, ∀ y ∈ b, x = y) : a.isConst = true ∧ a = b := by
  obtain ⟨n, first⟩ := memberIntegral left full
  obtain ⟨m, second⟩ := memberIntegral right full'
  obtain rfl := equal n first m second
  have onlyLeft (x : Int) (inside : x ∈ a) : x = n := equal x inside n second
  have onlyRight (y : Int) (inside : y ∈ b) : y = n := (equal n first y inside).symm
  constructor
  · cases a with
    | empty => contradiction
    | range lo hi proper =>
      obtain ⟨rfl, rfl⟩ := endsOfSingle left proper first onlyLeft
      exact decide_eq_true rfl
  · refine ext left right fun x => ⟨fun inside => ?_, fun inside => ?_⟩
    · rwa [onlyLeft x inside]
    · rwa [onlyRight x inside]

theorem openEqual (left : a.Integral) (right : b.Integral) (full : a.isEmpty = false)
    (full' : b.isEmpty = false) (unknown : equalVerdict a b = .unknown) (outcome : Bool) :
    ∃ x ∈ a, ∃ y ∈ b, decide (x = y) = outcome := by
  unfold equalVerdict at unknown
  split at unknown <;> try contradiction
  rename_i meeting
  split at unknown <;> try contradiction
  rename_i several
  cases outcome with
  | true =>
    obtain ⟨n, inside⟩ := memberIntegral (integralMeet left right) (Bool.eq_false_iff.mpr meeting)
    obtain ⟨first, second⟩ := (memMeet left right).mp inside
    exact ⟨n, first, n, second, decide_eq_true rfl⟩
  | false =>
    by_contra never
    have equal (x : Int) (first : x ∈ a) (y : Int) (second : y ∈ b) : x = y := by
      by_contra apart
      exact never ⟨x, first, y, second, decide_eq_false apart⟩
    obtain ⟨only, same⟩ := constOfEqualMembers left right full full' equal
    exact several (Bool.and_eq_true_iff.mpr ⟨only, beq_of_eq same⟩)

theorem openCompare (comparison : op.isComparison = true) (left : a.Integral) (right : b.Integral)
    (full : a.isEmpty = false) (full' : b.isEmpty = false) (unknown : compare op a b = .unknown)
    (outcome : Bool) : ∃ x ∈ a, ∃ y ∈ b, op.holds x y = outcome := by
  cases a with
  | empty => contradiction
  | range lo hi proper =>
  cases b with
  | empty => contradiction
  | range low high proper' =>
  cases op <;> try contradiction
  case lt => exact openLess left right proper proper' unknown outcome
  case le => exact openAtMost left right proper proper' unknown outcome
  case gt =>
    obtain ⟨y, second, x, first, less⟩ := openLess right left proper' proper unknown outcome
    exact ⟨x, first, y, second, less⟩
  case ge =>
    obtain ⟨y, second, x, first, less⟩ := openAtMost right left proper' proper unknown outcome
    exact ⟨x, first, y, second, less⟩
  case eq => exact openEqual left right full full' unknown outcome
  case ne =>
    have undecided : equalVerdict (range lo hi proper) (range low high proper') = .unknown :=
      Verdict.negateUnknown.mp unknown
    obtain ⟨x, first, y, second, equal⟩ := openEqual left right full full' undecided (!outcome)
    refine ⟨x, first, y, second, ?_⟩
    calc Operator.holds .ne x y
        = !Operator.holds .eq x y :=
          Operator.complementHolds (show Operator.isComparison .eq = true from rfl) x y
      _ = outcome := by rw [Operator.holds, equal, Bool.not_not]

theorem refinedOpen (comparison : op.isComparison = true) (left : a.Integral) (right : b.Integral)
    (full : a.isEmpty = false) (full' : b.isEmpty = false) (unknown : compare op a b = .unknown)
    (negated : Bool) :
    (refine (if negated then op.complement else op) a b).1.isEmpty = false ∧
      (refine (if negated then op.complement else op) a b).2.isEmpty = false := by
  obtain ⟨x, first, y, second, outcome⟩ :=
    openCompare comparison left right full full' unknown (!negated)
  have holds : (if negated then op.complement else op).isComparison = true ∧
      (if negated then op.complement else op).holds x y = true := by
    rw [Operator.signedHolds comparison, outcome, Bool.xor_not_self]
    exact ⟨Operator.signedComparison comparison negated, rfl⟩
  obtain ⟨keptLeft, keptRight⟩ := refineSound holds.1 left right first second holds.2
  obtain ⟨regularLeft, regularRight⟩ := integralRefine left right
  exact ⟨Bool.eq_false_iff.mpr fun empty => (isEmptyExact regularLeft).mp empty x keptLeft,
    Bool.eq_false_iff.mpr fun empty => (isEmptyExact regularRight).mp empty y keptRight⟩

end Abstraction.Interval
