import Abstraction.Proofs.Interval.Monotone

/-! What a guard leaves of an operand is the smallest interval over its members that have a partner in
the other operand. It is the smallest one in the order of all intervals, also of those whose ends
are no integers, and it is empty on either side exactly if no two members satisfy the guard. -/
namespace Abstraction

theorem Operator.exchangeHolds {op : Operator} (comparison : op.isComparison = true) (v w : Int) :
    op.exchange.holds w v = op.holds v w := by
  cases op <;> simp [isComparison, exchange, holds, eq_comm] at comparison ⊢

namespace Number

theorem doubleBetween (x : Double) :
    ∃ m n : Int, Number.int m < .double x ∧ .double x < Number.int n := by
  have one := onePositive
  refine ⟨-(|x.signed| + 1), |x.signed| + 1, ?_, ?_⟩
  · simp only [← notLe, leIff, le, decide_eq_true_eq]
    nlinarith [neg_abs_le x.signed, abs_nonneg x.signed]
  · simp only [← notLe, leIff, le, decide_eq_true_eq]
    nlinarith [le_abs_self x.signed, abs_nonneg x.signed]

theorem eqNegInf {a : Number} (below : ∀ k : Int, a ≤ .int k) : a = .negInf := by
  cases a with
  | negInf => rfl
  | int m =>
    have order := intLe.mp (below (m - 1))
    omega
  | double x =>
    obtain ⟨m, _, less, _⟩ := doubleBetween x
    exact (less (below m)).elim
  | posInf => exact (posInfLeInt (below 0)).elim

theorem eqPosInf {a : Number} (above : ∀ k : Int, .int k ≤ a) : a = .posInf := by
  cases a with
  | negInf => exact (intLeNegInf (above 0)).elim
  | int m =>
    have order := intLe.mp (above (m + 1))
    omega
  | double x =>
    obtain ⟨_, n, _, less⟩ := doubleBetween x
    exact (less (above n)).elim
  | posInf => rfl

end Number

namespace Interval

variable {op : Operator} {s : Int → Prop} {a b c : Interval}

/- Only the smaller interval has to be integral: an end past all its members is infinite, whatever kind
of number an end may be. -/
theorem leqOfIncluded (integral : a.Integral) (included : ∀ n, n ∈ a → n ∈ c) :
    a.leq c = true := by
  cases a with
  | empty => rfl
  | range lo hi proper =>
  cases c with
  | empty =>
    obtain ⟨n, inside⟩ := memberIntegral integral rfl
    exact (notMemEmpty n (included n inside)).elim
  | range low high _ =>
    have ends (n : Int) (inside : n ∈ range lo hi proper) := memRange.mp (included n inside)
    have lower : low ≤ lo := by
      rcases lowestMember integral.1 integral.2 proper with ⟨m, rfl, inside⟩ | ⟨rfl, unbounded⟩
      · exact (ends m inside).1
      · refine (Number.eqNegInf fun k => ?_).le
        obtain ⟨n, inside, less⟩ := unbounded k
        exact (ends n inside).1.trans (Number.intLe.mpr less.le)
    have upper : hi ≤ high := by
      rcases highestMember integral.1 integral.2 proper with ⟨m, rfl, inside⟩ | ⟨rfl, unbounded⟩
      · exact (ends m inside).2
      · refine (Number.eqPosInf fun k => ?_).ge
        obtain ⟨n, inside, less⟩ := unbounded k
        exact (Number.intLe.mpr less.le).trans (ends n inside).2
    exact decide_eq_true ⟨lower, upper⟩

structure IsSmallest (s : Int → Prop) (a : Interval) : Prop where
  encloses : ∀ n, s n → n ∈ a
  least : ∀ c : Interval, (∀ n, s n → n ∈ c) → a.leq c = true

theorem IsSmallest.isEmptyExact (smallest : IsSmallest s a) : a.isEmpty = true ↔ ∀ n, ¬ s n := by
  cases a with
  | empty => exact iff_of_true rfl fun n member => notMemEmpty n (smallest.encloses n member)
  | range lo hi proper =>
    refine iff_of_false Bool.false_ne_true fun absent => ?_
    have below := smallest.least .empty fun n member => (absent n member).elim
    contradiction

theorem refineSmallest (comparison : op.isComparison = true) (left : a.Integral)
    (right : b.Integral) :
    IsSmallest (fun x => x ∈ a ∧ ∃ y ∈ b, op.holds x y = true) (refine op a b).1 := by
  constructor
  · intro x known
    obtain ⟨first, y, second, holds⟩ := known
    exact (refineSound comparison left right first second holds).1
  · intro c included
    have partners (x : Int) (first : x ∈ a) (y : Int) (second : y ∈ b)
        (holds : op.holds x y = true) : x ∈ c := included x ⟨first, y, second, holds⟩
    exact leqOfIncluded (integralRefine left right).1 fun n inside =>
      refineLeast comparison left right partners inside

theorem refineExchanged (comparison : op.isComparison = true) (left : a.Integral)
    (right : b.Integral) : (refine op a b).2 = (refine op.exchange b a).1 :=
  ext (integralRefine left right).2 (integralRefine right left).1 fun _ =>
    refineExchange comparison left right

theorem refineSmallestRight (comparison : op.isComparison = true) (left : a.Integral)
    (right : b.Integral) :
    IsSmallest (fun y => y ∈ b ∧ ∃ x ∈ a, op.holds x y = true) (refine op a b).2 := by
  have exchanged := refineSmallest (Operator.exchangeComparison comparison) right left
  simp only [Operator.exchangeHolds comparison] at exchanged
  rwa [refineExchanged comparison left right]

theorem refinementSmallest (a b : Interval) (left : a.Integral) (right : b.Integral) (op : Operator)
    (comparison : op.isComparison = true) :
    IsSmallest (fun x => x ∈ a ∧ ∃ y ∈ b, op.holds x y = true) (refine op a b).1 ∧
    IsSmallest (fun y => y ∈ b ∧ ∃ x ∈ a, op.holds x y = true) (refine op a b).2 ∧
    ((refine op a b).1.isEmpty = true ↔ ∀ x ∈ a, ∀ y ∈ b, op.holds x y = false) ∧
    ((refine op a b).2.isEmpty = true ↔ ∀ x ∈ a, ∀ y ∈ b, op.holds x y = false) := by
  have first := refineSmallest comparison left right
  have second := refineSmallestRight comparison left right
  refine ⟨first, second, first.isEmptyExact.trans ?_, second.isEmptyExact.trans ?_⟩
  · simp
  · constructor
    · intro withoutPartner x left y right
      exact Bool.eq_false_iff.mpr fun holds => withoutPartner y ⟨right, x, left, holds⟩
    · intro never y known
      obtain ⟨right, x, left, holds⟩ := known
      rw [never x left y right] at holds
      contradiction

/- Of the integers from 0 to 5 only 4 and 5 are greater than one from 3 up, and of those only 3 and 4 are
less than one of these. Zero is not other than itself. -/
theorem refinementSmallestEnds :
    let few := ofBounds (.int 0) (.int 5)
    let large := atLeast (.int 3)
    let zero := const (.int 0)
    refine .gt few large = (ofBounds (.int 4) (.int 5), ofBounds (.int 3) (.int 4)) ∧
      (∀ c : Interval, (∀ x, (x ∈ few ∧ ∃ y ∈ large, y < x) → x ∈ c) →
        (ofBounds (.int 4) (.int 5)).leq c = true) ∧
      (∀ c : Interval, (∀ y, (y ∈ large ∧ ∃ x ∈ few, y < x) → y ∈ c) →
        (ofBounds (.int 3) (.int 4)).leq c = true) ∧
      refine .ne zero zero = (.empty, .empty) ∧ ∀ x ∈ zero, ∀ y ∈ zero, x = y := by
  intro few large zero
  have kept : refine .gt few large = (ofBounds (.int 4) (.int 5), ofBounds (.int 3) (.int 4)) := by
    decide +kernel
  obtain ⟨first, second, _⟩ := refinementSmallest few large (by decide +kernel) (by decide +kernel)
    .gt rfl
  obtain ⟨_, _, empty, _⟩ := refinementSmallest zero zero (by decide +kernel) (by decide +kernel)
    .ne rfl
  rw [kept] at first second
  simp only [Operator.holds, decide_eq_true_eq] at first second
  refine ⟨kept, first.least, second.least, by decide +kernel, fun x left y right => ?_⟩
  have same := empty.mp (by decide +kernel) x left y right
  simpa [Operator.holds] using same

end Interval
end Abstraction
