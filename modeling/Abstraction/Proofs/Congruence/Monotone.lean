import Mathlib.Tactic.Linarith
import Abstraction.Proofs.Congruence.Exact

/-! Operations on congruence classes keep inclusion. An undecided comparison of classes is open: a class
with more than one member has members on either side of every integer. -/
namespace Abstraction.Congruence
open Residue (congruentExact dividesExact)

variable {op : Operator} {a a' b b' : Congruence} {m k : Nat} {r s d n : Int}

theorem someMember (full : a.isEmpty = false) : ∃ n, n ∈ a := by
  match a with
  | .coset m r _ => exact ⟨r, residueMember⟩

theorem memberPast (full : a.isEmpty = false) (several : a.constValue = none) (bound : Int) :
    (∃ x ∈ a, x < bound) ∧ ∃ x ∈ a, bound < x := by
  match a with
  | .coset m r reduced =>
    have period : 0 < (m : Int) := by
      rw [constValue] at several
      split at several
      · contradiction
      · omega
    constructor
    · exact ⟨r + m * -(|bound| + |r| + 1), stepMember _,
        by nlinarith [neg_abs_le bound, le_abs_self r, abs_nonneg bound, abs_nonneg r]⟩
    · exact ⟨r + m * (|bound| + |r| + 1), stepMember _,
        by nlinarith [le_abs_self bound, neg_abs_le r, abs_nonneg bound, abs_nonneg r]⟩

theorem openOrder (full : a.isEmpty = false) (full' : b.isEmpty = false)
    {test : Int → Int → Bool} (unknown : orderVerdict a b test = .unknown) (rising : Bool)
    (ascending : ∀ x y, x < y → test x y = rising)
    (descending : ∀ x y, y < x → test x y = !rising) (outcome : Bool) :
    ∃ x ∈ a, ∃ y ∈ b, test x y = outcome := by
  obtain ⟨x, first⟩ := someMember full
  obtain ⟨y, second⟩ := someMember full'
  have both : (∃ x ∈ a, ∃ y ∈ b, x < y) ∧ ∃ x ∈ a, ∃ y ∈ b, y < x := by
    cases only : a.constValue with
    | none =>
      obtain ⟨⟨low, lower, below⟩, high, upper, above⟩ := memberPast full only y
      exact ⟨⟨low, lower, y, second, below⟩, high, upper, y, second, above⟩
    | some v =>
    cases only' : b.constValue with
    | none =>
      obtain ⟨⟨low, lower, below⟩, high, upper, above⟩ := memberPast full' only' x
      exact ⟨⟨x, first, high, upper, above⟩, x, first, low, lower, below⟩
    | some w =>
      simp only [orderVerdict, only, only', Verdict.of] at unknown
      split at unknown <;> contradiction
  obtain ⟨⟨x, first, y, second, below⟩, z, third, w, fourth, above⟩ := both
  by_cases same : outcome = rising
  · exact ⟨x, first, y, second, (ascending x y below).trans same.symm⟩
  · exact ⟨z, third, w, fourth, (descending z w above).trans (Bool.eq_not.mpr same).symm⟩

theorem openEqual (full : a.isEmpty = false) (full' : b.isEmpty = false)
    (unknown : equalVerdict a b = .unknown) (outcome : Bool) :
    ∃ x ∈ a, ∃ y ∈ b, decide (x = y) = outcome := by
  unfold equalVerdict at unknown
  split at unknown <;> try contradiction
  rename_i meeting
  split at unknown <;> try contradiction
  rename_i several
  obtain ⟨n, inside⟩ := someMember (Bool.eq_false_iff.mpr meeting)
  obtain ⟨first, second⟩ := memMeet.mp inside
  cases outcome with
  | true => exact ⟨n, first, n, second, decide_eq_true rfl⟩
  | false =>
    by_contra never
    have equal (x : Int) (first : x ∈ a) (y : Int) (second : y ∈ b) : x = y := by
      by_contra apart
      exact never ⟨x, first, y, second, decide_eq_false apart⟩
    -- All members of both are one integer, and such classes are told to be equal.
    have same : a = const n := ext fun x => ⟨fun member => memConst.mpr (equal x member n second),
      fun member => memConst.mp member ▸ first⟩
    have same' : b = const n := ext fun y => ⟨fun member => memConst.mpr (equal n first y member).symm,
      fun member => memConst.mp member ▸ second⟩
    subst same same'
    exact several (by simp [constCoset, isConst, constValue, leqExact])

theorem openCompare (comparison : op.isComparison = true) (full : a.isEmpty = false)
    (full' : b.isEmpty = false) (unknown : compare op a b = .unknown) (outcome : Bool) :
    ∃ x ∈ a, ∃ y ∈ b, op.holds x y = outcome := by
  simp only [compare, full, full', Bool.or_self, Bool.false_eq_true, if_false] at unknown
  cases op <;> try contradiction
  case eq => exact openEqual full full' unknown outcome
  case ne =>
    obtain ⟨x, first, y, second, equal⟩ :=
      openEqual full full' (Verdict.negateUnknown.mp unknown) (!outcome)
    refine ⟨x, first, y, second, ?_⟩
    rw [Operator.holds, decide_not, equal, Bool.not_not]
  case lt | le =>
    exact openOrder full full' unknown true (fun _ _ less => decide_eq_true (by omega))
      (fun _ _ less => decide_eq_false (by omega)) outcome
  case gt | ge =>
    exact openOrder full full' unknown false (fun _ _ less => decide_eq_false (by omega))
      (fun _ _ less => decide_eq_true (by omega)) outcome

theorem sameDivisor (below : ∀ y, y ∈ b → y ∈ b') {y : Int} (inside : y ∈ b) :
    b'.constValue = none ∨ ∃ d, b = const d ∧ b' = const d := by
  cases only : b'.constValue with
  | none => exact .inl rfl
  | some d =>
    have single (n : Int) (member : n ∈ b') : n = y :=
      (memConstValue only member).trans (memConstValue only (below y inside)).symm
    refine .inr ⟨y, ext fun n => ?_, ext fun n => ?_⟩
    · exact ⟨fun member => memConst.mpr (single n (below n member)),
        fun member => memConst.mp member ▸ inside⟩
    · exact ⟨fun member => memConst.mpr (single n member),
        fun member => memConst.mp member ▸ below y inside⟩

theorem partsOfBelow {left : Reduced m r} {right : Reduced k s}
    (below : ∀ n, n ∈ coset m r left → n ∈ coset k s right) : (k : Int) ∣ m ∧ (k : Int) ∣ r - s := by
  have order := leqExact.mpr below
  simpa only [leq, Bool.and_eq_true, dividesExact, congruentExact] using order

theorem operandsOfMember (inside : n ∈ evalBinary op a b) : (∃ x, x ∈ a) ∧ ∃ y, y ∈ b := by
  match a, b with
  | .empty, _ => cases op <;> exact (notMemEmpty n inside).elim
  | .coset .., .empty => cases op <;> exact (notMemEmpty n inside).elim
  | .coset m r _, .coset k s _ => exact ⟨⟨r, residueMember⟩, s, residueMember⟩

theorem operandOfMember (inside : n ∈ evalUnary op a) : ∃ x, x ∈ a := by
  match a with
  | .empty => cases op <;> exact (notMemEmpty n inside).elim
  | .coset m r _ => exact ⟨r, residueMember⟩

theorem unknownDivisor (several : b.constValue = none) {x y : Int} (first : x ∈ a) (second : y ∈ b) :
    a.div b = whole ∧ a.rem b = whole := by
  obtain ⟨m, r, _, rfl, _⟩ := cosetOfMember first
  obtain ⟨k, d, _, rfl, _⟩ := cosetOfMember second
  have apart : k ≠ 0 := by simpa [constValue] using several
  exact ⟨if_pos apart, if_pos apart⟩

theorem zeroDivisor (a : Congruence) : a.div (const 0) = .empty ∧ a.rem (const 0) = .empty := by
  rw [constCoset]
  cases a <;> exact ⟨rfl, rfl⟩

/- A constant that divides the parts of the larger class divides those of the smaller one, so that the
smaller result is exact. -/
theorem divConstMono (below : ∀ x, x ∈ a → x ∈ a') (nonzero : d ≠ 0)
    (inside : n ∈ a.div (const d)) : n ∈ a'.div (const d) := by
  match a with
  | .coset m r _ =>
    obtain ⟨k, s, _, rfl, _⟩ := cosetOfMember (below r residueMember)
    obtain ⟨period, residue⟩ := partsOfBelow below
    by_cases exactly : d ∣ (k : Int) ∧ d ∣ s
    · have divides : d ∣ r := (dvd_sub_left exactly.2).mp (exactly.1.trans residue)
      obtain ⟨x, member, rfl⟩ := (divExact nonzero (exactly.1.trans period) divides).mp inside
      exact divSound (below x member) (memConst.mpr rfl) nonzero
    · rw [constCoset, div, if_neg (not_not.mpr rfl), if_neg nonzero,
        if_neg (by simpa [dividesExact] using exactly)]
      exact memWhole n

theorem remConstMono (below : ∀ x, x ∈ a → x ∈ a') (nonzero : d ≠ 0)
    (inside : n ∈ a.rem (const d)) : n ∈ a'.rem (const d) := by
  match a with
  | .coset m r _ =>
    obtain ⟨k, s, _, rfl, _⟩ := cosetOfMember (below r residueMember)
    obtain ⟨period, _⟩ := partsOfBelow below
    by_cases exactly : d ∣ (k : Int)
    · obtain ⟨x, member, rfl⟩ := (remExact nonzero (exactly.trans period)).mp inside
      exact remSound (below x member) (memConst.mpr rfl) nonzero
    · rw [constCoset, rem, if_neg (not_not.mpr rfl), if_neg nonzero,
        if_neg (by simpa [dividesExact] using exactly)]
      exact memWhole n

theorem quotientMono (first : ∀ x, x ∈ a → x ∈ a') (second : ∀ y, y ∈ b → y ∈ b') {x y : Int}
    (left : x ∈ a) (right : y ∈ b) :
    (n ∈ a.div b → n ∈ a'.div b') ∧ (n ∈ a.rem b → n ∈ a'.rem b') := by
  rcases sameDivisor second right with several | ⟨d, rfl, rfl⟩
  · obtain ⟨quotients, remainders⟩ := unknownDivisor several (first x left) (second y right)
    rw [quotients, remainders]
    exact ⟨fun _ => memWhole n, fun _ => memWhole n⟩
  by_cases zero : d = 0
  · subst zero
    obtain ⟨quotients, remainders⟩ := zeroDivisor a
    rw [quotients, remainders]
    exact ⟨fun inside => (notMemEmpty n inside).elim, fun inside => (notMemEmpty n inside).elim⟩
  exact ⟨divConstMono first zero, remConstMono first zero⟩

theorem evalUnaryMono (below : ∀ x, x ∈ a → x ∈ a') (inside : n ∈ evalUnary op a) :
    n ∈ evalUnary op a' := by
  obtain ⟨x, member⟩ := operandOfMember inside
  cases op
  case negate =>
    obtain ⟨x, member, rfl⟩ := negateExact.mp inside
    exact negateSound (below x member)
  all_goals exact evalUnarySound (below x member) trivial

theorem evalBinaryMono (first : ∀ x, x ∈ a → x ∈ a') (second : ∀ y, y ∈ b → y ∈ b')
    (inside : n ∈ evalBinary op a b) : n ∈ evalBinary op a' b' := by
  obtain ⟨⟨x, left⟩, y, right⟩ := operandsOfMember inside
  cases op
  case add =>
    obtain ⟨x, left, y, right, rfl⟩ := addExact.mp inside
    exact addSound (first x left) (second y right)
  case sub =>
    obtain ⟨x, left, y, right, rfl⟩ := subExact.mp inside
    exact subSound (first x left) (second y right)
  case mul => exact mulLeast (fun x left y right => mulSound (first x left) (second y right)) inside
  case div => exact (quotientMono first second left right).1 inside
  case rem => exact (quotientMono first second left right).2 inside
  all_goals exact evalBinarySound (first x left) (second y right) trivial

theorem refineMono (first : ∀ x, x ∈ a → x ∈ a') (second : ∀ y, y ∈ b → y ∈ b') :
    (n ∈ (refine op a b).1 → n ∈ (refine op a' b').1) ∧
      (n ∈ (refine op a b).2 → n ∈ (refine op a' b').2) := by
  cases op
  case eq =>
    have common (inside : n ∈ a.meet b) : n ∈ a'.meet b' :=
      memMeet.mpr ((memMeet.mp inside).imp (first n) (second n))
    exact ⟨common, common⟩
  all_goals exact ⟨first n, second n⟩

instance : MonotoneDomain Congruence where
  leqBottom _ := rfl
  unaryMono below _ inside := evalUnaryMono below.members inside
  binaryMono first second ok ok' _ inside := by
    cases ok
    cases ok'
    exact evalBinaryMono first.members second.members inside
  compareBottom impossible := if_pos (Bool.or_eq_true_iff.mpr impossible)
  compareOpen comparison _ _ full full' unknown outcome :=
    openCompare comparison full full' unknown outcome
  refineMono _ first second := refineMono first.members second.members

end Abstraction.Congruence
