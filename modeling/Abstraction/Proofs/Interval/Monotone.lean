import Abstraction.Proofs.Interval.Hull
import Abstraction.Proofs.Interval.Verdict

/-! Operations on integral intervals keep inclusion. An operation that is the least interval over what the
members yield lies below every result that holds it, so also below the one over larger operands.
Remainders and what may divide by zero are no such hulls, and are compared end by end. -/
namespace Abstraction

theorem Operator.exchangeComparison {op : Operator} (comparison : op.isComparison = true) :
    op.exchange.isComparison = true := by
  cases op <;> simp [isComparison, exchange] at comparison ⊢

namespace Interval
open Operator (Results)
open SoundDomain (Included)

variable {op : Operator} {a a' b b' c r r' : Interval} {lo hi low high : Number}
  {p : Proper lo hi} {q : Proper low high} {m k n : Int}

theorem memBetween (first : m ∈ a) (second : k ∈ a) (below : m ≤ n) (above : n ≤ k) : n ∈ a := by
  cases a with
  | empty => exact first
  | range lo hi _ =>
    rw [memRange] at first second ⊢
    exact ⟨first.1.trans (Number.intLe.mpr below), (Number.intLe.mpr above).trans second.2⟩

/- An end that equals the excluded integer goes in, so an excluded integer that is left has neighbours
on both sides. -/
theorem refineNeInner (integral : a.Integral) (only : b.constValue = some n)
    (inside : n ∈ a.refineNe b) : n - 1 ∈ a ∧ n + 1 ∈ a := by
  cases a with
  | empty => exact (notMemEmpty n inside).elim
  | range lo hi _ =>
    simp only [refineNe, only] at inside
    split at inside
    · rw [memOfBounds (Number.integralInt _) integral.2, Number.intLe] at inside
      omega
    split at inside
    · rw [memOfBounds integral.1 (Number.integralInt _), Number.intLe] at inside
      omega
    rename_i first last
    rw [memRange] at inside
    have lower : lo ≤ .int (n - 1) := by
      cases lo <;> simp_all [Integral, Number.Integral]
      omega
    have upper : .int (n + 1) ≤ hi := by
      cases hi <;> simp_all [Integral, Number.Integral]
      omega
    exact ⟨memRange.mpr ⟨lower, (Number.intLe.mpr (by omega)).trans inside.2⟩,
      memRange.mpr ⟨inside.1.trans (Number.intLe.mpr (by omega)), upper⟩⟩

theorem constOfSingle (integral : b.Integral) (inside : n ∈ b) (single : ∀ y ∈ b, y = n) :
    b.constValue = some n := by
  cases b with
  | empty => exact (notMemEmpty n inside).elim
  | range low high proper =>
    obtain ⟨rfl, rfl⟩ := endsOfSingle integral proper inside single
    exact if_pos rfl

theorem refineNeLeast (left : a.Integral) (right : b.Integral) (full : b.isEmpty = false)
    (every : ∀ x ∈ a, ∀ y ∈ b, x ≠ y → x ∈ c) (inside : n ∈ a.refineNe b) : n ∈ c := by
  have member := refineNeBelow left inside
  by_cases other : ∃ y ∈ b, n ≠ y
  · obtain ⟨y, second, apart⟩ := other
    exact every n member y second apart
  -- All members of the other operand are the integer itself, so that its neighbours have to be inside.
  · obtain ⟨y, second⟩ := memberIntegral right full
    have single (y : Int) (second : y ∈ b) : y = n :=
      (not_not.mp fun apart => other ⟨y, second, apart⟩).symm
    obtain rfl := single y second
    obtain ⟨before, after⟩ := refineNeInner left (constOfSingle right second single) inside
    exact memBetween (every (y - 1) before y second (by omega))
      (every (y + 1) after y second (by omega)) (by omega) (by omega)

theorem refineLeast (comparison : op.isComparison = true) (left : a.Integral) (right : b.Integral)
    (every : ∀ x ∈ a, ∀ y ∈ b, op.holds x y = true → x ∈ c) (inside : n ∈ (refine op a b).1) :
    n ∈ c := by
  cases a with
  | empty => exact (notMemEmpty n inside).elim
  | range lo hi _ =>
  cases b with
  | empty => exact (notMemEmpty n inside).elim
  | range low high _ =>
  obtain ⟨lowest, highest⟩ := rangeLimits right
  cases op <;> try contradiction
  case eq =>
    obtain ⟨first, second⟩ := (memMeet left right).mp inside
    exact every n first n second (decide_eq_true rfl)
  case ne =>
    exact refineNeLeast left right rfl
      (fun x first y second apart => every x first y second (decide_eq_true apart)) inside
  case lt =>
    obtain ⟨first, below⟩ := (memRefineLt left right.2).mp inside
    obtain ⟨y, second, less⟩ := Number.memberAbove highest below
    exact every n first y second (decide_eq_true less)
  case gt =>
    obtain ⟨first, above⟩ := (memRefineGt left right.1).mp inside
    obtain ⟨y, second, less⟩ := Number.memberBelow lowest above
    exact every n first y second (decide_eq_true less)
  case le =>
    obtain ⟨first, below⟩ := (memRefineLe left right.2).mp inside
    obtain ⟨y, second, less⟩ := Number.memberAbove (n := n - 1) highest
      (lt_of_lt_of_le (Number.intLt.mpr (by omega)) below)
    exact every n first y second (decide_eq_true (by omega))
  case ge =>
    obtain ⟨first, above⟩ := (memRefineGe left right.1).mp inside
    obtain ⟨y, second, less⟩ := Number.memberBelow (n := n + 1) lowest
      (lt_of_le_of_lt above (Number.intLt.mpr (by omega)))
    exact every n first y second (decide_eq_true (by omega))

theorem refineExchange (comparison : op.isComparison = true) (left : a.Integral)
    (right : b.Integral) : n ∈ (refine op a b).2 ↔ n ∈ (refine op.exchange b a).1 := by
  cases a with
  | empty => cases b <;> exact Iff.rfl
  | range lo hi _ =>
  cases b with
  | empty => exact Iff.rfl
  | range low high _ =>
  cases op <;> try contradiction
  case eq => exact (memMeet left right).trans (and_comm.trans (memMeet right left).symm)
  all_goals exact Iff.rfl

theorem refineMono (comparison : op.isComparison = true) (first : Included a a')
    (second : Included b b') :
    (n ∈ (refine op a b).1 → n ∈ (refine op a' b').1) ∧
      (n ∈ (refine op a b).2 → n ∈ (refine op a' b').2) := by
  have kept {op : Operator} {a a' b b' : Interval} (comparison : op.isComparison = true)
      (first : Included a a') (second : Included b b') (inside : n ∈ (refine op a b).1) :
      n ∈ (refine op a' b').1 :=
    refineLeast comparison first.left second.left (fun x left y right holds =>
      (refineSound comparison first.right second.right (first.members x left)
        (second.members y right) holds).1) inside
  refine ⟨kept comparison first second, fun inside => ?_⟩
  rw [refineExchange comparison first.left second.left] at inside
  rw [refineExchange comparison first.right second.right]
  exact kept (Operator.exchangeComparison comparison) second first inside

theorem operandsOfMember (ok : evalBinary op a b = .ok r) (inside : n ∈ r) :
    a.isEmpty = false ∧ b.isEmpty = false := by
  match a, b with
  | .empty, _ => cases op <;> cases ok <;> exact (notMemEmpty n inside).elim
  | .range .., .empty => cases op <;> cases ok <;> exact (notMemEmpty n inside).elim
  | .range .., .range .. => exact ⟨rfl, rfl⟩

theorem zeroDivisor (a : Interval) (only : b.constValue = some 0) :
    a.div b = .ok .empty ∧ a.rem b = .empty := by
  match a, b with
  | .empty, _ => exact ⟨rfl, rfl⟩
  | .range .., .range .. => exact ⟨if_pos only, if_pos only⟩

theorem unknownDivisor (full : a.isEmpty = false) (several : b.constValue ≠ some 0) (zero : 0 ∈ b) :
    a.div b = .ok whole ∧ a.rem b = whole := by
  match a, b with
  | .range .., .range .. =>
    exact ⟨(if_neg several).trans (if_pos zero), (if_neg several).trans (if_pos zero)⟩

theorem remApart (right : (range low high q).Integral) (apart : 0 ∉ range low high q) :
    (range lo hi p).rem (range low high q) =
      if .int 0 < low then
        if .int 0 ≤ lo ∧ hi < low then range lo hi p else ofBounds (.int 0) high.pred
      else ofBounds low.succ (.int 0) := by
  obtain ⟨y, second⟩ := memberIntegral right rfl
  have several : (range low high q).constValue ≠ some 0 :=
    fun zero => apart (memConstValue right zero second ▸ second)
  exact (if_neg several).trans (if_neg apart)

theorem remBetween (right : (range low high q).Integral)
    (inside : n ∈ if .int 0 ≤ lo ∧ hi < low then range lo hi p else ofBounds (.int 0) high.pred) :
    .int 0 ≤ Number.int n ∧ .int n < high := by
  split at inside
  · rename_i inner
    have ends := memRange.mp inside
    exact ⟨inner.1.trans ends.1, lt_of_le_of_lt ends.2 (lt_of_lt_of_le inner.2 q.1)⟩
  · rwa [memOfBounds (Number.integralInt 0) (Number.integralPred right.2), Number.lePred right.2]
      at inside

/- A smaller divisor that is only zero leaves no quotient; otherwise the larger one may be zero and
something else, which leaves all of them. -/
theorem overZero (first : Included a a') (second : Included b b') (full : a.isEmpty = false)
    (full' : b.isEmpty = false) (zero : 0 ∈ b') :
    (a.div b = .ok .empty ∧ a.rem b = .empty) ∨ (a'.div b' = .ok whole ∧ a'.rem b' = whole) := by
  by_cases only : b'.constValue = some 0
  · obtain ⟨y, inside⟩ := memberIntegral second.left full'
    have single (y : Int) (inside : y ∈ b) : y = 0 :=
      memConstValue second.right only (second.members y inside)
    exact .inl (zeroDivisor a (constOfSingle second.left (single y inside ▸ inside) single))
  · exact .inr (unknownDivisor (first.possible full) only zero)

theorem rangeOfFull (full : a.isEmpty = false) : ∃ lo hi proper, a = range lo hi proper := by
  cases a with
  | empty => contradiction
  | range lo hi proper => exact ⟨lo, hi, proper, rfl⟩

theorem endsOfIncluded (below : Included (range lo hi p) (range low high q)) :
    low ≤ lo ∧ hi ≤ high :=
  of_decide_eq_true (leqComplete below.left below.right below.members)

theorem remMono (first : Included a a') (second : Included b b') (full : a.isEmpty = false)
    (full' : b.isEmpty = false) (apart : 0 ∉ b') (inside : n ∈ a.rem b) : n ∈ a'.rem b' := by
  obtain ⟨lo', hi', _, rfl⟩ := rangeOfFull (first.possible full)
  obtain ⟨low', high', _, rfl⟩ := rangeOfFull (second.possible full')
  obtain ⟨lo, hi, _, rfl⟩ := rangeOfFull full
  obtain ⟨low, high, q, rfl⟩ := rangeOfFull full'
  obtain ⟨lower, upper⟩ := endsOfIncluded first
  obtain ⟨lower', upper'⟩ := endsOfIncluded second
  rw [remApart second.left fun zero => apart (second.members 0 zero)] at inside
  rw [remApart second.right apart]
  by_cases positive : .int 0 < low'
  · rw [if_pos positive]
    rw [if_pos (lt_of_lt_of_le positive lower')] at inside
    split
    -- Where the larger dividend stays below the divisor, so does the smaller one.
    · rename_i inner
      rw [if_pos ⟨inner.1.trans lower, lt_of_le_of_lt upper (lt_of_lt_of_le inner.2 lower')⟩] at inside
      exact first.members n inside
    · have between := remBetween second.left inside
      rw [memOfBounds (Number.integralInt 0) (Number.integralPred second.right.2),
        Number.lePred second.right.2]
      exact ⟨between.1, lt_of_lt_of_le between.2 upper'⟩
  · have negative : high' < .int 0 :=
      (oneSign (Bool.eq_false_iff.mpr apart)).resolve_left positive
    have below : ¬ .int 0 < low := fun above =>
      lt_irrefl _ (lt_trans (lt_of_lt_of_le above (q.1.trans upper')) negative)
    rw [if_neg positive]
    rw [if_neg below] at inside
    rw [memOfBounds (Number.integralSucc second.left.1) (Number.integralInt 0),
      Number.succLe second.left.1] at inside
    rw [memOfBounds (Number.integralSucc second.right.1) (Number.integralInt 0),
      Number.succLe second.right.1]
    exact ⟨lt_of_le_of_lt lower' inside.1, inside.2⟩

theorem evalUnaryMono (below : Included a a') (inside : n ∈ evalUnary op a) :
    n ∈ evalUnary op a' := by
  have full : a.isEmpty = false := by
    cases a with
    | empty => cases op <;> exact (notMemEmpty n inside).elim
    | range => rfl
  cases op
  case negate =>
    refine hullLeast (negateHull below.left full) (integralNegate below.right) ?_ inside
    intro m known
    obtain ⟨x, member, rfl⟩ := known
    exact negateSound below.right (below.members x member)
  all_goals
    obtain ⟨x, member⟩ := memberIntegral below.left full
    exact evalUnarySound below.right (below.members x member) trivial

theorem evalBinaryMono (first : Included a a') (second : Included b b')
    (ok : evalBinary op a b = .ok r) (ok' : evalBinary op a' b' = .ok r') (inside : n ∈ r) :
    n ∈ r' := by
  obtain ⟨full, full'⟩ := operandsOfMember ok inside
  have encloses := evalBinaryEncloses first.right second.right ok'
  have included (m : Int) (known : Results op (· ∈ a) (· ∈ b) m) : m ∈ r' := by
    obtain ⟨x, left, y, right, yields⟩ := known
    exact encloses.member x (first.members x left) y (second.members y right) m yields
  have least (tight : op = .add ∨ op = .sub ∨ op = .mul ∨ (op = .div ∧ 0 ∉ b)) : n ∈ r' :=
    hullLeast (evalBinaryHull first.left second.left full full' tight ok) encloses.integral
      included inside
  cases op
  case add => exact least (.inl rfl)
  case sub => exact least (.inr (.inl rfl))
  case mul => exact least (.inr (.inr (.inl rfl)))
  case div =>
    by_cases zero : 0 ∈ b'
    · rcases overZero first second full full' zero with ⟨noQuotient, _⟩ | ⟨all, _⟩
      · cases Except.ok.inj (noQuotient.symm.trans ok)
        exact (notMemEmpty n inside).elim
      · cases Except.ok.inj (all.symm.trans ok')
        exact memWhole n
    · exact least (.inr (.inr (.inr ⟨rfl, fun inside => zero (second.members 0 inside)⟩)))
  case rem =>
    cases ok
    cases ok'
    by_cases zero : 0 ∈ b'
    · rcases overZero first second full full' zero with ⟨_, noQuotient⟩ | ⟨_, all⟩
      · rw [noQuotient] at inside
        exact (notMemEmpty n inside).elim
      · rw [all]
        exact memWhole n
    · exact remMono first second full full' zero inside
  all_goals
    obtain ⟨x, left⟩ := memberIntegral first.left full
    obtain ⟨y, right⟩ := memberIntegral second.left full'
    exact included n ⟨x, left, y, right, trivial⟩

theorem compareEmpty (impossible : a.isEmpty = true ∨ b.isEmpty = true) :
    compare op a b = .unknown := by
  match a, b with
  | .empty, _ => rfl
  | .range .., .empty => rfl
  | .range .., .range .. => rcases impossible with empty | empty <;> contradiction

instance : MonotoneDomain Interval where
  leqBottom _ := rfl
  unaryMono below _ inside := evalUnaryMono below inside
  binaryMono first second ok ok' _ inside := evalBinaryMono first second ok ok' inside
  compareBottom := compareEmpty
  compareOpen := openCompare
  refineMono := refineMono

end Interval
end Abstraction
