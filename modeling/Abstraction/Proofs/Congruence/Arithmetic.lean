import Abstraction.Value.Congruence.Arithmetic
import Abstraction.Proofs.Congruence.Members
import Abstraction.Proofs.Domain

/-! Arithmetic and comparisons of congruence classes against those of their members. No value is left
out: what an operator yields over members lies in its result, and nothing restricts the classes. -/
namespace Abstraction.Congruence
open Residue (dividesExact fdivCancel)

variable {op : Operator} {a b : Congruence} {x y n : Int}

theorem addSound (first : x ∈ a) (second : y ∈ b) : x + y ∈ a.add b := by
  obtain ⟨m, r, _, rfl, left⟩ := cosetOfMember first
  obtain ⟨k, s, _, rfl, right⟩ := cosetOfMember second
  rw [add, memOfParts, add_sub_add_comm]
  exact dvd_add (gcdDividesLeft k left) (gcdDividesRight m right)

theorem subSound (first : x ∈ a) (second : y ∈ b) : x - y ∈ a.sub b := by
  obtain ⟨m, r, _, rfl, left⟩ := cosetOfMember first
  obtain ⟨k, s, _, rfl, right⟩ := cosetOfMember second
  rw [sub, memOfParts, sub_sub_sub_comm]
  exact dvd_sub (gcdDividesLeft k left) (gcdDividesRight m right)

theorem negateSound (inside : x ∈ a) : -x ∈ a.negate := by
  obtain ⟨m, r, _, rfl, member⟩ := cosetOfMember inside
  rw [negate, memOfParts, neg_sub_neg]
  exact dvd_sub_comm.mp member

/-- With `x = r + m * i` and `y = s + k * j`, each of the three terms by which `x * y` differs from
`r * s` is a multiple of one operand of the common divisor. -/
theorem mulSound (first : x ∈ a) (second : y ∈ b) : x * y ∈ a.mul b := by
  obtain ⟨m, r, _, rfl, left⟩ := cosetOfMember first
  obtain ⟨k, s, _, rfl, right⟩ := cosetOfMember second
  rw [mul, memOfParts]
  have inner := Int.gcd_dvd_right (m * k : Int) (Int.gcd (m * s) (k * r))
  have both := (Int.gcd_dvd_left (m * k : Int) (Int.gcd (m * s) (k * r))).trans
    (mul_dvd_mul left right)
  have byLeft := (inner.trans (Int.gcd_dvd_left (m * s : Int) (k * r))).trans
    (mul_dvd_mul_right left s)
  have byRight := (inner.trans (Int.gcd_dvd_right (m * s : Int) (k * r))).trans
    (mul_dvd_mul_right right r)
  have terms : x * y - r * s = (x - r) * (y - s) + (x - r) * s + (y - s) * r := by ring
  rw [terms]
  exact dvd_add (dvd_add both byLeft) byRight

theorem memConstCoset {reduced : Reduced 0 n} (inside : x ∈ coset 0 n reduced) : x = n := by
  rw [memCoset, Int.natCast_zero, Int.zero_dvd] at inside
  exact Int.sub_eq_zero.mp inside

theorem divSound (first : x ∈ a) (second : y ∈ b) (nonzero : y ≠ 0) : x.fdiv y ∈ a.div b := by
  obtain ⟨m, r, _, rfl, left⟩ := cosetOfMember first
  obtain ⟨k, d, _, rfl, _⟩ := cosetOfMember second
  rw [div]
  split
  · exact memWhole _
  rename_i only
  obtain rfl : k = 0 := not_not.mp only
  obtain rfl := memConstCoset second
  rw [if_neg nonzero]
  split
  · rename_i exactly
    rw [Bool.and_eq_true, dividesExact, dividesExact] at exactly
    have dividend : y ∣ x := (dvd_sub_left exactly.2).mp (exactly.1.trans left)
    rw [memOfParts, ← mul_dvd_mul_iff_right nonzero, sub_mul, fdivCancel exactly.1,
      fdivCancel exactly.2, fdivCancel dividend]
    exact left
  · exact memWhole _

theorem remSound (first : x ∈ a) (second : y ∈ b) (nonzero : y ≠ 0) : x.fmod y ∈ a.rem b := by
  obtain ⟨m, r, _, rfl, left⟩ := cosetOfMember first
  obtain ⟨k, d, _, rfl, _⟩ := cosetOfMember second
  rw [rem]
  split
  · exact memWhole _
  rename_i only
  obtain rfl : k = 0 := not_not.mp only
  obtain rfl := memConstCoset second
  rw [if_neg nonzero]
  split
  · rename_i period
    obtain ⟨i, multiple⟩ := (dividesExact.mp period).trans left
    have shifted : x = r + y * i := by linear_combination multiple
    rw [memConst, shifted, Int.add_mul_fmod_self_left]
  · exact memWhole _

theorem evalConstantSound {c : Constant} (known : ∀ m, c.integer = some m → n = m) :
    n ∈ evalConstant c := by
  unfold evalConstant
  split
  · rename_i m found
    exact memConst.mpr (known m found)
  · exact memWhole n

theorem nonemptyOfMember (inside : x ∈ a) : a.isEmpty = false := by
  obtain ⟨m, r, _, rfl, _⟩ := cosetOfMember inside
  rfl

theorem evalUnarySound (inside : x ∈ a) (yields : op.YieldsOf x n) : n ∈ evalUnary op a := by
  cases op
  case negate =>
    subst yields
    exact negateSound inside
  all_goals
    simp only [evalUnary, nonemptyOfMember inside, Bool.false_eq_true, if_false]
    exact memWhole n

theorem evalBinarySound (first : x ∈ a) (second : y ∈ b) (yields : op.Yields x y n) :
    n ∈ evalBinary op a b := by
  cases op
  case add => subst yields; exact addSound first second
  case sub => subst yields; exact subSound first second
  case mul => subst yields; exact mulSound first second
  case div => obtain ⟨nonzero, rfl⟩ := yields; exact divSound first second nonzero
  case rem => obtain ⟨nonzero, rfl⟩ := yields; exact remSound first second nonzero
  all_goals
    simp only [evalBinary, nonemptyOfMember first, nonemptyOfMember second, Bool.or_self,
      Bool.false_eq_true, if_false]
    exact memWhole n

theorem memConstValue (only : a.constValue = some n) (inside : x ∈ a) : x = n := by
  obtain ⟨m, r, _, rfl, _⟩ := cosetOfMember inside
  rw [constValue] at only
  split at only <;> try contradiction
  rename_i zero
  subst zero
  cases Option.some.inj only
  exact memConstCoset inside

theorem equalVerdictSound (first : x ∈ a) (second : y ∈ b) :
    (equalVerdict a b).Admits (decide (x = y)) := by
  unfold equalVerdict
  split
  · rename_i disjoint
    have apart : x ≠ y := by
      intro same
      subst same
      exact isEmptyExact.mp disjoint x (memMeet.mpr ⟨first, second⟩)
    simp [Verdict.Admits, apart]
  split
  · rename_i same
    simp only [Bool.and_eq_true] at same
    obtain ⟨c, only⟩ := Option.isSome_iff_exists.mp same.1.1
    have left := memConstValue only first
    have right := memConstValue only (leqExact.mp same.2 y second)
    simp [Verdict.Admits, left, right]
  · trivial

theorem orderVerdictSound {holds : Int → Int → Bool} (first : x ∈ a) (second : y ∈ b) :
    (orderVerdict a b holds).Admits (holds x y) := by
  unfold orderVerdict
  split
  · rename_i left right
    rw [memConstValue left first, memConstValue right second]
    exact Verdict.admitsOf.mpr rfl
  · trivial

theorem compareSound (comparison : op.isComparison = true) (first : x ∈ a) (second : y ∈ b) :
    (compare op a b).Admits (op.holds x y) := by
  simp only [compare, nonemptyOfMember first, nonemptyOfMember second, Bool.or_self,
    Bool.false_eq_true, if_false]
  cases op <;> try contradiction
  case eq => exact equalVerdictSound first second
  case ne =>
    change (equalVerdict a b).negate.Admits (decide (x ≠ y))
    rw [Verdict.admitsNegate, decide_not, Bool.not_not]
    exact equalVerdictSound first second
  all_goals exact orderVerdictSound first second

theorem refineSound (first : x ∈ a) (second : y ∈ b) (holds : op.holds x y = true) :
    x ∈ (refine op a b).1 ∧ y ∈ (refine op a b).2 := by
  cases op
  case eq =>
    obtain rfl : x = y := of_decide_eq_true holds
    have common := memMeet.mpr ⟨first, second⟩
    exact ⟨common, common⟩
  all_goals exact ⟨first, second⟩

theorem refineBelow : (n ∈ (refine op a b).1 → n ∈ a) ∧ (n ∈ (refine op a b).2 → n ∈ b) := by
  cases op
  case eq => exact ⟨fun inside => (memMeet.mp inside).1, fun inside => (memMeet.mp inside).2⟩
  all_goals exact ⟨id, id⟩

instance : SoundDomain Congruence where
  Regular _ := True
  memTop := memWhole
  regularTop := trivial
  isBottomExact _ := isEmptyExact
  leqSound order n inside := leqExact.mp order n inside
  joinSound _ _ _ inside := joinSound inside
  widenSound _ _ _ inside := joinSound inside
  regularJoin _ _ := trivial
  regularMeet _ _ := trivial
  regularWiden _ _ := trivial
  regularNarrow _ _ := trivial
  constantSound := evalConstantSound
  regularConstant _ := trivial
  unarySound _ _ _ inside yields := evalUnarySound inside yields
  regularUnary _ := trivial
  binarySound _ _ ok _ _ _ first second yields := by
    cases ok
    exact evalBinarySound first second yields
  regularBinary _ _ _ := trivial
  compareSound comparison _ _ _ _ _ _ first second := compareSound comparison first second
  refineSound _ _ _ _ _ _ _ first second holds := refineSound first second holds
  regularRefine _ _ := ⟨trivial, trivial⟩

instance : ExactDomain Congruence where
  ext _ _ same := ext same
  leqComplete _ _ included := leqExact.mpr included
  memMeet _ _ := memMeet
  joinLeast _ _ _ first second _ inside := joinLeast first second inside
  narrowAbove _ _ _ first second := narrowAbove first second
  narrowBelow _ _ included _ inside := narrowBelow included inside
  refineBelow _ _ := refineBelow

end Abstraction.Congruence
