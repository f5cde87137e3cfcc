import Mathlib.Tactic.Linarith
import Abstraction.Proofs.Number.Order

/-! Sums, products and floor quotients of integers and infinities. A product is monotone in one factor
while the other keeps its sign, and a quotient is monotone in either operand over a divisor of
constant sign. So a product or a quotient of members of two intervals lies between those of the
ends. -/
namespace Abstraction.Number

variable {a b c d p : Number} {x y : Int}

theorem integralAdd (left : a.Integral) (right : b.Integral) (ok : a.add b = .ok c) :
    c.Integral := by
  cases a <;> cases b <;> simp only [Integral, add, Except.ok.injEq, reduceCtorEq] at left right ok
  case int.int => subst ok; trivial
  case negInf.negInf => subst ok; trivial
  case posInf.posInf => subst ok; trivial
  case negInf.int | int.negInf | posInf.int | int.posInf =>
    cases besideInfinityOk ok; trivial

theorem addLe (left : a ≤ .int x) (right : b ≤ .int y) (ok : a.add b = .ok c)
    (integralLeft : a.Integral) (integralRight : b.Integral) : c ≤ .int (x + y) := by
  cases a <;> cases b <;>
    simp only [Integral, add, Except.ok.injEq, reduceCtorEq] at integralLeft integralRight ok
  case int.int => subst ok; simp only [intLe] at *; omega
  case negInf.negInf => subst ok; simp
  case posInf.posInf => simp at left
  case negInf.int | int.negInf => cases besideInfinityOk ok; simp
  case posInf.int => simp at left
  case int.posInf => simp at right

theorem leAdd (left : .int x ≤ a) (right : .int y ≤ b) (ok : a.add b = .ok c)
    (integralLeft : a.Integral) (integralRight : b.Integral) : .int (x + y) ≤ c := by
  cases a <;> cases b <;>
    simp only [Integral, add, Except.ok.injEq, reduceCtorEq] at integralLeft integralRight ok
  case int.int => subst ok; simp only [intLe] at *; omega
  case posInf.posInf => subst ok; simp
  case negInf.negInf => simp at left
  case posInf.int | int.posInf => cases besideInfinityOk ok; simp
  case negInf.int => simp at left
  case int.negInf => simp at right

def Between (p a b : Number) : Prop := (a ≤ p ∧ p ≤ b) ∨ (b ≤ p ∧ p ≤ a)

def sign : Number → Int
  | .negInf => -1
  | .int n => n.sign
  | .double x => x.signed.sign
  | .posInf => 1

theorem signMono (order : a ≤ b) (left : a.Integral) (right : b.Integral) : a.sign ≤ b.sign := by
  cases a <;> cases b <;> simp only [Integral] at left right
  case int.int m n =>
    simp only [intLe] at order
    simp only [sign]
    have low := Int.sign_trichotomy m
    have high := Int.sign_trichotomy n
    have nonneg : 0 ≤ m.sign → 0 ≤ n.sign := by simpa using order.trans'
    have pos : 0 < m.sign → 0 < n.sign := by simpa using order.trans_lt'
    omega
  case negInf.int n => have side := Int.sign_trichotomy n; simp only [sign]; omega
  case int.posInf m => have side := Int.sign_trichotomy m; simp only [sign]; omega
  case negInf.negInf | negInf.posInf | posInf.posInf => simp [sign]
  all_goals simp at order

def product : Number → Number → Number
  | .int m, .int n => .int (m * n)
  | .negInf, b => scaleInfinity false b.sign
  | .posInf, b => scaleInfinity true b.sign
  | a, .negInf => scaleInfinity false a.sign
  | a, _ => scaleInfinity true a.sign

theorem scaleSign (positive : Bool) (n : Int) :
    scaleInfinity positive n.sign = scaleInfinity positive n := by
  simp [scaleInfinity]

theorem mulExact (left : a.Integral) (right : b.Integral) (ok : a.mul b = .ok p) :
    p = a.product b := by
  cases a <;> cases b <;> simp only [Integral, mul, Except.ok.injEq] at left right ok
  case negInf.int | int.negInf | posInf.int | int.posInf =>
    rw [besideInfinityOk ok]
    exact (scaleSign _ _).symm
  case int.int => exact ok.symm
  case negInf.negInf | negInf.posInf | posInf.negInf | posInf.posInf => subst ok; rfl

theorem productComm (left : a.Integral) (right : b.Integral) : a.product b = b.product a := by
  cases a <;> cases b <;> simp only [Integral] at left right
  case int.int m n => simp only [product, Int.mul_comm]
  all_goals rfl

theorem integralScale (positive : Bool) (n : Int) : (scaleInfinity positive n).Integral := by
  unfold scaleInfinity
  split
  · trivial
  · split <;> trivial

theorem integralProduct (left : a.Integral) (right : b.Integral) : (a.product b).Integral := by
  cases a <;> cases b <;> simp only [Integral] at left right
  case int.int => trivial
  all_goals exact integralScale _ _

theorem scaleMono {m n : Int} (order : m ≤ n) : scaleInfinity true m ≤ scaleInfinity true n := by
  unfold scaleInfinity
  rcases Int.lt_trichotomy m 0 with neg | zero | pos
  · simp [neg.ne, not_lt.mpr neg.le]
  · subst zero
    rcases order.eq_or_lt with same | pos
    · simp [← same]
    · simp [pos.ne', pos]
  · have later : 0 < n := by omega
    simp [pos.ne', pos, later.ne', later]

theorem productZero (integral : a.Integral) : a.product (.int 0) = .int 0 := by
  cases a with
  | double x => exact integral.elim
  | int m => simp [product]
  | _ => simp [product, sign, scaleInfinity]

theorem productMono (nonneg : .int 0 ≤ a) (order : c ≤ d) (integral : a.Integral)
    (left : c.Integral) (right : d.Integral) : a.product c ≤ a.product d := by
  cases a with
  | double x => exact integral.elim
  | negInf => simp at nonneg
  | posInf => exact scaleMono (signMono order left right)
  | int m =>
    rw [productComm integral left, productComm integral right]
    rcases (intLe.mp nonneg).eq_or_lt with zero | pos
    · subst zero
      rw [productZero left, productZero right]
    · have lowest : product .negInf (.int m) = .negInf := by
        simp [product, sign, scaleInfinity, pos, pos.ne']
      have highest : product .posInf (.int m) = .posInf := by
        simp [product, sign, scaleInfinity, pos, pos.ne']
      cases c <;> cases d <;> simp only [Integral] at left right
      case int.int k n =>
        simp only [product, intLe] at order ⊢
        exact Int.mul_le_mul_of_nonneg_right order pos.le
      case posInf.negInf | posInf.int | int.negInf => simp at order
      all_goals simp [lowest, highest]

theorem productNeg (left : a.Integral) (right : b.Integral) :
    a.neg.product b = (a.product b).neg := by
  have flip (positive : Bool) (n : Int) :
      scaleInfinity (!positive) n = (scaleInfinity positive n).neg := by
    unfold scaleInfinity
    split
    · rfl
    · cases positive <;> cases decide (0 < n) <;> rfl
  have turn (positive : Bool) (n : Int) :
      scaleInfinity positive (-n) = (scaleInfinity positive n).neg := by
    unfold scaleInfinity
    rcases Int.lt_trichotomy n 0 with below | zero | above
    · cases positive <;> simp [below.ne, below, not_lt.mpr below.le, neg]
    · simp [zero, neg]
    · cases positive <;> simp [above.ne', above, not_lt.mpr above.le, neg]
  cases a <;> cases b <;> simp only [Integral] at left right
  case int.int m n => simp [product, neg]
  case int.negInf m => simp [product, neg, sign, turn]
  case int.posInf m => simp [product, neg, sign, turn]
  case negInf.negInf | negInf.int | negInf.posInf => exact flip false _
  case posInf.negInf | posInf.int | posInf.posInf => exact flip true _

theorem negNeg (a : Number) (integral : a.Integral) : a.neg.neg = a := by
  cases a with
  | double x => exact integral.elim
  | int m => simp [neg]
  | _ => rfl

theorem productAnti (nonpos : a ≤ .int 0) (order : c ≤ d) (integral : a.Integral)
    (left : c.Integral) (right : d.Integral) : a.product d ≤ a.product c := by
  have turned : a.neg.product c ≤ a.neg.product d :=
    productMono (negLeNeg nonpos integral trivial) order (integralNeg integral) left right
  rw [productNeg integral left, productNeg integral right] at turned
  have back := negLeNeg turned (integralNeg (integralProduct integral left))
    (integralNeg (integralProduct integral right))
  rwa [negNeg _ (integralProduct integral left), negNeg _ (integralProduct integral right)] at back

theorem productBetween (low : c ≤ .int y) (high : .int y ≤ d) (integral : a.Integral)
    (left : c.Integral) (right : d.Integral) :
    Between (a.product (.int y)) (a.product c) (a.product d) := by
  rcases leTotal (.int 0) a with nonneg | nonpos
  · exact .inl ⟨productMono nonneg low integral left trivial,
      productMono nonneg high integral trivial right⟩
  · exact .inr ⟨productAnti nonpos high integral trivial right,
      productAnti nonpos low integral left trivial⟩

def quotient : Number → Number → Number
  | .int m, .int n => .int (m.fdiv n)
  | .int m, .posInf => .int (if 0 ≤ m then 0 else -1)
  | .int m, _ => .int (if m ≤ 0 then 0 else -1)
  | .posInf, .int n => if 0 < n then .posInf else .negInf
  | .negInf, .int n => if 0 < n then .negInf else .posInf
  | .posInf, .posInf => .int 0
  | .negInf, .negInf => .int 0
  | _, _ => .int (-1)

theorem floorDivExact (left : a.Integral) (right : b.Integral) (ok : a.floorDiv b = .ok p) :
    p = a.quotient b := by
  cases a <;> cases b <;> simp only [Integral] at left right
  case int.int m n =>
    by_cases zero : m = 0
    · simp_all [floorDiv, isZero, quotient]
    · by_cases vanishes : n = 0 <;> simp_all [floorDiv, isZero, isInfinite, quotient]
  case int.posInf m | int.negInf m =>
    rcases Int.lt_trichotomy m 0 with below | zero | above
    · simp_all [floorDiv, isZero, isInfinite, isPositive, quotient, below.ne, not_lt.mpr below.le,
        not_le.mpr below, below.le]
    · simp_all [floorDiv, isZero, quotient]
    · simp_all [floorDiv, isZero, isInfinite, isPositive, quotient, above.ne', not_le.mpr above,
        above.le]
  case posInf.int n | negInf.int n =>
    by_cases above : 0 < n <;>
      simp_all [floorDiv, isZero, isInfinite, isPositive, quotient, neg]
  all_goals simp_all [floorDiv, isZero, isInfinite, isPositive, quotient]

theorem integralQuotient (a b : Number) : (a.quotient b).Integral := by
  unfold quotient
  split <;> try trivial
  all_goals split <;> trivial

theorem quotientNegNeg (left : a.Integral) (right : b.Integral) (nonzero : b ≠ .int 0) :
    a.neg.quotient b.neg = a.quotient b := by
  cases a <;> cases b <;> simp only [Integral] at left right
  case int.int m n => simp [quotient, neg]
  case int.posInf m | int.negInf m => simp [quotient, neg]
  case posInf.int n | negInf.int n =>
    have apart : n ≠ 0 := fun zero => nonzero (by rw [zero])
    by_cases above : 0 < n
    · simp [quotient, neg, above, not_lt.mpr above.le]
    · have below : n < 0 := by omega
      simp [quotient, neg, above, below]
  all_goals rfl

theorem quotientMono (positive : 0 < y) (order : a ≤ b) (left : a.Integral) (right : b.Integral) :
    a.quotient (.int y) ≤ b.quotient (.int y) := by
  cases a <;> cases b <;> simp only [Integral] at left right
  case int.int m n =>
    simp only [quotient, intLe, Int.fdiv_eq_ediv_of_nonneg _ positive.le] at order ⊢
    exact Int.ediv_le_ediv positive order
  case posInf.negInf | posInf.int | int.negInf => simp at order
  all_goals simp [quotient, positive]

theorem positiveDivisors (positive : .int 0 < c) (order : c ≤ d) (left : c.Integral)
    (right : d.Integral) :
    (∃ j k, 0 < j ∧ j ≤ k ∧ c = .int j ∧ d = .int k) ∨
      (∃ j, 0 < j ∧ c = .int j ∧ d = .posInf) ∨ (c = .posInf ∧ d = .posInf) := by
  cases c <;> cases d <;> simp_all [Integral]

theorem quotientAntiDivisor (positive : .int 0 < c) (order : c ≤ d) (nonneg : .int 0 ≤ a)
    (integral : a.Integral) (left : c.Integral) (right : d.Integral) :
    a.quotient d ≤ a.quotient c := by
  cases a <;> simp only [Integral] at integral
  case negInf => simp at nonneg
  case posInf =>
    obtain ⟨j, k, pos, later, rfl, rfl⟩ | ⟨j, pos, rfl, rfl⟩ | ⟨rfl, rfl⟩ :=
      positiveDivisors positive order left right <;> simp [quotient, *]
  case int m =>
    simp only [intLe] at nonneg
    obtain ⟨j, k, pos, later, rfl, rfl⟩ | ⟨j, pos, rfl, rfl⟩ | ⟨rfl, rfl⟩ :=
      positiveDivisors positive order left right
    · have above := pos.trans_le later
      simp only [quotient, intLe, Int.fdiv_eq_ediv_of_nonneg _ pos.le,
        Int.fdiv_eq_ediv_of_nonneg _ above.le, Int.le_ediv_iff_mul_le pos]
      calc m / k * j ≤ m / k * k :=
            Int.mul_le_mul_of_nonneg_left later (Int.ediv_nonneg nonneg above.le)
        _ ≤ m := Int.ediv_mul_le m above.ne'
    · simp only [quotient, if_pos nonneg, intLe]
      exact Int.fdiv_nonneg nonneg pos.le
    · exact leRefl _

theorem quotientMonoDivisor (positive : .int 0 < c) (order : c ≤ d) (negative : a < .int 0)
    (integral : a.Integral) (left : c.Integral) (right : d.Integral) :
    a.quotient c ≤ a.quotient d := by
  cases a <;> simp only [Integral] at integral
  case posInf => simp at negative
  case negInf =>
    obtain ⟨j, k, pos, later, rfl, rfl⟩ | ⟨j, pos, rfl, rfl⟩ | ⟨rfl, rfl⟩ :=
      positiveDivisors positive order left right <;> simp [quotient, *]
  case int m =>
    simp only [intLt] at negative
    obtain ⟨j, k, pos, later, rfl, rfl⟩ | ⟨j, pos, rfl, rfl⟩ | ⟨rfl, rfl⟩ :=
      positiveDivisors positive order left right
    · have above := pos.trans_le later
      have nonpos : m / j ≤ 0 := by simpa using Int.ediv_le_ediv pos negative.le
      simp only [quotient, intLe, Int.fdiv_eq_ediv_of_nonneg _ pos.le,
        Int.fdiv_eq_ediv_of_nonneg _ above.le, Int.le_ediv_iff_mul_le above]
      calc m / j * k ≤ m / j * j := Int.mul_le_mul_of_nonpos_left nonpos later
        _ ≤ m := Int.ediv_mul_le m pos.ne'
    · simp only [quotient, if_neg (not_le.mpr negative), intLe]
      exact Int.le_sub_one_of_lt (Int.fdiv_neg_of_neg_of_pos negative pos)
    · exact leRefl _

theorem negPositive (negative : a < .int 0) (integral : a.Integral) : .int 0 < a.neg := by
  intro reversed
  have back := negLeNeg reversed (integralNeg integral) trivial
  rw [negNeg a integral] at back
  exact negative back

def OneSign (c d : Number) : Prop := .int 0 < c ∨ d < .int 0

theorem quotientBetweenDivisors (sign : OneSign c d) (low : c ≤ .int y) (high : .int y ≤ d)
    (integral : a.Integral) (left : c.Integral) (right : d.Integral) :
    Between (a.quotient (.int y)) (a.quotient c) (a.quotient d) := by
  have positive {a c d : Number} {y : Int} (pos : .int 0 < c) (low : c ≤ .int y)
      (high : .int y ≤ d) (integral : a.Integral) (left : c.Integral) (right : d.Integral) :
      Between (a.quotient (.int y)) (a.quotient c) (a.quotient d) := by
    have inner : Number.int 0 < .int y := lt_of_lt_of_le pos low
    by_cases nonneg : .int 0 ≤ a
    · exact .inr ⟨quotientAntiDivisor inner high nonneg integral trivial right,
        quotientAntiDivisor pos low nonneg integral left trivial⟩
    · exact .inl ⟨quotientMonoDivisor pos low nonneg integral left trivial,
        quotientMonoDivisor inner high nonneg integral trivial right⟩
  rcases sign with pos | negative
  · exact positive pos low high integral left right
  · have inner : Number.int y < .int 0 := lt_of_le_of_lt high negative
    have outer : c < .int 0 := lt_of_le_of_lt low inner
    have turned := positive (negPositive negative right) (negLeNeg high trivial right)
      (negLeNeg low left trivial) (integralNeg integral) (integralNeg right) (integralNeg left)
    rw [quotientNegNeg integral right (ne_of_lt negative),
      quotientNegNeg integral left (ne_of_lt outer)] at turned
    have same := quotientNegNeg integral (integralInt y) (ne_of_lt inner)
    rw [neg] at same
    rw [same] at turned
    exact turned.symm

theorem quotientBetweenDividends (nonzero : y ≠ 0) (low : a ≤ .int x) (high : .int x ≤ b)
    (left : a.Integral) (right : b.Integral) :
    Between (.int (x.fdiv y)) (a.quotient (.int y)) (b.quotient (.int y)) := by
  rcases Int.lt_or_gt_of_ne nonzero with below | above
  · have flipped {n : Number} (integral : n.Integral) :
        n.neg.quotient (.int (-y)) = n.quotient (.int y) :=
      quotientNegNeg integral (integralInt y) (by simpa using nonzero)
    have positive : 0 < -y := by omega
    have first := quotientMono positive (negLeNeg low left trivial) trivial (integralNeg left)
    have second := quotientMono positive (negLeNeg high trivial right) (integralNeg right) trivial
    rw [flipped left, flipped (integralInt x)] at first
    rw [flipped right, flipped (integralInt x)] at second
    exact .inr ⟨second, first⟩
  · exact .inl ⟨quotientMono above low left trivial, quotientMono above high trivial right⟩

theorem betweenLow (between : Between p a b) : a.least b ≤ p := by
  rcases between with inside | inside
  · exact (leastLeft a b).trans inside.1
  · exact (leastRight a b).trans inside.1

theorem betweenHigh (between : Between p a b) : p ≤ a.greatest b := by
  rcases between with inside | inside
  · exact inside.2.trans (greatestRight a b)
  · exact inside.2.trans (greatestLeft a b)

theorem cornersEnclose {q n : Number} {r s t u : Number} (between : Between n p q)
    (first : Between p r s) (second : Between q t u) :
    ((r.least s).least t).least u ≤ n ∧ n ≤ ((r.greatest s).greatest t).greatest u := by
  have lowFirst : ((r.least s).least t).least u ≤ p :=
    ((leastLeft _ u).trans (leastLeft _ t)).trans (betweenLow first)
  have highFirst : p ≤ ((r.greatest s).greatest t).greatest u :=
    (betweenHigh first).trans ((greatestLeft _ t).trans (greatestLeft _ u))
  have lowSecond : ((r.least s).least t).least u ≤ q := by
    refine leTrans (leLeast ?_ (leastRight _ u)) (betweenLow second)
    exact (leastLeft _ u).trans (leastRight _ t)
  have highSecond : q ≤ ((r.greatest s).greatest t).greatest u := by
    refine leTrans (betweenHigh second) (greatestLe ?_ (greatestRight _ u))
    exact (greatestRight _ t).trans (greatestLeft _ u)
  rcases between with inside | inside
  · exact ⟨lowFirst.trans inside.1, inside.2.trans highSecond⟩
  · exact ⟨lowSecond.trans inside.1, inside.2.trans highFirst⟩

end Abstraction.Number
