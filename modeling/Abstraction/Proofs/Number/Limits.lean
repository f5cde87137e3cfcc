import Abstraction.Proofs.Concrete
import Abstraction.Proofs.Number.Corners

/-! Numbers as limits of sets of integers: an integer is a limit of a set that has it, an infinity of one
that goes past every integer on its side. An operator takes limits of two sets to a limit of what it
yields over their members, also where an infinity meets zero or another infinity. -/
namespace Abstraction

def Operator.Results (op : Operator) (s t : Int → Prop) (n : Int) : Prop :=
  ∃ x, s x ∧ ∃ y, t y ∧ op.Yields x y n

namespace Number
open Operator (Results)

def LimitOf (s : Int → Prop) : Number → Prop
  | .negInf => ∀ k, ∃ n, s n ∧ n < k
  | .int m => s m
  | .double _ => False
  | .posInf => ∀ k, ∃ n, s n ∧ k < n

variable {s t : Int → Prop} {a b c : Number}

theorem limitIntegral (limit : LimitOf s a) : a.Integral := by
  cases a with
  | double x => exact limit
  | _ => trivial

theorem limitMono (included : ∀ n, s n → t n) (limit : LimitOf s a) : LimitOf t a := by
  cases a with
  | int m => exact included m limit
  | double x => exact limit
  | negInf => exact fun k => (limit k).imp fun n known => ⟨included n known.1, known.2⟩
  | posInf => exact fun k => (limit k).imp fun n known => ⟨included n known.1, known.2⟩

theorem limitLeast (left : LimitOf s a) (right : LimitOf s b) : LimitOf s (a.least b) := by
  unfold least
  split <;> assumption

theorem limitGreatest (left : LimitOf s a) (right : LimitOf s b) : LimitOf s (a.greatest b) := by
  unfold greatest
  split <;> assumption

/- What lies below a whole set lies below its limits, unless the set only grows toward the limit. -/
theorem belowLimit (limit : LimitOf s a) (low : a ≠ .posInf) (integral : b.Integral)
    (below : ∀ n, s n → b ≤ .int n) : b ≤ a := by
  cases a with
  | int m => exact below m limit
  | double x => exact limit.elim
  | posInf => exact (low rfl).elim
  | negInf =>
    cases b with
    | negInf => exact leRefl _
    | double x => exact integral.elim
    | int k =>
      obtain ⟨n, inside, less⟩ := limit k
      have order := intLe.mp (below n inside)
      omega
    | posInf =>
      obtain ⟨n, inside, _⟩ := limit 0
      exact (posInfLeInt (below n inside)).elim

theorem limitNeg (limit : LimitOf s a) : LimitOf (fun n => s (-n)) a.neg := by
  cases a with
  | int m => simpa only [neg, LimitOf, Int.neg_neg] using limit
  | double x => exact limit
  | negInf =>
    intro k
    obtain ⟨n, inside, below⟩ := limit (-k)
    exact ⟨-n, by simpa only [Int.neg_neg] using inside, by omega⟩
  | posInf =>
    intro k
    obtain ⟨n, inside, above⟩ := limit (-k)
    exact ⟨-n, by simpa only [Int.neg_neg] using inside, by omega⟩

theorem aboveLimit (limit : LimitOf s a) (high : a ≠ .negInf) (integral : b.Integral)
    (above : ∀ n, s n → .int n ≤ b) : a ≤ b := by
  have turned : b.neg ≤ a.neg := by
    refine belowLimit (limitNeg limit) (fun same => ?_) (integralNeg integral) fun n inside => ?_
    · exact high (negNeg a (limitIntegral limit) ▸ congrArg neg same)
    · have order := negLeNeg (above (-n) inside) trivial integral
      rwa [neg, Int.neg_neg] at order
  have back := negLeNeg turned (integralNeg integral) (integralNeg (limitIntegral limit))
  rwa [negNeg a (limitIntegral limit), negNeg b integral] at back

theorem limitSign (limit : LimitOf s a) : ∃ n, s n ∧ n.sign = a.sign := by
  cases a with
  | int m => exact ⟨m, limit, rfl⟩
  | double x => exact limit.elim
  | negInf =>
    obtain ⟨n, inside, below⟩ := limit 0
    exact ⟨n, inside, Int.sign_eq_neg_one_of_neg below⟩
  | posInf =>
    obtain ⟨n, inside, above⟩ := limit 0
    exact ⟨n, inside, Int.sign_eq_one_of_pos above⟩

theorem memberAbove {n : Int} (limit : LimitOf s a) (below : .int n < a) : ∃ m, s m ∧ n < m := by
  cases a with
  | int m => exact ⟨m, limit, intLt.mp below⟩
  | double x => exact limit.elim
  | negInf => exact (ltNegInf below).elim
  | posInf => exact limit n

theorem memberBelow {n : Int} (limit : LimitOf s a) (above : a < .int n) : ∃ m, s m ∧ m < n := by
  cases a with
  | int m => exact ⟨m, limit, intLt.mp above⟩
  | double x => exact limit.elim
  | negInf => exact limit n
  | posInf => exact (posInfLt above).elim

theorem limitShift (infinite : a.isInfinite = true) (left : LimitOf s a) {y : Int} (second : t y) :
    LimitOf (Results .add s t) a := by
  cases a with
  | int m => contradiction
  | double x => contradiction
  | negInf =>
    intro k
    obtain ⟨x, first, below⟩ := left (k - y)
    exact ⟨x + y, ⟨x, first, y, second, rfl⟩, by omega⟩
  | posInf =>
    intro k
    obtain ⟨x, first, above⟩ := left (k - y)
    exact ⟨x + y, ⟨x, first, y, second, rfl⟩, by omega⟩

theorem limitSum (left : LimitOf s a) (right : LimitOf t b) (ok : a.add b = .ok c) :
    LimitOf (Results .add s t) c := by
  have integral := limitIntegral left
  have integral' := limitIntegral right
  obtain ⟨x, first, _⟩ := limitSign left
  obtain ⟨y, second, _⟩ := limitSign right
  have swap (n : Int) (known : Results .add t s n) : Results .add s t n := by
    obtain ⟨y, second, x, first, same⟩ := known
    exact ⟨x, first, y, second, same.trans (Int.add_comm y x)⟩
  cases a <;> cases b <;>
    simp only [Integral, add, Except.ok.injEq, reduceCtorEq] at integral integral' ok
  case int.int => subst ok; exact ⟨_, left, _, right, rfl⟩
  case negInf.negInf | posInf.posInf => subst ok; exact limitShift rfl left second
  case negInf.int | posInf.int => cases besideInfinityOk ok; exact limitShift rfl left second
  case int.negInf | int.posInf =>
    cases besideInfinityOk ok
    exact limitMono swap (limitShift rfl right first)

/- Past every integer in one factor, a product goes where the sign of the other points. Zero stops it. -/
theorem limitScale (past : LimitOf s .posInf) {y : Int} (second : t y) :
    LimitOf (Results .mul s t) (scaleInfinity true y) := by
  have product {x : Int} (first : s x) : Results .mul s t (x * y) := ⟨x, first, y, second, rfl⟩
  unfold scaleInfinity
  rcases Int.lt_trichotomy y 0 with below | zero | above
  · rw [if_neg below.ne, if_neg (by simp [below.le])]
    intro k
    obtain ⟨x, first, far⟩ := past (max 0 (-k))
    exact ⟨x * y, product first, by nlinarith [le_max_left 0 (-k), le_max_right 0 (-k)]⟩
  · obtain ⟨x, first, _⟩ := past 0
    rw [if_pos zero]
    have result := product first
    rwa [zero, Int.mul_zero] at result
  · rw [if_neg above.ne', if_pos (by simp [above])]
    intro k
    obtain ⟨x, first, far⟩ := past (max 0 k)
    exact ⟨x * y, product first, by nlinarith [le_max_left 0 k, le_max_right 0 k]⟩

theorem limitProductPast (past : LimitOf s .posInf) (right : LimitOf t b) :
    LimitOf (Results .mul s t) (product .posInf b) := by
  obtain ⟨y, second, sign⟩ := limitSign right
  rw [product, ← sign, scaleSign]
  exact limitScale past second

theorem limitProductInfinite (infinite : a.isInfinite = true) (left : LimitOf s a)
    (right : LimitOf t b) : LimitOf (Results .mul s t) (a.product b) := by
  cases a with
  | int m => contradiction
  | double x => contradiction
  | posInf => exact limitProductPast left right
  | negInf =>
    have turned := limitNeg (limitProductPast (limitNeg left) right)
    rw [← productNeg integralPosInf (limitIntegral right)] at turned
    refine limitMono (fun n known => ?_) turned
    obtain ⟨x, first, y, second, same⟩ := known
    refine ⟨-x, first, y, second, ?_⟩
    rw [Operator.Yields, Int.neg_mul, ← same, Int.neg_neg]

theorem limitProduct (left : LimitOf s a) (right : LimitOf t b) :
    LimitOf (Results .mul s t) (a.product b) := by
  cases infinite : a.isInfinite with
  | true => exact limitProductInfinite infinite left right
  | false =>
  cases infinite' : b.isInfinite with
  | true =>
    rw [productComm (limitIntegral left) (limitIntegral right)]
    refine limitMono (fun n known => ?_) (limitProductInfinite infinite' right left)
    obtain ⟨y, second, x, first, same⟩ := known
    exact ⟨x, first, y, second, same.trans (Int.mul_comm y x)⟩
  | false =>
    cases a <;> cases b <;> simp only [isInfinite, LimitOf, Bool.true_eq_false] at *
    exact ⟨_, left, _, right, rfl⟩

theorem quotientPast (past : LimitOf t .posInf) (x : Int) :
    ∃ y, t y ∧ x.fdiv y = if 0 ≤ x then 0 else -1 := by
  obtain ⟨y, second, far⟩ := past (max x (-x))
  have above : 0 < y := by omega
  refine ⟨y, second, ?_⟩
  rw [Int.fdiv_eq_ediv_of_nonneg x above.le]
  split
  · exact Int.ediv_eq_zero_of_lt (by omega) (by omega)
  · have rest : (x + y) / y = 0 := Int.ediv_eq_zero_of_lt (by omega) (by omega)
    rw [Int.add_ediv_of_dvd_right (dvd_refl y), Int.ediv_self above.ne'] at rest
    omega

theorem limitQuotientPositive (positive : .int 0 < b) (left : LimitOf s a) (right : LimitOf t b)
    (nonzero : ∀ y, t y → y ≠ 0) : LimitOf (Results .div s t) (a.quotient b) := by
  have quotient {x y : Int} (first : s x) (second : t y) : Results .div s t (x.fdiv y) :=
    ⟨x, first, y, second, nonzero y second, rfl⟩
  cases b with
  | negInf => simp at positive
  | double y => exact right.elim
  | int y =>
    have above : 0 < y := intLt.mp positive
    cases a with
    | int x => exact quotient left right
    | double x => exact left.elim
    | posInf =>
      rw [Number.quotient, if_pos above]
      intro k
      obtain ⟨x, first, far⟩ := left ((k + 1) * y)
      refine ⟨x.fdiv y, quotient first right, ?_⟩
      rw [Int.fdiv_eq_ediv_of_nonneg x above.le]
      exact Int.le_ediv_of_mul_le above far.le
    | negInf =>
      rw [Number.quotient, if_pos above]
      intro k
      obtain ⟨x, first, far⟩ := left (k * y)
      refine ⟨x.fdiv y, quotient first right, ?_⟩
      rw [Int.fdiv_eq_ediv_of_nonneg x above.le]
      exact Int.ediv_lt_of_lt_mul above far
  | posInf =>
    have toward {x : Int} (first : s x) : Results .div s t (if 0 ≤ x then 0 else -1) := by
      obtain ⟨y, second, same⟩ := quotientPast right x
      exact same ▸ quotient first second
    cases a with
    | int x => exact toward left
    | double x => exact left.elim
    | posInf =>
      obtain ⟨x, first, above⟩ := left 0
      have zero := toward first
      rwa [if_pos above.le] at zero
    | negInf =>
      obtain ⟨x, first, below⟩ := left 0
      have one := toward first
      rwa [if_neg (Int.not_le.mpr below)] at one

theorem limitQuotient (left : LimitOf s a) (right : LimitOf t b) (nonzero : ∀ y, t y → y ≠ 0) :
    LimitOf (Results .div s t) (a.quotient b) := by
  by_cases positive : .int 0 < b
  · exact limitQuotientPositive positive left right nonzero
  · have negative : b < .int 0 := by
      cases b with
      | double y => exact right.elim
      | negInf => exact negInfLtInt
      | posInf => exact (positive intLtPosInf).elim
      | int y =>
        have apart := nonzero y right
        rw [intLt] at positive ⊢
        omega
    rw [← quotientNegNeg (limitIntegral left) (limitIntegral right) (ne_of_lt negative)]
    have turned := limitQuotientPositive (negPositive negative (limitIntegral right))
      (limitNeg left) (limitNeg right) fun y second zero => nonzero (-y) second (by omega)
    refine limitMono (fun n known => ?_) turned
    obtain ⟨x, first, y, second, apart, same⟩ := known
    exact ⟨-x, first, -y, second, by omega, by rw [Int.neg_fdiv_neg]; exact same⟩

end Number
end Abstraction
