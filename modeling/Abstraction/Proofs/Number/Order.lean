import Mathlib.Order.Basic
import Mathlib.Tactic.Linarith
import Abstraction.Number.Basic

/-! The order of numbers, and what arithmetic does to it. Ends of intervals are compared with integers
only, so the laws of arithmetic are stated for integers and infinities; doubles take part in the
order alone. -/
namespace Abstraction

theorem ArithmeticFault.bindOk {α β : Type} {x : Except ArithmeticFault α}
    {f : α → Except ArithmeticFault β} {r : β} (ok : (x >>= f) = .ok r) :
    ∃ v, x = .ok v ∧ f v = .ok r := by
  cases x with
  | error fault => contradiction
  | ok v => exact ⟨v, rfl, ok⟩

theorem ArithmeticFault.yields {α : Type} {P : α → Prop} [DecidablePred P]
    {x : Except ArithmeticFault α} (check : (x.toOption.any fun v => decide (P v)) = true) :
    ∃ v, x = .ok v ∧ P v := by
  cases x with
  | error fault => contradiction
  | ok v => exact ⟨v, rfl, of_decide_eq_true check⟩

namespace Number

theorem onePositive : 0 < (Double.one : Int) := by
  have units : 0 < Double.one := by decide +kernel
  exact Int.natCast_pos.mpr units

theorem leTrans {a b c : Number} (left : a ≤ b) (right : b ≤ c) : a ≤ c := by
  have one := onePositive
  cases a <;> cases b <;> cases c <;>
    simp only [leIff, le, decide_eq_true_eq, Bool.false_eq_true] at left right ⊢
  case int.int.int => omega
  case int.int.double m n z => exact (Int.mul_le_mul_of_nonneg_right left one.le).trans right
  case int.double.int m y n => exact Int.le_of_mul_le_mul_right (left.trans right) one
  case int.double.double => omega
  case double.int.int x m n => exact left.trans (Int.mul_le_mul_of_nonneg_right right one.le)
  case double.int.double => omega
  case double.double.int => omega
  case double.double.double => omega

instance : Preorder Number where
  le_refl := leRefl
  le_trans _ _ _ := leTrans
  lt_iff_le_not_ge a b := ⟨fun below => ⟨(leTotal a b).resolve_right below, below⟩, And.right⟩

theorem leOfLt {a b : Number} (below : a < b) : a ≤ b := le_of_lt below

theorem notLt {a b : Number} : ¬ a < b ↔ b ≤ a := Decidable.not_not

@[simp] theorem negInfLe (a : Number) : Number.negInf ≤ a := by cases a <;> rfl

@[simp] theorem lePosInf (a : Number) : a ≤ Number.posInf := by cases a <;> rfl

@[simp] theorem intLe {m n : Int} : Number.int m ≤ .int n ↔ m ≤ n := by
  simp [leIff, le]

@[simp] theorem intLt {m n : Int} : Number.int m < .int n ↔ m < n := by
  rw [← notLe, intLe, Int.not_le]

@[simp] theorem posInfLeInt {n : Int} : ¬ Number.posInf ≤ .int n := by simp [leIff, le]

@[simp] theorem intLeNegInf {n : Int} : ¬ Number.int n ≤ .negInf := by simp [leIff, le]

@[simp] theorem posInfLeNegInf : ¬ Number.posInf ≤ .negInf := by simp [leIff, le]

@[simp] theorem posInfLt {a : Number} : ¬ Number.posInf < a := notLt.mpr (lePosInf a)

@[simp] theorem ltNegInf {a : Number} : ¬ a < Number.negInf := notLt.mpr (negInfLe a)

@[simp] theorem intLtPosInf {n : Int} : Number.int n < .posInf := posInfLeInt

@[simp] theorem negInfLtInt {n : Int} : Number.negInf < .int n := intLeNegInf

theorem leastLeft (a b : Number) : a.least b ≤ a := by
  unfold least
  split
  · exact leRefl a
  · exact leOfLt ‹_›

theorem leastRight (a b : Number) : a.least b ≤ b := by
  unfold least
  split
  · assumption
  · exact leRefl b

theorem leLeast {a b c : Number} (left : c ≤ a) (right : c ≤ b) : c ≤ a.least b := by
  unfold least
  split <;> assumption

theorem greatestLeft (a b : Number) : a ≤ a.greatest b := by
  unfold greatest
  split
  · exact leRefl a
  · exact leOfLt ‹_›

theorem greatestRight (a b : Number) : b ≤ a.greatest b := by
  unfold greatest
  split
  · assumption
  · exact leRefl b

theorem greatestLe {a b c : Number} (left : a ≤ c) (right : b ≤ c) : a.greatest b ≤ c := by
  unfold greatest
  split <;> assumption

def Integral : Number → Prop
  | .double _ => False
  | _ => True

instance : DecidablePred Integral
  | .negInf | .int _ | .posInf => isTrue trivial
  | .double _ => isFalse id

theorem integralInt (n : Int) : Integral (.int n) := trivial

theorem integralNegInf : Integral .negInf := trivial

theorem integralPosInf : Integral .posInf := trivial

theorem integralSigned {x : Double} (integral : x.isIntegral = true) :
    x.truncate * (Double.one : Int) = x.signed := by
  have units : (Double.one : Int) ∣ (x.units : Int) :=
    Int.natCast_dvd_natCast.mpr (Nat.dvd_of_mod_eq_zero (beq_iff_eq.mp integral))
  have signed : (Double.one : Int) ∣ x.signed := by
    unfold Double.signed
    split
    · exact (Int.dvd_neg).mpr units
    · exact units
  exact Int.tdiv_mul_cancel signed

theorem normaliseValue (a : Number) : a.normalise ≤ a ∧ a ≤ a.normalise := by
  cases a with
  | double x =>
    rw [normalise]
    split
    · rename_i integral
      have value := integralSigned integral
      exact ⟨decide_eq_true value.le, decide_eq_true value.ge⟩
    · exact ⟨leRefl _, leRefl _⟩
  | _ => exact ⟨leRefl _, leRefl _⟩

theorem normaliseIntegral {a : Number} (integral : a.Integral) : a.normalise = a := by
  cases a with
  | double x => exact integral.elim
  | _ => rfl

theorem integralLeast {a b : Number} (left : a.Integral) (right : b.Integral) :
    (a.least b).Integral := by
  unfold least
  split <;> assumption

theorem integralGreatest {a b : Number} (left : a.Integral) (right : b.Integral) :
    (a.greatest b).Integral := by
  unfold greatest
  split <;> assumption

theorem integralNeg {a : Number} (integral : a.Integral) : a.neg.Integral := by
  cases a with
  | double x => exact integral.elim
  | _ => trivial

theorem integralPred {a : Number} (integral : a.Integral) : a.pred.Integral := by
  cases a with
  | double x => exact integral.elim
  | _ => trivial

theorem integralSucc {a : Number} (integral : a.Integral) : a.succ.Integral := by
  cases a with
  | double x => exact integral.elim
  | _ => trivial

theorem negLeNeg {a b : Number} (order : a ≤ b) (left : a.Integral) (right : b.Integral) :
    b.neg ≤ a.neg := by
  cases a <;> cases b <;> simp_all [neg, Integral]

theorem lePred {a : Number} {n : Int} (integral : a.Integral) : .int n ≤ a.pred ↔ .int n < a := by
  cases a with
  | double x => exact integral.elim
  | int m => simp only [pred, intLe, intLt]; omega
  | _ => simp [pred]

theorem succLe {a : Number} {n : Int} (integral : a.Integral) : a.succ ≤ .int n ↔ a < .int n := by
  cases a with
  | double x => exact integral.elim
  | int m => simp only [succ, intLe, intLt]; omega
  | _ => simp [succ]

theorem besideInfinityOk {n : Int} {a b : Number} (ok : besideInfinity n a = .ok b) : b = a := by
  unfold besideInfinity at ok
  split at ok
  · exact (Except.ok.inj ok).symm
  · contradiction

end Number
end Abstraction
