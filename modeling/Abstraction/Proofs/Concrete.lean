import Mathlib.Order.Basic
import Abstraction.Program.Expr
import Abstraction.Verdict

/-! Concrete stores, the values an expression may take in one and the outcomes a guard may have. What
no domain models may take any value: every constant but an integer, every other operator over
operands that have a value, and whatever is no expression. -/
namespace Abstraction

abbrev Store := Identifier → Int

def Store.set (s : Store) (id : Identifier) (v : Int) : Store := fun k => if k = id then v else s k

theorem Store.setSame (s : Store) (id : Identifier) (v : Int) : s.set id v id = v := if_pos rfl

theorem Store.setOther (s : Store) {id k : Identifier} (v : Int) (other : k ≠ id) :
    s.set id v k = s k := if_neg other

theorem Store.setSelf (s : Store) (id : Identifier) : s.set id (s id) = s := by
  funext k
  unfold Store.set
  split
  · rename_i same; rw [same]
  · rfl

theorem Store.setAgain (s : Store) (id : Identifier) (v w : Int) :
    (s.set id v).set id w = s.set id w := by
  funext k
  unfold Store.set
  split <;> rfl

namespace Operator

def YieldsOf : Operator → Int → Int → Prop
  | .negate, v, n => n = -v
  | _, _, _ => True

def Yields : Operator → Int → Int → Int → Prop
  | .add, v, w, n => n = v + w
  | .sub, v, w, n => n = v - w
  | .mul, v, w, n => n = v * w
  | .div, v, w, n => w ≠ 0 ∧ n = v.fdiv w
  | .rem, v, w, n => w ≠ 0 ∧ n = v.fmod w
  | _, _, _, _ => True

def holds : Operator → Int → Int → Bool
  | .eq, v, w => decide (v = w)
  | .ne, v, w => decide (v ≠ w)
  | .lt, v, w => decide (v < w)
  | .le, v, w => decide (v ≤ w)
  | .gt, v, w => decide (w < v)
  | .ge, v, w => decide (w ≤ v)
  | _, _, _ => false

theorem complementHolds {op : Operator} (comparison : op.isComparison = true) (v w : Int) :
    op.complement.holds v w = !op.holds v w := by
  rw [Bool.eq_iff_iff]
  cases op <;> simp [isComparison, complement, holds] at comparison ⊢

theorem complementComparison {op : Operator} (comparison : op.isComparison = true) :
    op.complement.isComparison = true := by
  cases op <;> simp [isComparison, complement] at comparison ⊢

theorem signedHolds {op : Operator} (comparison : op.isComparison = true) (negated : Bool)
    (v w : Int) :
    (if negated then op.complement else op).holds v w = Bool.xor negated (op.holds v w) := by
  cases negated with
  | false => exact (Bool.false_xor _).symm
  | true => exact (complementHolds comparison v w).trans (Bool.true_xor _).symm

theorem signedComparison {op : Operator} (comparison : op.isComparison = true) (negated : Bool) :
    (if negated then op.complement else op).isComparison = true := by
  cases negated with
  | false => exact comparison
  | true => exact complementComparison comparison

end Operator

namespace Expr

def Mentions (id : Identifier) : Expr → Prop
  | .identifier k => k = id
  | .unary _ e => e.Mentions id
  | .binary _ l r => l.Mentions id ∨ r.Mentions id
  | .constant _ | .unrecognised => False

def MayTake (s : Store) : Expr → Int → Prop
  | .constant c, n => ∀ m, c.integer = some m → n = m
  | .identifier id, n => n = s id
  | .unary op e, n => ∃ v, e.MayTake s v ∧ op.YieldsOf v n
  | .binary op l r, n => ∃ v w, l.MayTake s v ∧ r.MayTake s w ∧ op.Yields v w n
  | .unrecognised, _ => True

def MayBe (s : Store) : Expr → Bool → Prop
  | .constant (.truth b), outcome => outcome = b
  | .unary .not e, outcome => e.MayBe s (!outcome)
  | .binary op l r, outcome => op.isComparison = true →
      ∃ v w, l.MayTake s v ∧ r.MayTake s w ∧ op.holds v w = outcome
  | _, _ => True

end Expr

namespace Verdict

def Admits : Verdict → Bool → Prop
  | .holds, outcome => outcome = true
  | .fails, outcome => outcome = false
  | .unknown, _ => True
  | .contradiction, _ => False

theorem negateUnknown {verdict : Verdict} : verdict.negate = .unknown ↔ verdict = .unknown := by
  cases verdict <;> simp [negate]

theorem negateFails {verdict : Verdict} : verdict.negate = .fails ↔ verdict = .holds := by
  cases verdict <;> simp [negate]

theorem negateHolds {verdict : Verdict} : verdict.negate = .holds ↔ verdict = .fails := by
  cases verdict <;> simp [negate]

theorem negateContradiction {verdict : Verdict} :
    verdict.negate = .contradiction ↔ verdict = .contradiction := by
  cases verdict <;> simp [negate]

theorem admitsNegate {verdict : Verdict} {outcome : Bool} :
    verdict.negate.Admits outcome ↔ verdict.Admits (!outcome) := by
  cases verdict <;> cases outcome <;> simp [negate, Admits]

theorem admitsMeet {a b : Verdict} {outcome : Bool} :
    (a.meet b).Admits outcome ↔ a.Admits outcome ∧ b.Admits outcome := by
  cases a <;> cases b <;> cases outcome <;> simp [meet, Admits]

theorem admitsOf {b outcome : Bool} : (of b).Admits outcome ↔ outcome = b := by
  cases b <;> simp [of, Admits]

/-- The best verdict on the outcomes of the cases that occur: definite exactly if all of them have one
outcome, and unknown otherwise. -/
structure Decides {α : Type} (occurs : α → Prop) (outcome : α → Bool) (verdict : Verdict) : Prop where
  holds : verdict = .holds ↔ ∀ x, occurs x → outcome x = true
  fails : verdict = .fails ↔ ∀ x, occurs x → outcome x = false
  unknown : verdict = .unknown ↔
    (∃ x, occurs x ∧ outcome x = true) ∧ ∃ x, occurs x ∧ outcome x = false

section
variable {α : Type} {occurs : α → Prop} {outcome : α → Bool} {verdict : Verdict}

theorem definiteExact (occurring : ∃ x, occurs x) (sound : ∀ x, occurs x → verdict.Admits (outcome x))
    (undecided : verdict = .unknown → ∀ b, ∃ x, occurs x ∧ outcome x = b) (b : Bool) :
    verdict = .of b ↔ ∀ x, occurs x → outcome x = b := by
  constructor
  · intro same x inside
    subst same
    exact admitsOf.mp (sound x inside)
  · intro all
    obtain ⟨x, inside⟩ := occurring
    have admits := sound x inside
    rw [all x inside] at admits
    cases verdict with
    | holds => rw [show b = true from admits]; rfl
    | fails => rw [show b = false from admits]; rfl
    | unknown =>
      obtain ⟨y, inside', other⟩ := undecided rfl (!b)
      rw [all y inside'] at other
      simp at other
    | contradiction => exact admits.elim

theorem decidesOf (occurring : ∃ x, occurs x) (sound : ∀ x, occurs x → verdict.Admits (outcome x))
    (undecided : verdict = .unknown → ∀ b, ∃ x, occurs x ∧ outcome x = b) :
    Decides occurs outcome verdict where
  holds := definiteExact occurring sound undecided true
  fails := definiteExact occurring sound undecided false
  unknown := by
    refine ⟨fun same => ⟨undecided same true, undecided same false⟩, fun both => ?_⟩
    obtain ⟨⟨x, inside, holds⟩, y, inside', fails⟩ := both
    have first := sound x inside
    have second := sound y inside'
    rw [holds] at first
    rw [fails] at second
    cases verdict <;> simp_all [Admits]

theorem Decides.negate (decides : Decides occurs outcome verdict) :
    Decides occurs (fun x => !outcome x) verdict.negate where
  holds := by simpa [negateHolds] using decides.fails
  fails := by simpa [negateFails] using decides.holds
  unknown := by simpa [negateUnknown, and_comm] using decides.unknown

end

end Verdict
end Abstraction
