import Abstraction.Proofs.Congruence.Arithmetic
import Abstraction.Proofs.Environment.Order
import Abstraction.Proofs.Interval.Order

/-! What an environment says about an expression, against the stores in it: its value, the verdict on it
as a guard, and what is left where it holds. Whatever does not fail loses no store. Intervals have
to be integral; congruence classes need nothing. -/
namespace Abstraction.Environment
open ArithmeticFault (yields)

variable {V : Type} [ValueDomain V] [Membership Int V]

structure SoundOn (env : Environment V) (e : Expr) : Prop where
  value : ∀ v, env.eval e = .ok v → ∀ s : Store, s ∈ env → ∀ n, e.MayTake s n → n ∈ v
  holds : env.satisfies e = .ok .holds → ∀ s : Store, s ∈ env → ¬ e.MayBe s false
  fails : env.satisfies e = .ok .fails → ∀ s : Store, s ∈ env → ¬ e.MayBe s true
  keeps : ∀ next, env.assume e = .ok next → ∀ s : Store, s ∈ env → e.MayBe s true → s ∈ next
  below : ∀ next, env.assume e = .ok next → next.leq env = true

theorem soundOn [SoundDomain V] [ExactDomain V] {env : Environment V} (regular : env.Regular)
    (e : Expr) : env.SoundOn e where
  value v ok s inside n takes := by
    rw [evalPossible inside.1] at ok
    exact evalSound regular inside takes ok
  holds answer s inside may :=
    absurd (satisfiesSound regular inside may answer) Bool.false_ne_true
  fails answer s inside may :=
    absurd (satisfiesSound regular inside may answer).symm Bool.false_ne_true
  keeps next ok s inside may := assumeSound regular inside may ok
  below next ok := assumeBelow regular ok

theorem expressionsSound (e : Expr) :
    (∀ env : Environment Interval,
      (∀ k a, env.table.find k = some a → a.Integral) → env.SoundOn e) ∧
    ∀ env : Environment Congruence, env.SoundOn e :=
  ⟨fun _ integral => soundOn integral e, fun _ => soundOn (fun _ _ _ => trivial) e⟩

/-- Two negations around `x < y` take `x` from `[0, 10]` to `[0, 2]` where `y` is 3; the classes of 1
modulo 4 and of 3 modulo 6 meet in that of 9 modulo 12 where `x = y`. -/
theorem expressionsSoundMeeting :
    let x := Identifier.visible "x"
    let y := Identifier.visible "y"
    let less := Expr.unary .not (.unary .not (.binary .lt (.identifier x) (.identifier y)))
    let equal := Expr.binary .eq (.identifier x) (.identifier y)
    let ranges : Environment Interval :=
      ⟨.value, .ofList [(x, .ofBounds (.int 0) (.int 10)), (y, .const (.int 3))]⟩
    let classes : Environment Congruence :=
      ⟨.value, .ofList [(x, .ofParts 4 1), (y, .ofParts 6 3)]⟩
    let s : Store := fun k => if k = x then 2 else 3
    let t : Store := fun _ => 9
    (∃ next, ranges.assume less = .ok next ∧ next.get x = .ofBounds (.int 0) (.int 2) ∧ s ∈ next ∧
      next.leq ranges = true) ∧
    ∃ next, classes.assume equal = .ok next ∧ next.get x = .ofParts 12 9 ∧ t ∈ next ∧
      next.leq classes = true := by
  intro x y less equal ranges classes s t
  have integral : ranges.Regular := by decide +kernel
  have lessSound := (expressionsSound less).1 ranges integral
  have equalSound := (expressionsSound equal).2 classes
  constructor
  · obtain ⟨next, ok, value⟩ : ∃ next, ranges.assume less = .ok next ∧
        next.get x = .ofBounds (.int 0) (.int 2) := yields (by decide +kernel)
    have inside : s ∈ ranges := by decide +kernel
    have may : less.MayBe s true := fun _ => ⟨2, 3, rfl, rfl, rfl⟩
    exact ⟨next, ok, value, lessSound.keeps next ok s inside may, lessSound.below next ok⟩
  · obtain ⟨next, ok, value⟩ : ∃ next, classes.assume equal = .ok next ∧
        next.get x = .ofParts 12 9 := yields (by decide +kernel)
    have inside : t ∈ classes := by decide +kernel
    have may : equal.MayBe t true := fun _ => ⟨9, 9, rfl, rfl, rfl⟩
    exact ⟨next, ok, value, equalSound.keeps next ok t inside may, equalSound.below next ok⟩

end Abstraction.Environment
