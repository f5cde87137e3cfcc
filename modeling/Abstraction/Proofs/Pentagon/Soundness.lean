import Abstraction.Proofs.Environment.Soundness
import Abstraction.Proofs.Interval.Guard
import Abstraction.Proofs.UpperBounds.Soundness
import Abstraction.Proofs.Pentagon.Transfer

/-! Pentagons against stores. A store is in a pentagon if it is in both halves; assignment, assumption
and verdicts are sound for every pentagon whose intervals are integral, whatever its bounds. -/
namespace Abstraction.Pentagon
open ArithmeticFault (bindOk yields)

instance : Membership Store Pentagon := ⟨fun p s => s ∈ p.bounds ∧ s ∈ p.intervals⟩

instance (s : Store) (p : Pentagon) : Decidable (s ∈ p) :=
  inferInstanceAs (Decidable (s ∈ p.bounds ∧ s ∈ p.intervals))

variable {p q after : Pentagon} {s : Store} {e : Expr} {id x y : Identifier} {v : Int}

theorem reducedOfMem (inside : s ∈ p) : s ∈ p.reduced := by
  have kept : p.reduced = p := by simp [reduced, isBottom, inside.1.1, inside.2.1]
  rwa [kept]

theorem raisedIntervalsSound (regular : after.intervals.Regular) (inside : s ∈ after.intervals)
    (raised : x ∈ after.bounds.get y → 1 ≤ s id) : s ∈ after.raisedIntervals id x y := by
  unfold raisedIntervals
  split
  · rename_i below
    have bound : (Interval.atLeast (.int 1)).Integral :=
      Interval.integralOfBounds (Number.integralInt 1) Number.integralPosInf
    have own : (after.intervals.get id).Integral := Environment.regularGet regular inside.1 id
    rw [Environment.memPut regular (Interval.integralMeet own bound) inside.1,
      Interval.memMeet own bound, Interval.atLeast,
      Interval.memOfBounds (Number.integralInt 1) Number.integralPosInf, Number.intLe]
    exact ⟨⟨Environment.memGet inside id, raised below, Number.lePosInf _⟩,
      fun k _ w found => inside.2 k w found⟩
  · exact inside

theorem loweredBoundsSound (inside : s ∈ p) {z : Identifier}
    (member : z ∈ p.loweredBounds id x y) : s x - s y < s z := by
  obtain ⟨above, _, lo, hi, proper, same, positive⟩ := memLoweredBounds.mp member
  have inner := Environment.memGet inside.2 y
  rw [same, Interval.memRange] at inner
  have subtrahend : 0 < s y := Number.intLt.mp (lt_of_lt_of_le positive inner.1)
  rcases above with above | rfl
  · have order := inside.1.2 x z above
    omega
  · omega

theorem assignSound (regular : p.intervals.Regular) (inside : s ∈ p) (takes : e.MayTake s v)
    (ok : p.assign id e = .ok q) : s.set id v ∈ q := by
  obtain ⟨intervals, assigned, step⟩ := assigned ok
  have later := Environment.assignSound regular inside.2 takes assigned
  cases step with
  | halves => exact reducedOfMem ⟨UpperBounds.assignSound inside.1 takes, later⟩
  | difference x y after cleared =>
    subst cleared
    obtain ⟨_, _, rfl, rfl, value⟩ := takes
    have forgotten : UpperBounds.Placed p.bounds id _ _ _ := UpperBounds.placedForget inside.1.1
    refine reducedOfMem ⟨?_, ?_⟩
    · refine UpperBounds.placedSound forgotten.put inside.1 (fun _ => False.elim) fun z member => ?_
      rw [value]
      exact ⟨(memLoweredBounds.mp member).2.1, loweredBoundsSound inside member⟩
    · refine raisedIntervalsSound (Environment.regularAssign regular assigned) later fun below => ?_
      -- Nothing is recorded about `id` any more, so the bound was recorded before.
      obtain ⟨_, _, kept⟩ := (UpperBounds.memGetForget inside.1.1).mp below
      have order := inside.1.2 y x kept
      rw [Store.setSame, value]
      omega

theorem satisfiesSound (regular : p.intervals.Regular) (inside : s ∈ p) {outcome : Bool}
    {verdict : Verdict} (may : e.MayBe s outcome) (ok : p.satisfies e = .ok verdict) :
    verdict.Admits outcome := by
  obtain ⟨answer, judged, ok⟩ := bindOk ok
  cases ok
  exact Verdict.admitsMeet.mpr ⟨UpperBounds.satisfiesSound inside.1 may,
    Environment.satisfiesSound regular inside.2 may judged⟩

theorem assumeSound (regular : p.intervals.Regular) (inside : s ∈ p) (may : e.MayBe s true)
    (ok : p.assume e = .ok q) : s ∈ q := by
  obtain ⟨intervals, refined, rfl⟩ := assumed ok
  exact reducedOfMem ⟨UpperBounds.assumeSound inside.1 may,
    Environment.assumeSound regular inside.2 may refined⟩

theorem transferSound (p : Pentagon)
    (integral : ∀ k a, p.intervals.table.find k = some a → a.Integral) (s : Store) (inside : s ∈ p)
    (e : Expr) :
    (∀ id v q, e.MayTake s v → p.assign id e = .ok q → s.set id v ∈ q) ∧
      (p.satisfies e = .ok .holds → ¬ e.MayBe s false) ∧
      (p.satisfies e = .ok .fails → ¬ e.MayBe s true) ∧
      (∀ q, e.MayBe s true → p.assume e = .ok q → s ∈ q) := by
  refine ⟨fun id v q takes ok => assignSound integral inside takes ok, ?_, ?_,
    fun q may ok => assumeSound integral inside may ok⟩
  · intro answer may
    exact absurd (satisfiesSound integral inside may answer) Bool.false_ne_true
  · intro answer may
    exact absurd (satisfiesSound integral inside may answer).symm Bool.false_ne_true

theorem transferSoundDifference :
    let x := Identifier.visible "x"
    let y := Identifier.visible "y"
    let r := Identifier.visible "r"
    let p : Pentagon := ⟨.ofTable .value (.ofList [(y, .single x)]),
      ⟨.value, .ofList [(y, .atLeast (.int 1)), (x, .atLeast (.int 2))]⟩⟩
    let s : Store := fun k => if k = x then 5 else 2
    let difference := Expr.binary .sub (.identifier x) (.identifier y)
    let guard := Expr.binary .lt (.identifier y) (.identifier x)
    (∃ q, p.assign r difference = .ok q ∧ s.set r 3 ∈ q) ∧
      (p.satisfies guard = .ok .holds ∧ ¬ guard.MayBe s false) ∧
      ∃ q, p.assume guard = .ok q ∧ s ∈ q := by
  intro x y r p s difference guard
  have integral : p.intervals.Regular := by decide +kernel
  have inside : s ∈ p := by decide +kernel
  have answer : p.satisfies guard = .ok .holds := by decide +kernel
  refine ⟨?_, ⟨answer, (transferSound p integral s inside guard).2.1 answer⟩, ?_⟩
  · have takes : difference.MayTake s 3 := ⟨5, 2, rfl, rfl, rfl⟩
    obtain ⟨q, ok, _⟩ : ∃ q, p.assign r difference = .ok q ∧ q.isBottom = false :=
      yields (by decide +kernel)
    exact ⟨q, ok, (transferSound p integral s inside difference).1 r 3 q takes ok⟩
  · have may : guard.MayBe s true := fun _ => ⟨2, 5, rfl, rfl, rfl⟩
    obtain ⟨q, ok, _⟩ : ∃ q, p.assume guard = .ok q ∧ q.isBottom = false :=
      yields (by decide +kernel)
    exact ⟨q, ok, (transferSound p integral s inside guard).2.2.2 q may ok⟩

end Abstraction.Pentagon
