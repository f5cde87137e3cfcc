import Abstraction.Proofs.Environment.Lattice
import Abstraction.Proofs.Interval.Order
import Abstraction.Proofs.Pentagon.Order
import Abstraction.Proofs.UpperBounds.Lattice

/-! Lattice operations on pentagons against stores. A bound that a join restores is recorded by one
operand and proved by the intervals of the other, so each store of either operand satisfies it
for a reason of its own. A meet has exactly the common stores, also where one half alone finds none. -/
namespace Abstraction.Pentagon

variable {p q : Pentagon} {s : Store} {x y : Identifier}

inductive EndsBefore : Interval → Interval → Prop where
  | gap {lo hi lo' hi' : Number} (proper : Interval.Proper lo hi) (proper' : Interval.Proper lo' hi')
      (less : hi < lo') : EndsBefore (.range lo hi proper) (.range lo' hi' proper')

theorem provablyBelowExact {a b : Interval} : provablyBelow a b = true ↔ EndsBefore a b := by
  constructor
  · intro below
    cases a with
    | empty => contradiction
    | range lo hi proper =>
    cases b with
    | empty => contradiction
    | range lo' hi' proper' => exact .gap proper proper' (of_decide_eq_true below)
  · intro before
    obtain ⟨_, _, less⟩ := before
    exact decide_eq_true less

theorem memReduced : s ∈ p.reduced ↔ s ∈ p := by
  constructor
  · intro inside
    obtain collapsed | ⟨same, _⟩ := reducedCases p
    · rw [collapsed] at inside
      exact (UpperBounds.notMemBottom s inside.1).elim
    · rwa [same] at inside
  · exact reducedOfMem

theorem recoverSound {target source : UpperBounds} {intervals : Environment Interval}
    (inside : s ∈ target)
    (justified : ∀ x y, y ∈ source.get x →
      provablyBelow (intervals.get x) (intervals.get y) = true → s x < s y) :
    s ∈ recover target source intervals := by
  refine ⟨(isBottomRecover _ _ _).trans inside.1, fun x y bound => ?_⟩
  rcases (memGetRecover inside.1).mp bound with kept | ⟨recorded, proved⟩
  · exact inside.2 x y kept
  · exact justified x y recorded proved

theorem joinSound (left : p.intervals.Regular) (right : q.intervals.Regular)
    (inside : s ∈ p ∨ s ∈ q) : s ∈ p.join q := by
  have shared : s ∈ p.bounds.join q.bounds := UpperBounds.joinSound (inside.imp And.left And.left)
  have first : s ∈ recover (p.bounds.join q.bounds) p.bounds q.intervals := by
    refine recoverSound shared fun x y recorded proved => ?_
    rcases inside with member | member
    · exact member.1.2 x y recorded
    · exact entailsSound member (.inr proved)
  refine ⟨recoverSound first fun x y recorded proved => ?_,
    Environment.joinSound left right (inside.imp And.right And.right)⟩
  rcases inside with member | member
  · exact entailsSound member (.inr proved)
  · exact member.1.2 x y recorded

theorem widenSound (left : p.intervals.Regular) (right : q.intervals.Regular)
    (inside : s ∈ p ∨ s ∈ q) : s ∈ p.widen q :=
  ⟨UpperBounds.widenSound (inside.imp And.left And.left),
    Environment.widenSound left right (inside.imp And.right And.right)⟩

theorem memMeet (left : p.intervals.Regular) (right : q.intervals.Regular) :
    s ∈ p.meet q ↔ s ∈ p ∧ s ∈ q := by
  rw [meet, memReduced]
  change s ∈ p.bounds.meet q.bounds ∧ s ∈ p.intervals.meet q.intervals ↔
    (s ∈ p.bounds ∧ s ∈ p.intervals) ∧ s ∈ q.bounds ∧ s ∈ q.intervals
  rw [UpperBounds.memMeet, Environment.memMeet left right, and_and_and_comm]

theorem latticeSound (p q : Pentagon)
    (left : ∀ k a, p.intervals.table.find k = some a → a.Integral)
    (right : ∀ k a, q.intervals.table.find k = some a → a.Integral) :
    (∀ s : Store, s ∈ p ∨ s ∈ q → s ∈ p.join q ∧ s ∈ p.widen q) ∧
    (∀ s : Store, s ∈ p.meet q ↔ s ∈ p ∧ s ∈ q) ∧
    (p.bounds.isBottom = false → q.bounds.isBottom = false → ∀ x y,
      y ∈ (p.join q).bounds.get x ↔
        (y ∈ p.bounds.get x ∧
          (y ∈ q.bounds.get x ∨ EndsBefore (q.intervals.get x) (q.intervals.get y))) ∨
        (y ∈ q.bounds.get x ∧
          (y ∈ p.bounds.get x ∨ EndsBefore (p.intervals.get x) (p.intervals.get y)))) := by
  refine ⟨fun s inside => ⟨joinSound left right inside, widenSound left right inside⟩,
    fun s => memMeet left right, fun possible possible' x y => ?_⟩
  rw [memGetJoin possible possible', Shared, Entails, Entails, provablyBelowExact,
    provablyBelowExact]

/-- The join of `x < y` with the intervals `x = 0` and `1 ≤ y` keeps the bound, and with it a store of
each; the common store `x = 0`, `y = 1` is in the meet. -/
theorem latticeSoundReadmitted :
    let x := Identifier.visible "x"
    let y := Identifier.visible "y"
    let p : Pentagon := ⟨.ofTable .value (.ofList [(x, .single y)]), .top⟩
    let q : Pentagon := ⟨.top, ⟨.value, .ofList [(x, .const (.int 0)), (y, .atLeast (.int 1))]⟩⟩
    let s : Store := fun k => if k = x then 0 else 1
    let t : Store := fun k => if k = x then -7 else -5
    y ∈ (p.join q).bounds.get x ∧ s ∈ p.meet q ∧ t ∈ p.join q ∧ t ∉ p.meet q := by
  intro x y p q s t
  obtain ⟨grows, meets, bounds⟩ := latticeSound p q nofun (by decide +kernel : q.intervals.Regular)
  have before : EndsBefore (q.intervals.get x) (q.intervals.get y) :=
    provablyBelowExact.mp (by decide +kernel)
  have outside : t ∉ q := by decide +kernel
  exact ⟨(bounds rfl rfl x y).mpr (.inl ⟨by decide +kernel, .inr before⟩),
    (meets s).mpr (by decide +kernel), (grows t (.inl (by decide +kernel))).1,
    fun member => outside ((meets t).mp member).2⟩

end Abstraction.Pentagon
