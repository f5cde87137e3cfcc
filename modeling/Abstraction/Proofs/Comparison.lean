import Abstraction.Proofs.Congruence.Monotone
import Abstraction.Proofs.Interval.Monotone

/-! Comparisons of values are answered as well as their members allow. A verdict is definite exactly if
the comparison has one outcome between all members of the operands, for intervals as for congruence
classes: what a domain has to show is that its verdicts are sound, and that an unknown one is open. -/
namespace Abstraction
open SoundDomain (Regular)

theorem MonotoneDomain.compareDecides {V : Type} [ValueDomain V] [Membership Int V] [SoundDomain V]
    [MonotoneDomain V] {op : Operator} {v w : V} (comparison : op.isComparison = true)
    (left : Regular v) (right : Regular w) (full : ValueDomain.isBottom v = false)
    (full' : ValueDomain.isBottom w = false) :
    Verdict.Decides (fun pair : Int × Int => pair.1 ∈ v ∧ pair.2 ∈ w)
      (fun pair => op.holds pair.1 pair.2) (ValueDomain.compare op v w) := by
  obtain ⟨m, first⟩ := SoundDomain.memberOfPossible left full
  obtain ⟨k, second⟩ := SoundDomain.memberOfPossible right full'
  apply Verdict.decidesOf ⟨(m, k), first, second⟩
  · intro pair inside
    exact SoundDomain.compareSound comparison left right inside.1 inside.2
  · intro unknown outcome
    obtain ⟨x, first, y, second, holds⟩ :=
      compareOpen comparison left right full full' unknown outcome
    exact ⟨(x, y), ⟨first, second⟩, holds⟩

theorem comparisonsDecided (op : Operator) (comparison : op.isComparison = true) :
    (∀ a b : Interval, a.Integral → b.Integral → a.isEmpty = false → b.isEmpty = false →
      Verdict.Decides (fun pair : Int × Int => pair.1 ∈ a ∧ pair.2 ∈ b)
        (fun pair => op.holds pair.1 pair.2) (Interval.compare op a b)) ∧
    ∀ a b : Congruence, a.isEmpty = false → b.isEmpty = false →
      Verdict.Decides (fun pair : Int × Int => pair.1 ∈ a ∧ pair.2 ∈ b)
        (fun pair => op.holds pair.1 pair.2) (Congruence.compare op a b) :=
  ⟨fun _ _ left right full full' =>
      MonotoneDomain.compareDecides comparison left right full full',
    fun _ _ full full' => MonotoneDomain.compareDecides comparison trivial trivial full full'⟩

/- Two rays that share one end are in order but not strictly. The classes of 2 modulo 4 and of 3 modulo
6 share no member, while two members of one class may be equal or not. -/
theorem comparisonsDecidedEnds :
    let lower := Interval.atMost (.int 5)
    let upper := Interval.atLeast (.int 5)
    let even := Congruence.ofParts 4 2
    let odd := Congruence.ofParts 6 3
    (∀ x ∈ lower, ∀ y ∈ upper, x ≤ y) ∧ (∃ x ∈ lower, ∃ y ∈ upper, ¬ x < y) ∧
      (∀ x ∈ even, ∀ y ∈ odd, x ≠ y) ∧ ∃ x ∈ even, ∃ y ∈ even, x ≠ y := by
  intro lower upper even odd
  have order (op : Operator) (comparison : op.isComparison = true) :=
    (comparisonsDecided op comparison).1 lower upper (by decide +kernel) (by decide +kernel)
      (by decide +kernel) (by decide +kernel)
  have equality := (comparisonsDecided .eq rfl).2
  have ordered := (order .le rfl).holds.mp (by decide +kernel)
  obtain ⟨_, pair, inside, apart⟩ := (order .lt rfl).unknown.mp (by decide +kernel)
  have disjoint := (equality even odd rfl rfl).fails.mp (by decide +kernel)
  obtain ⟨_, pair', inside', apart'⟩ := (equality even even rfl rfl).unknown.mp (by decide +kernel)
  refine ⟨fun x first y second => ?_, ⟨pair.1, inside.1, pair.2, inside.2, ?_⟩,
    fun x first y second => ?_, pair'.1, inside'.1, pair'.2, inside'.2, ?_⟩
  · exact of_decide_eq_true (ordered (x, y) ⟨first, second⟩)
  · exact of_decide_eq_false apart
  · exact of_decide_eq_false (disjoint (x, y) ⟨first, second⟩)
  · exact of_decide_eq_false apart'

end Abstraction
