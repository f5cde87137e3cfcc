import Abstraction.Proofs.Reach
import Abstraction.Proofs.UpperBounds.Soundness

/-! Lattice operations on strict upper bounds against stores. A join or a widening keeps the stores of
both operands; a meet has exactly the common ones. It is impossible only where the bounds of both
lead back to an identifier, and then no store can satisfy them. -/
namespace Abstraction.UpperBounds
open Relation (TransGen)

variable {a b : UpperBounds} {s : Store} {x y : Identifier}

theorem notMemBottom (s : Store) : s ∉ bottom := fun inside => by
  have possible := inside.1
  contradiction

theorem mergedSound {next : UpperBounds} (inside : s ∈ a ∨ s ∈ b)
    (both : a.isBottom = false → b.isBottom = false → s ∈ next) :
    s ∈ (if a.isBottom then b else if b.isBottom then a else next) := by
  split
  · rename_i impossible
    exact inside.resolve_left fun member => by simp [member.1] at impossible
  split
  · rename_i impossible
    exact inside.resolve_right fun member => by simp [member.1] at impossible
  · exact both (Bool.eq_false_iff.mpr ‹_›) (Bool.eq_false_iff.mpr ‹_›)

theorem joinSound (inside : s ∈ a ∨ s ∈ b) : s ∈ a.join b := by
  refine mergedSound inside fun possible possible' => ⟨rfl, fun x y edge => ?_⟩
  have recorded : y ∈ (a.join b).get x := by
    rwa [join, if_neg (by simp [possible]), if_neg (by simp [possible'])]
  obtain ⟨first, second⟩ := (memGetJoin possible possible').mp recorded
  exact inside.elim (fun left => left.2 x y first) fun right => right.2 x y second

theorem widenSound (inside : s ∈ a ∨ s ∈ b) : s ∈ a.widen b := by
  refine mergedSound inside fun possible possible' => ⟨rfl, fun x y edge => ?_⟩
  have recorded : y ∈ (a.widen b).get x := by
    rwa [widen, if_neg (by simp [possible]), if_neg (by simp [possible'])]
  obtain ⟨first, kept⟩ := (memGetWiden possible possible').mp recorded
  exact inside.elim (fun left => left.2 x y first) fun right => right.2 x y (kept y first)

def Either (a b : UpperBounds) (x y : Identifier) : Prop := y ∈ a.get x ∨ y ∈ b.get x

theorem edgeBoth : Reach.Edge (.tabulate (a.table.keysOfBoth b.table) (Table.keysOfBothDistinct _ _)
    fun x => (a.get x).union (b.get x)) = Either a b := by
  funext x y
  apply propext
  rw [Reach.Edge, Reach.successors, Table.findTabulate]
  split
  · exact Names.memUnion
  · rename_i absent
    rw [Table.memKeysOfBoth, not_or] at absent
    exact iff_of_false (Names.notMemEmpty y) fun known =>
      known.elim (fun edge => absent.1 (Reach.edgeKey edge)) fun edge => absent.2 (Reach.edgeKey edge)

inductive Met (a b : UpperBounds) : UpperBounds → Prop where
  | cyclic {x : Identifier} (cycle : TransGen (Either a b) x x) : Met a b bottom
  | closed {next : UpperBounds} (possible : next.isBottom = false)
      (edges : ∀ x y, y ∈ next.get x ↔ TransGen (Either a b) x y) : Met a b next

theorem met (left : a.isBottom = false) (right : b.isBottom = false) : Met a b (a.meet b) := by
  rw [meet, if_neg (by simp [left, right])]
  split
  · rename_i closure
    refine .closed (possibleOfTable _) fun x y => ?_
    rw [memGetOfTable (by decide), Reach.closedExact closure, edgeBoth]
  · rename_i failed
    obtain ⟨x, cycle⟩ := Reach.cycleOfNotClosed failed
    rw [edgeBoth] at cycle
    exact .cyclic cycle

theorem meetKeeps (possible : (a.meet b).isBottom = false) (edge : Either a b x y) :
    y ∈ (a.meet b).get x := by
  have operands : a.isBottom = false ∧ b.isBottom = false := by
    unfold meet at possible
    split at possible <;> try contradiction
    rename_i neither
    simpa only [Bool.or_eq_true, not_or, Bool.not_eq_true] using neither
  have step := met operands.1 operands.2
  generalize a.meet b = next at step possible
  cases step with
  | cyclic => contradiction
  | closed _ edges => exact (edges x y).mpr (.single edge)

theorem wayRises (first : s ∈ a) (second : s ∈ b) (way : TransGen (Either a b) x y) :
    s x < s y := by
  have rises {x y : Identifier} (edge : Either a b x y) : s x < s y :=
    edge.elim (first.2 x y) (second.2 x y)
  induction way with
  | single edge => exact rises edge
  | tail _ edge before => exact Int.lt_trans before (rises edge)

theorem memMeet : s ∈ a.meet b ↔ s ∈ a ∧ s ∈ b := by
  cases left : a.isBottom with
  | true =>
    rw [meet, if_pos (by simp [left])]
    exact iff_of_false (notMemBottom s) fun both => by simp [both.1.1] at left
  | false =>
  cases right : b.isBottom with
  | true =>
    rw [meet, if_pos (by simp [right])]
    exact iff_of_false (notMemBottom s) fun both => by simp [both.2.1] at right
  | false =>
    have step := met left right
    generalize a.meet b = next at step
    cases step with
    | cyclic cycle =>
      exact iff_of_false (notMemBottom s) fun both => by
        have impossible := wayRises both.1 both.2 cycle
        omega
    | closed possible edges =>
      constructor
      · intro inside
        have rises {x y : Identifier} (edge : Either a b x y) : s x < s y :=
          inside.2 x y ((edges x y).mpr (.single edge))
        exact ⟨⟨left, fun x y edge => rises (.inl edge)⟩, right, fun x y edge => rises (.inr edge)⟩
      · intro both
        exact ⟨possible, fun x y edge => wayRises both.1 both.2 ((edges x y).mp edge)⟩

theorem memGetNarrow (left : a.isBottom = false) (right : b.isBottom = false) :
    (a.narrow b).isBottom = false ∧ ((∀ x y, y ∈ (a.narrow b).get x ↔ y ∈ a.get x) ∨
      ((∀ x y, y ∉ a.get x) ∧ ∀ x y, y ∈ (a.narrow b).get x ↔ y ∈ b.get x)) := by
  rw [narrow, if_neg (by simp [left, right])]
  split
  · rename_i unknown
    have empty := (Bool.and_eq_true_iff.mp unknown).2
    refine ⟨right, .inr ⟨fun x y edge => ?_, fun _ _ => Iff.rfl⟩⟩
    have listed : x ∈ a.table.keys := Reach.edgeKey edge
    rw [Table.keys, List.isEmpty_iff.mp empty] at listed
    contradiction
  · exact ⟨left, .inl fun _ _ => Iff.rfl⟩

end Abstraction.UpperBounds
