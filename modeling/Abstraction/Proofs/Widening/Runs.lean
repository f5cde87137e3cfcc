import Mathlib.Order.Filter.AtTopBot.Basic
import Mathlib.Order.Filter.Finite
import Mathlib.Order.OrderIsoNat

/-! Runs of a widening against any sequence of states, and the two arguments by which they settle: a run
leaves the impossible state at most once, and a rank that only falls in a well-founded order is
constant from some point on. -/
namespace Abstraction
open Filter (Eventually atTop)

variable {S : Type}

def widenings (widen : S → S → S) (start : S) (next : Nat → S) : Nat → S
  | 0 => start
  | n + 1 => widen (widenings widen start next n) (next n)

def Settles (leq : S → S → Bool) (run : Nat → S) : Prop :=
  ∃ N, ∀ n ≥ N, leq (run (n + 1)) (run n) = true

theorem settlesExact {leq : S → S → Bool} {run : Nat → S} :
    Settles leq run ↔ ∀ᶠ n in atTop, leq (run (n + 1)) (run n) = true :=
  Filter.eventually_atTop.symm

theorem rankSteady {R : Type} [PartialOrder R] [WellFoundedLT R] (rank : Nat → R) {m : Nat}
    (falls : ∀ n ≥ m, rank (n + 1) ≤ rank n) : ∀ᶠ n in atTop, rank (n + 1) = rank n := by
  have antitone : Antitone fun n => rank (m + n) :=
    antitone_nat_of_succ_le fun n => falls (m + n) (Nat.le_add_right m n)
  obtain ⟨N, constant⟩ := WellFoundedLT.antitone_chain_condition antitone
  refine Filter.eventually_atTop.mpr ⟨m + N, fun n late => ?_⟩
  obtain ⟨k, rfl⟩ := Nat.exists_eq_add_of_le late
  have here : rank (m + N) = rank (m + (N + k)) := constant (N + k) (by omega)
  have there : rank (m + N) = rank (m + (N + k + 1)) := constant (N + k + 1) (by omega)
  rw [Nat.add_assoc m N k]
  exact there.symm.trans here

/- A run that is possible once stays possible; before that every step is one out of the impossible
state into itself. -/
theorem settlesOfPossible {leq : S → S → Bool} (impossible : S → Bool) {run : Nat → S}
    (below : ∀ s t, impossible s = true → leq s t = true)
    (stays : ∀ n, impossible (run n) = false → impossible (run (n + 1)) = false)
    (settled : ∀ m, (∀ n ≥ m, impossible (run n) = false) →
      ∀ᶠ n in atTop, leq (run (n + 1)) (run n) = true) : Settles leq run := by
  by_cases ever : ∃ m, impossible (run m) = false
  · obtain ⟨m, possible⟩ := ever
    refine settlesExact.mpr (settled m fun n late => ?_)
    induction n, late using Nat.le_induction with
    | base => exact possible
    | succ n _ ih => exact stays n ih
  · refine ⟨0, fun n _ => below _ _ ?_⟩
    by_contra possible
    exact ever ⟨n + 1, Bool.eq_false_iff.mpr possible⟩

end Abstraction
