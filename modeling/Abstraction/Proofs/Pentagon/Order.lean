import Abstraction.Proofs.Pentagon.Soundness
import Abstraction.Proofs.Pentagon.Invariant

/-! The order of pentagons against stores. The smaller pentagon has to imply each bound of the larger
one, but a bound counts as implied where the larger one has no interval for its upper identifier.
So the order loses no store of the intervals, and none of the bounds that it asks for. -/
namespace Abstraction.Pentagon
open ArithmeticFault (yields)

variable {p q : Pentagon} {s : Store} {x y : Identifier}

theorem provablyBelowSound {a b : Interval} (below : provablyBelow a b = true) {m n : Int}
    (first : m ∈ a) (second : n ∈ b) : m < n := by
  cases a with
  | empty => contradiction
  | range lo hi _ =>
  cases b with
  | empty => contradiction
  | range lo' hi' _ =>
    have gap : hi < lo' := of_decide_eq_true below
    have high : .int m ≤ hi := (Interval.memRange.mp first).2
    have low : lo' ≤ .int n := (Interval.memRange.mp second).1
    exact Number.intLt.mp (lt_of_le_of_lt high (lt_of_lt_of_le gap low))

theorem entailsSound (inside : s ∈ p) (entails : p.Entails x y) : s x < s y := by
  rcases entails with recorded | below
  · exact inside.1.2 x y recorded
  · exact provablyBelowSound below (Environment.memGet inside.2 x) (Environment.memGet inside.2 y)

/-- Why the order does not miss a bound of the larger pentagon `q` in `p`. -/
inductive Accepts (p q : Pentagon) (x y : Identifier) : Prop where
  | recorded (bound : y ∈ p.bounds.get x)
  | empty (vacant : (p.intervals.get x).isEmpty = true)
  | unrestricted (whole : (q.intervals.get y).isWhole = true)
  | proved (below : provablyBelow (p.intervals.get x) (p.intervals.get y) = true)

theorem impliesBoundExact : impliesBound p q x y = true ↔ Accepts p q x y := by
  simp only [impliesBound, Bool.or_eq_true, decide_eq_true_eq]
  constructor
  · intro reason
    rcases reason with ((bound | vacant) | whole) | below
    · exact .recorded bound
    · exact .empty vacant
    · exact .unrestricted whole
    · exact .proved below
  · intro accepts
    cases accepts with
    | recorded bound => exact .inl (.inl (.inl bound))
    | empty vacant => exact .inl (.inl (.inr vacant))
    | unrestricted whole => exact .inl (.inr whole)
    | proved below => exact .inr below

theorem leqExact : p.leq q = true ↔ p.intervals.leq q.intervals = true ∧
    ∀ x y, y ∈ q.bounds.get x → Accepts p q x y := by
  rw [leq, Bool.and_eq_true]
  refine and_congr_right fun _ => ?_
  constructor
  · intro all x y bound
    obtain ⟨above, found, member⟩ := Reach.edgeExact.mp bound
    have accepted := List.all_eq_true.mp all (x, above) (Table.findExact.mp found)
    exact impliesBoundExact.mp (List.all_eq_true.mp accepted y member)
  · intro all
    refine List.all_eq_true.mpr fun entry stored => List.all_eq_true.mpr fun y member => ?_
    have bound : y ∈ q.bounds.get entry.1 :=
      Reach.edgeExact.mpr ⟨entry.2, Table.findExact.mpr stored, member⟩
    exact impliesBoundExact.mpr (all entry.1 y bound)

theorem acceptedBound (inside : s ∈ p) (order : p.leq q = true) (bound : y ∈ q.bounds.get x) :
    p.Entails x y ∨ (q.intervals.get y).isWhole = true := by
  cases (leqExact.mp order).2 x y bound with
  | recorded bound => exact .inl (.inl bound)
  | empty vacant =>
    -- The store has a value for `x`, so its interval is not empty.
    have value := Environment.memGet inside.2 x
    cases range : p.intervals.get x with
    | empty => rw [range] at value; exact (Interval.notMemEmpty _ value).elim
    | range => rw [range] at vacant; contradiction
  | unrestricted whole => exact .inr whole
  | proved below => exact .inl (.inr below)

theorem orderSound (p q : Pentagon) (reachable : Reachable q) (order : p.leq q = true) (s : Store)
    (inside : s ∈ p) :
    q.bounds.isBottom = false ∧ s ∈ q.intervals ∧
      ∀ x y, y ∈ q.bounds.get x → (q.intervals.get y).isWhole = false → s x < s y := by
  have within : s ∈ q.intervals := Environment.leqSound (Bool.and_eq_true_iff.mp order).1 inside.2
  refine ⟨reachable.consistent.agree.trans within.1, within, fun x y bound restricted => ?_⟩
  rcases acceptedBound inside order bound with entails | whole
  · exact entailsSound inside entails
  · rw [whole] at restricted; contradiction

theorem orderSoundProvedBound :
    let x := Identifier.visible "x"
    let y := Identifier.visible "y"
    let guards := [Expr.binary .lt (.identifier x) (.identifier y),
      .binary .le (.identifier y) (.constant (.number (.int 5)))]
    let p : Pentagon := ⟨.top, ⟨.value, .ofList [(x, .const (.int 1)), (y, .const (.int 3))]⟩⟩
    let s : Store := fun k => if k = x then 1 else 3
    ∃ q, top.assumeAll guards = .ok q ∧ p.leq q = true ∧ s ∈ p ∧
      y ∈ q.bounds.get x ∧ (q.intervals.get y).isWhole = false ∧ s ∈ q.intervals ∧ s x < s y := by
  intro x y guards p s
  have inside : s ∈ p := by decide +kernel
  obtain ⟨q, ok, order, bound, restricted⟩ : ∃ q, top.assumeAll guards = .ok q ∧ p.leq q = true ∧
      y ∈ q.bounds.get x ∧ (q.intervals.get y).isWhole = false := yields (by decide +kernel)
  have reachable : Reachable q := ReachableBy.top.assumeAll ok
  obtain ⟨_, within, keeps⟩ := orderSound p q reachable order s inside
  exact ⟨q, ok, order, inside, bound, restricted, within, keeps x y bound restricted⟩

/-- The bound of an identifier without an interval is not asked for: the pentagon that knows nothing is
below the one with `x < y`, which has fewer stores. -/
theorem orderSkipsUnrestrictedBound :
    ∃ p q : Pentagon, ∃ s : Store, Reachable p ∧ Reachable q ∧ p.leq q = true ∧ s ∈ p ∧ s ∉ q := by
  let guard := Expr.binary .lt (.identifier (.visible "x")) (.identifier (.visible "y"))
  let s : Store := fun _ => 0
  obtain ⟨q, ok, order, outside⟩ : ∃ q, top.assume guard = .ok q ∧ top.leq q = true ∧ s ∉ q :=
    yields (by decide +kernel)
  exact ⟨top, q, s, .top, .assume ok .top, order, by decide, outside⟩

end Abstraction.Pentagon
