import Abstraction.Proofs.Faults
import Abstraction.Proofs.Reached

/-! The halves of every pentagon that operations lead to: impossible together and then empty, with
nothing stored but intervals whose ends are integers or the infinity of their side. -/
namespace Abstraction.Pentagon
open ArithmeticFault (OnlyBySize yields)

variable {p : Pentagon}

theorem Consistent.boundsEmpty (consistent : p.Consistent) (impossible : p.bounds.isBottom = true) :
    p.bounds.table.entries = [] := by
  rw [consistent.compact.impossible impossible]
  rfl

theorem Declared.intervalsEmpty (declared : p.Declared) (impossible : p.intervals.isBottom = true) :
    p.intervals.table.entries = [] := by
  rw [declared.intervals.impossible impossible]
  rfl

theorem lowerEnd {lo hi : Number} (integral : lo.Integral) (proper : Interval.Proper lo hi) :
    lo = .negInf ∨ ∃ m, lo = .int m := by
  cases lo with
  | negInf => exact .inl rfl
  | int m => exact .inr ⟨m, rfl⟩
  | double x => contradiction
  | posInf => exact (proper.2.1 rfl).elim

theorem upperEnd {lo hi : Number} (integral : hi.Integral) (proper : Interval.Proper lo hi) :
    hi = .posInf ∨ ∃ m, hi = .int m := by
  cases hi with
  | negInf => exact (proper.2.2 rfl).elim
  | int m => exact .inr ⟨m, rfl⟩
  | double x => contradiction
  | posInf => exact .inl rfl

theorem Consistent.storedInterval {k : Identifier} {v : Interval} (consistent : p.Consistent)
    (found : p.intervals.table.find k = some v) :
    ∃ lo hi proper, v = .range lo hi proper ∧ lo ≤ hi ∧
      (lo = .negInf ∨ ∃ m, lo = .int m) ∧ (hi = .posInf ∨ ∃ m, hi = .int m) := by
  have integral : v.Integral := consistent.occupied.regular k v found
  have full : v.isEmpty = false := consistent.occupied.possible k v found
  cases v with
  | empty => contradiction
  | range lo hi proper =>
    exact ⟨lo, hi, proper, rfl, proper.1, lowerEnd integral.1 proper, upperEnd integral.2 proper⟩

/- The last part says that nothing indeterminate is computed on the way: an assignment or a guard
fails on such a pentagon only where an integer is too large for a double. -/
theorem reachedHalves (s : State) (reached : State.ReachedFrom (.pentagon .top) s) :
    ∃ p, s = .pentagon p ∧ (p.bounds.isBottom = true ↔ p.intervals.isBottom = true) ∧
      (p.bounds.isBottom = true → p.bounds.table.entries = []) ∧
      (p.intervals.isBottom = true → p.intervals.table.entries = []) ∧
      (∀ k v, p.intervals.table.find k = some v → ∃ lo hi proper, v = .range lo hi proper ∧
        lo ≤ hi ∧ (lo = .negInf ∨ ∃ m, lo = .int m) ∧ (hi = .posInf ∨ ∃ m, hi = .int m)) ∧
      ∀ id e, OnlyBySize (p.assign id e) ∧ OnlyBySize (p.assume e) := by
  cases reached.wellFormed .pentagon with
  | @pentagon _ p consistent declared =>
    have regular : p.intervals.Regular := consistent.occupied.regular
    exact ⟨p, rfl, by rw [consistent.agree], consistent.boundsEmpty, declared.intervalsEmpty,
      fun _ _ => consistent.storedInterval,
      fun id e => ⟨assignBySize regular id e, assumeBySize regular e⟩⟩

theorem reachedHalvesCall :
    let x := Identifier.visible "x"
    let y := Identifier.visible "y"
    let z := Identifier.visible "z"
    let f := ScopeToken.text "f"
    let less (i j : Identifier) := Expr.binary .lt (.identifier i) (.identifier j)
    ∃ p q r, top.assume (less x y) = .ok p ∧
      p.assign z (.binary .sub (.identifier y) (.identifier x)) = .ok q ∧
      q.assume (less y x) = .ok r ∧
      (q.pushScope f).intervals.table.find (z.hide f) = some (.atLeast (.int 1)) ∧
      (q.pushScope f).bounds.isBottom = false ∧ (q.pushScope f).intervals.isBottom = false ∧
      r.bounds.isBottom = true ∧ r.intervals.isBottom = true ∧
      r.bounds.table.entries = [] ∧ r.intervals.table.entries = [] := by
  intro x y z f less
  obtain ⟨p, assumed, check⟩ : ∃ p, top.assume (less x y) = .ok p ∧
      ((p.assign z (.binary .sub (.identifier y) (.identifier x))).toOption.any fun q =>
        decide ((q.pushScope f).intervals.table.find (z.hide f) = some (.atLeast (.int 1)) ∧
          (q.pushScope f).bounds.isBottom = false ∧
          ((q.assume (less y x)).toOption.any fun r => decide (r.bounds.isBottom = true)) = true)) =
        true :=
    yields (by decide +kernel)
  obtain ⟨q, assigned, stored, possible, check⟩ := yields check
  obtain ⟨r, refuted, impossible⟩ := yields check
  have guarded : (State.pentagon top).assume (less x y) = .ok (.pentagon p) := by
    rw [State.assume, assumed]; rfl
  have computed : (State.pentagon p).assign z (.binary .sub (.identifier y) (.identifier x)) =
      .ok (.pentagon q) := by rw [State.assign, assigned]; rfl
  have closed : (State.pentagon q).assume (less y x) = .ok (.pentagon r) := by
    rw [State.assume, refuted]; rfl
  have before : State.ReachedFrom (.pentagon top) (.pentagon q) :=
    .assign computed (.assume guarded .start)
  obtain ⟨_, same, together, _⟩ := reachedHalves _ (.pushScope f before)
  cases same
  obtain ⟨_, same, together', boundsEmpty, intervalsEmpty, _⟩ :=
    reachedHalves _ (.assume closed before)
  cases same
  refine ⟨p, q, r, assumed, assigned, refuted, stored, possible, ?_, impossible,
    together'.mp impossible, boundsEmpty impossible, intervalsEmpty (together'.mp impossible)⟩
  exact Bool.eq_false_iff.mpr fun half => Bool.eq_false_iff.mp possible (together.mpr half)

end Abstraction.Pentagon
