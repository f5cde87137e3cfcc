import Abstraction.Proofs.Environment.Frame
import Abstraction.Proofs.Pentagon.Transfer

/-! What an assignment changes. Every other identifier keeps its interval, and its bounds up to the
target. A difference of two identifiers leaves no bound below its target; the bounds above it are
those of the minuend where the subtrahend was positive, and none where it was not. -/
namespace Abstraction

theorem Interval.meetLeqRight (a b : Interval) : (a.meet b).leq b = true := by
  cases a with
  | empty => rfl
  | range lo hi _ =>
  cases b with
  | empty => rfl
  | range low high _ =>
    rw [meet, ofBounds]
    split
    · have lower : low ≤ (lo.greatest low).normalise :=
        (Number.greatestRight lo low).trans (Number.normaliseValue _).2
      have upper : (hi.least high).normalise ≤ high :=
        (Number.normaliseValue _).1.trans (Number.leastRight hi high)
      exact decide_eq_true ⟨lower, upper⟩
    · rfl

namespace Environment

variable {V : Type} [ValueDomain V] {base env next : Environment V} {on : Identifier → Bool}
  {id k : Identifier} {v : V}

theorem Kept.get (kept : Kept on base next) (after : next.isBottom = false) (inside : on k = true) :
    next.get k = base.get k := by
  simp [Environment.get, kept.possible, after, kept.entries k inside]

theorem fullOfPut (possible : env.isBottom = false) (after : (env.put id v).isBottom = false) :
    ValueDomain.isBottom v = false := by
  rw [put, if_neg (by simp [possible]), isBottomOfTable] at after
  refine Bool.eq_false_iff.mpr fun empty => Bool.eq_false_iff.mp after ?_
  exact Table.anyValueExact.mpr ⟨id, v, by rw [Table.findSet, if_pos rfl], empty⟩

theorem operandsFull {env next : Environment Interval} {x y : Identifier}
    (possible : env.isBottom = false) (after : next.isBottom = false)
    (ok : env.assign id (.binary .sub (.identifier x) (.identifier y)) = .ok next) :
    ∃ lo hi proper, env.get y = .range lo hi proper := by
  obtain ⟨v, value, rfl⟩ := assignSource possible ok
  have full : v.isEmpty = false := fullOfPut possible after
  change (env.get x).sub (env.get y) = .ok v at value
  cases second : env.get y with
  | empty =>
    rw [second] at value
    cases first : env.get x <;> rw [first] at value <;> cases value <;> contradiction
  | range lo hi proper => exact ⟨lo, hi, proper, rfl⟩

end Environment

namespace UpperBounds

variable {b next : UpperBounds} {id x y : Identifier} {e : Expr}

theorem Placed.others {lower upper : Identifier → Prop} (placed : Placed b id lower upper next)
    (first : x ≠ id) (second : y ≠ id) : y ∈ next.get x ↔ y ∈ b.get x := by
  simp [placed.edges, first, second]

theorem possibleBefore (after : (b.assign id e).isBottom = false) : b.isBottom = false := by
  refine Bool.eq_false_iff.mpr fun impossible => Bool.eq_false_iff.mp after ?_
  rwa [assign, if_pos (by simp [impossible])]

theorem assignOthers (possible : b.isBottom = false) (first : x ≠ id) (second : y ≠ id) :
    y ∈ (b.assign id e).get x ↔ y ∈ b.get x := by
  by_cases own : e = .identifier id
  · rw [own, assignOwn]
  · obtain ⟨_, _, _, placed⟩ := assignPlaced possible own
    exact placed.others first second

end UpperBounds

namespace Pentagon
open ArithmeticFault (bindOk yields)

variable {p q : Pentagon} {e : Expr} {id k x y z : Identifier}

def besides (id k : Identifier) : Bool := decide (k ≠ id)

theorem besidesTarget (id : Identifier) : besides id id = false := decide_eq_false (not_not.mpr rfl)

theorem keepsRaised {intervals : Environment Interval} {bounds : UpperBounds}
    (ok : p.intervals.assign id e = .ok intervals) :
    p.intervals.Keeps (besides id) ((⟨bounds, intervals⟩ : Pentagon).raisedIntervals id x y) := by
  have assigned : p.intervals.Keeps (besides id) intervals :=
    (Environment.keepsSelf _ p.intervals).assign (besidesTarget id) ok
  unfold raisedIntervals
  split
  · exact assigned.put (besidesTarget id) _
  · exact assigned

theorem assignIntervals (ok : p.assign id e = .ok q) (possible : q.isBottom = false)
    (other : k ≠ id) : q.intervals.get k = p.intervals.get k := by
  obtain ⟨intervals, assigned, step⟩ := assigned ok
  cases step with
  | halves =>
    obtain ⟨same, _, after⟩ := reducedPossible possible
    have keeps := (Environment.keepsSelf _ p.intervals).assign (besidesTarget id) assigned
    rw [same]
    exact (keeps after).get after (decide_eq_true other)
  | difference x y _ cleared =>
    subst cleared
    obtain ⟨same, _, after⟩ := reducedPossible possible
    rw [same]
    exact (keepsRaised assigned after).get after (decide_eq_true other)

theorem assignBounds (ok : p.assign id e = .ok q) (possible : q.isBottom = false)
    (first : k ≠ id) (second : z ≠ id) : z ∈ q.bounds.get k ↔ z ∈ p.bounds.get k := by
  obtain ⟨intervals, _, step⟩ := assigned ok
  cases step with
  | halves =>
    obtain ⟨same, after, _⟩ := reducedPossible possible
    rw [same]
    exact UpperBounds.assignOthers (UpperBounds.possibleBefore after) first second
  | difference x y _ cleared =>
    subst cleared
    obtain ⟨same, after, _⟩ := reducedPossible possible
    rw [UpperBounds.isBottomPut] at after
    have before : p.bounds.isBottom = false := (UpperBounds.isBottomRename p.bounds _).symm.trans after
    rw [same]
    exact (UpperBounds.placedForget before).put.others first second

structure Subtracted (p : Pentagon) (id x y : Identifier) (intervals : Environment Interval)
    (q : Pentagon) : Prop where
  before : p.bounds.isBottom = false ∧ p.intervals.isBottom = false
  assigned : p.intervals.assign id (.binary .sub (.identifier x) (.identifier y)) = .ok intervals
  possible : intervals.isBottom = false
  lowered : q.bounds = (p.bounds.forget id).put id (p.loweredBounds id x y)
  raised : q.intervals = (⟨p.bounds.forget id, intervals⟩ : Pentagon).raisedIntervals id x y
  after : q.intervals.isBottom = false

theorem subtracted (ok : p.assign id (.binary .sub (.identifier x) (.identifier y)) = .ok q)
    (possible : q.isBottom = false) : ∃ intervals, Subtracted p id x y intervals q := by
  obtain ⟨intervals, assigned, ok⟩ := bindOk ok
  rw [UpperBounds.assignDifference] at ok
  dsimp only at ok
  split at ok
  · rename_i impossible
    cases ok
    rw [impossible] at possible
    contradiction
  rename_i kept
  obtain ⟨unreduced, bounds, halves⟩ := reducedPossible (Bool.eq_false_iff.mpr kept)
  rw [unreduced] at ok
  have outcome : q = reduced ⟨(p.bounds.forget id).put id (p.loweredBounds id x y),
      (⟨p.bounds.forget id, intervals⟩ : Pentagon).raisedIntervals id x y⟩ :=
    (Except.ok.inj ok).symm
  rw [outcome] at possible
  obtain ⟨same, _, after⟩ := reducedPossible possible
  rw [same] at outcome
  subst outcome
  have before : p.intervals.isBottom = false := by
    refine Bool.eq_false_iff.mpr fun impossible => Bool.eq_false_iff.mp halves ?_
    rw [Environment.assign, if_pos impossible] at assigned
    cases assigned
    exact impossible
  exact ⟨intervals, ⟨(UpperBounds.isBottomRename p.bounds _).symm.trans bounds, before⟩, assigned,
    halves, rfl, rfl, after⟩

namespace Subtracted

variable {intervals : Environment Interval}

theorem edges (known : Subtracted p id x y intervals q) : z ∈ q.bounds.get k ↔
    (k ≠ id ∧ z ≠ id ∧ z ∈ p.bounds.get k) ∨ (k = id ∧ z ∈ p.loweredBounds id x y) := by
  have placed : UpperBounds.Placed p.bounds id UpperBounds.nowhere (· ∈ p.loweredBounds id x y) _ :=
    (UpperBounds.placedForget known.before.1).put
  rw [known.lowered, placed.edges]
  simp [UpperBounds.nowhere]

theorem positive (known : Subtracted p id x y intervals q) (below : x ∈ p.bounds.get y)
    (first : x ≠ id) (second : y ≠ id) : (q.intervals.get id).leq (.atLeast (.int 1)) = true := by
  have kept : x ∈ (p.bounds.forget id).get y :=
    (UpperBounds.memGetForget known.before.1).mpr ⟨second, first, below⟩
  have raised := known.raised
  rw [raisedIntervals, if_pos kept] at raised
  have after := known.after
  rw [raised] at after ⊢
  rw [Environment.getPut known.possible after, if_pos rfl]
  exact Interval.meetLeqRight _ _

theorem lowest (known : Subtracted p id x y intervals q) :
    ∃ lo hi proper, p.intervals.get y = .range lo hi proper ∧ ∀ z, z ∈ q.bounds.get id ↔
      .int 0 < lo ∧ (z ∈ p.bounds.get x ∨ z = x) ∧ z ≠ id := by
  obtain ⟨lo, hi, proper, same⟩ :=
    Environment.operandsFull known.before.2 known.possible known.assigned
  refine ⟨lo, hi, proper, same, fun z => ?_⟩
  rw [known.edges, memLoweredBounds, same]
  constructor
  · intro above
    rcases above with ⟨other, _⟩ | ⟨_, above, target, _, _, _, equal, positive⟩
    · exact (other rfl).elim
    · cases equal
      exact ⟨positive, above, target⟩
  · intro above
    obtain ⟨positive, above, target⟩ := above
    exact .inr ⟨rfl, above, target, lo, hi, proper, rfl, positive⟩

theorem nothingBelow (known : Subtracted p id x y intervals q) (k : Identifier) :
    id ∉ q.bounds.get k := by
  rw [known.edges]
  intro below
  rcases below with ⟨_, other, _⟩ | ⟨_, above⟩
  · exact other rfl
  · exact (memLoweredBounds.mp above).2.1 rfl

end Subtracted

/- The rule for a difference is for every choice of the three identifiers, equal or not, but that `x` and
`y` are not the target where the bound between them makes it positive: there the target's own
bounds are gone before they are asked for. -/
theorem assignExact (p q : Pentagon) (id : Identifier) (e : Expr) (ok : p.assign id e = .ok q)
    (possible : q.isBottom = false) :
    (∀ k, k ≠ id → q.intervals.get k = p.intervals.get k ∧
      ∀ z, z ≠ id → (z ∈ q.bounds.get k ↔ z ∈ p.bounds.get k)) ∧
    ∀ x y, e = .binary .sub (.identifier x) (.identifier y) →
      (x ∈ p.bounds.get y → x ≠ id → y ≠ id →
        (q.intervals.get id).leq (.atLeast (.int 1)) = true) ∧
      (∃ lo hi proper, p.intervals.get y = .range lo hi proper ∧ ∀ z, z ∈ q.bounds.get id ↔
        .int 0 < lo ∧ (z ∈ p.bounds.get x ∨ z = x) ∧ z ≠ id) ∧
      ∀ k, id ∉ q.bounds.get k := by
  refine ⟨fun k other => ⟨assignIntervals ok possible other, fun z apart =>
    assignBounds ok possible other apart⟩, fun x y shape => ?_⟩
  subst shape
  obtain ⟨intervals, known⟩ := subtracted ok possible
  exact ⟨known.positive, known.lowest, known.nothingBelow⟩

/- From `0 < y`, `y < x` and `x < w`: the difference `r := x - y` is positive and below `x` and `w`, and
`x := x - y` is below `w` while `y` is no longer below `x`. -/
theorem assignExactAlias :
    let w := Identifier.visible "w"
    let x := Identifier.visible "x"
    let y := Identifier.visible "y"
    let r := Identifier.visible "r"
    let p : Pentagon := ⟨.ofTable .value (.ofList [(y, .ofList [x, w]), (x, .single w)]),
      ⟨.value, .ofList [(y, .atLeast (.int 1))]⟩⟩
    let difference := Expr.binary .sub (.identifier x) (.identifier y)
    (∃ q, p.assign r difference = .ok q ∧ (q.intervals.get r).leq (.atLeast (.int 1)) = true ∧
      q.intervals.get y = .atLeast (.int 1) ∧ x ∈ q.bounds.get y ∧
      x ∈ q.bounds.get r ∧ w ∈ q.bounds.get r ∧ y ∉ q.bounds.get r) ∧
    ∃ q, p.assign x difference = .ok q ∧ w ∈ q.bounds.get x ∧ w ∈ q.bounds.get y ∧
      x ∉ q.bounds.get y := by
  intro w x y r p difference
  obtain ⟨q, fresh, possible⟩ : ∃ q, p.assign r difference = .ok q ∧ q.isBottom = false :=
    yields (by decide +kernel)
  obtain ⟨t, own, possible'⟩ : ∃ t, p.assign x difference = .ok t ∧ t.isBottom = false :=
    yields (by decide +kernel)
  obtain ⟨frame, rule⟩ := assignExact p q r difference fresh possible
  obtain ⟨positive, ⟨lo, _, _, range, above⟩, _⟩ := rule x y rfl
  obtain ⟨frame', rule'⟩ := assignExact p t x difference own possible'
  obtain ⟨_, ⟨lo', _, _, range', above'⟩, below'⟩ := rule' x y rfl
  have start : p.intervals.get y = .atLeast (.int 1) := by decide +kernel
  have least {lo hi : Number} {proper : Interval.Proper lo hi}
      (range : p.intervals.get y = .range lo hi proper) : lo = .int 1 := by
    injection start.symm.trans range with first
    exact first.symm
  refine ⟨⟨q, fresh, positive (by decide +kernel) (by decide) (by decide), ?_, ?_, ?_, ?_, ?_⟩,
    t, own, ?_, ?_, below' y⟩
  · exact (frame y (by decide)).1.trans start
  · exact ((frame y (by decide)).2 x (by decide)).mpr (by decide +kernel)
  · exact (above x).mpr (by rw [least range]; decide +kernel)
  · exact (above w).mpr (by rw [least range]; decide +kernel)
  · exact fun inside => absurd ((above y).mp inside).2.1 (by decide +kernel)
  · exact (above' w).mpr (by rw [least range']; decide +kernel)
  · exact ((frame' y (by decide)).2 w (by decide)).mpr (by decide +kernel)

end Pentagon
end Abstraction
