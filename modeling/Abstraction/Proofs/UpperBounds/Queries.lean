import Abstraction.Proofs.UpperBounds.Models

/-! Queries about two identifiers are answered completely: a strict order of bounds says of its stores no
more than what it records. Two identifiers without a bound between them may differ by any integer,
because either can be raised with all that is above it while the other stays where it is. So such a
pair leaves every comparison open, strict or not. -/
namespace Abstraction

namespace Operator

def differenceFor : Operator → Bool → Int
  | .lt, true | .ge, false => -1
  | .gt, true | .le, false | .ne, true | .eq, false => 1
  | _, _ => 0

theorem differenceHolds {op : Operator} (comparison : op.isComparison = true) (outcome : Bool)
    (v : Int) : op.holds (v + op.differenceFor outcome) v = outcome := by
  cases op <;> try contradiction
  all_goals
    cases outcome <;> dsimp only [holds, differenceFor] <;>
      simp only [decide_eq_true_eq, decide_eq_false_iff_not] <;> omega

end Operator

namespace UpperBounds

variable {b : UpperBounds} {op : Operator} {e : Expr} {x y : Identifier}

theorem Ordered.anyDifference (order : b.Ordered) (possible : b.isBottom = false)
    (distinct : x ≠ y) (above : y ∉ b.get x) (below : x ∉ b.get y) (d : Int) :
    ∃ s ∈ b, s x = s y + d := by
  have inside := order.heightsInside possible
  by_cases short : b.heights x ≤ b.heights y + d
  -- The lower one of the two is raised by what is missing, and the other is not above it.
  · have kept : ¬ b.From x y := fun known => known.elim distinct.symm above
    refine ⟨_, order.raiseInside inside x (b.heights y + d - b.heights x).toNat, ?_⟩
    rw [raise, if_pos (.inl rfl), raise, if_neg kept]
    omega
  · have kept : ¬ b.From y x := fun known => known.elim distinct below
    refine ⟨_, order.raiseInside inside y (b.heights x - d - b.heights y).toNat, ?_⟩
    rw [raise, if_neg kept, raise, if_pos (.inl rfl)]
    omega

theorem orderVerdictUnknown :
    b.orderVerdict x y = .unknown ↔ y ∉ b.get x ∧ x ∉ b.get y := by
  unfold orderVerdict
  split
  · simp_all
  split <;> simp_all

theorem equalVerdictUnknown :
    b.equalVerdict x y = .unknown ↔ y ∉ b.get x ∧ x ∉ b.get y := by
  unfold equalVerdict
  rw [← not_or]
  split <;> simp_all

theorem compareUnknown (comparison : op.isComparison = true) :
    b.compare op x y = .unknown ↔ y ∉ b.get x ∧ x ∉ b.get y := by
  cases op <;> try contradiction
  case lt | le => exact orderVerdictUnknown
  case gt | ge => exact orderVerdictUnknown.trans and_comm
  case eq => exact equalVerdictUnknown
  case ne => exact Verdict.negateUnknown.trans equalVerdictUnknown

theorem Ordered.compareDecides (order : b.Ordered) (possible : b.isBottom = false)
    (distinct : x ≠ y) (comparison : op.isComparison = true) :
    Verdict.Decides (· ∈ b) (fun s : Store => op.holds (s x) (s y)) (b.compare op x y) := by
  apply Verdict.decidesOf ⟨_, order.heightsInside possible⟩
  · intro s inside
    exact compareSound inside comparison x y
  · intro unknown outcome
    obtain ⟨above, below⟩ := (compareUnknown comparison).mp unknown
    obtain ⟨s, inside, difference⟩ :=
      order.anyDifference possible distinct above below (op.differenceFor outcome)
    refine ⟨s, inside, ?_⟩
    rw [difference]
    exact Operator.differenceHolds comparison outcome (s y)

theorem Ordered.satisfiesDecides {c : Expr.Comparison} (order : b.Ordered)
    (possible : b.isBottom = false) (shape : e.comparison = some c) (distinct : c.left ≠ c.right)
    (comparison : c.op.isComparison = true) :
    Verdict.Decides (· ∈ b) (fun s : Store =>
      if c.negated then !c.op.holds (s c.left) (s c.right) else c.op.holds (s c.left) (s c.right))
      (b.satisfies e) := by
  have decides := order.compareDecides possible distinct comparison
  rw [satisfies, if_neg (by simp [possible]), shape]
  dsimp only
  cases c.negated with
  | false => exact decides
  | true => exact decides.negate

theorem queriesComplete (b : UpperBounds) (possible : b.isBottom = false) (order : b.Ordered)
    (x y : Identifier) (distinct : x ≠ y) (op : Operator) (comparison : op.isComparison = true) :
    Verdict.Decides (· ∈ b) (fun s : Store => op.holds (s x) (s y))
      (b.satisfies (.binary op (.identifier x) (.identifier y))) ∧
    Verdict.Decides (· ∈ b) (fun s : Store => !op.holds (s x) (s y))
      (b.satisfies (.unary .not (.binary op (.identifier x) (.identifier y)))) := by
  have decides (negated : Bool) {e : Expr} (shape : e.comparison = some ⟨op, x, y, negated⟩) :=
    order.satisfiesDecides possible shape distinct comparison
  exact ⟨decides false rfl, decides true rfl⟩

theorem queriesCompleteApart :
    let x := Identifier.visible "x"
    let y := Identifier.visible "y"
    let z := Identifier.visible "z"
    let b := ofTable .value (.ofList [(x, .single y)])
    let atLeast := Expr.binary .ge (.identifier x) (.identifier y)
    (b.satisfies atLeast = .fails ∧ ∀ s : Store, s ∈ b → ¬ s x ≥ s y) ∧
      (b.satisfies (.unary .not atLeast) = .holds ∧ ∀ s : Store, s ∈ b → s x < s y) ∧
      (∃ s ∈ b, s x = s z) ∧ ∃ s ∈ b, s x ≠ s z := by
  intro x y z b atLeast
  have order : b.Ordered :=
    orderedTop.assume (.binary .lt (.identifier x) (.identifier y))
  have fails : b.satisfies atLeast = .fails := by decide +kernel
  have holds : b.satisfies (.unary .not atLeast) = .holds := by decide +kernel
  obtain ⟨first, second⟩ := queriesComplete b (by decide) order x y (by decide) .ge rfl
  obtain ⟨third, _⟩ := queriesComplete b (by decide) order x z (by decide) .eq rfl
  obtain ⟨⟨s, inside, equal⟩, t, inside', apart⟩ := third.unknown.mp (by decide +kernel)
  refine ⟨⟨fails, fun s inside => ?_⟩, ⟨holds, fun s inside => ?_⟩,
    ⟨s, inside, of_decide_eq_true equal⟩, t, inside', of_decide_eq_false apart⟩
  · exact of_decide_eq_false (first.fails.mp fails s inside)
  · simpa [Operator.holds] using second.holds.mp holds s inside

end UpperBounds
end Abstraction
