import Abstraction.Proofs.Concrete
import Abstraction.Proofs.UpperBounds.Edges

/-! Strict upper bounds against stores: assignment and assumption lose no store, and verdicts admit
every outcome. A store satisfies the bounds if every recorded one holds in it; nothing is asked of
the bounds themselves. -/
namespace Abstraction.UpperBounds

instance : Membership Store UpperBounds :=
  ⟨fun b s => b.isBottom = false ∧ ∀ x, ∀ y ∈ b.get x, s x < s y⟩

instance (s : Store) (b : UpperBounds) : Decidable (s ∈ b) :=
  decidable_of_iff (b.isBottom = false ∧
      ∀ entry ∈ b.table.entries, ∀ y ∈ entry.2.members, s entry.1 < s y)
    (and_congr_right fun _ =>
      ⟨fun h x y edge => by
          obtain ⟨above, found, inside⟩ := Reach.edgeExact.mp edge
          exact h (x, above) (Table.findExact.mp found) y inside,
        fun h (x, above) stored y inside =>
          h x y (Reach.edgeExact.mpr ⟨above, Table.findExact.mpr stored, inside⟩)⟩)

variable {b next : UpperBounds} {s : Store} {e : Expr} {id : Identifier} {v : Int}

theorem placedSound {lower upper : Identifier → Prop} (placed : Placed b id lower upper next)
    (inside : s ∈ b) (below : ∀ x, lower x → s x < v)
    (above : ∀ y, upper y → y ≠ id ∧ v < s y) : s.set id v ∈ next := by
  refine ⟨placed.possible, fun x y edge => ?_⟩
  obtain ⟨left, right, kept⟩ | ⟨left, rfl, low⟩ | ⟨rfl, high⟩ := (placed.edges x y).mp edge
  · rw [Store.setOther s v left, Store.setOther s v right]
    exact inside.2 x y kept
  · rw [Store.setOther s v left, Store.setSame]
    exact below x low
  · rw [Store.setSame, Store.setOther s v (above y high).1]
    exact (above y high).2

theorem shiftedValue {op : Operator} {y : Identifier} {c : Int}
    (takes : (Expr.binary op (.identifier y) (.constant (.number (.int c)))).MayTake s v) :
    op.Yields (s y) c v := by
  obtain ⟨m, k, rfl, known, yields⟩ := takes
  rwa [known c rfl] at yields

theorem assignSound (inside : s ∈ b) (takes : e.MayTake s v) : s.set id v ∈ b.assign id e := by
  by_cases own : e = .identifier id
  · subst own
    cases takes
    rw [Store.setSelf, assignOwn]
    exact inside
  · obtain ⟨lower, upper, placement, placed⟩ := assignPlaced inside.1 own
    cases placement with
    | copied other =>
      cases takes
      exact placedSound placed inside (fun x low => inside.2 x _ low)
        fun z high => ⟨high.2, inside.2 _ z high.1⟩
    | raised positive =>
      have value : v = s id + _ := shiftedValue takes
      refine placedSound placed inside (fun x low => ?_) fun _ => False.elim
      have order := inside.2 x id low
      omega
    | lowered positive =>
      have value : v = s id - _ := shiftedValue takes
      refine placedSound placed inside (fun _ => False.elim) fun z high => ?_
      have order := inside.2 id z high
      refine ⟨?_, by omega⟩
      intro same
      subst same
      omega
    | @above y c positive other =>
      have value : v = s y + c := shiftedValue takes
      refine placedSound placed inside (fun x low => ?_) fun _ => False.elim
      rcases low with low | rfl
      · have order := inside.2 x y low
        omega
      · omega
    | @beneath y c positive other =>
      have value : v = s y - c := shiftedValue takes
      refine placedSound placed inside (fun _ => False.elim) fun z high => ⟨high.2, ?_⟩
      rcases high.1 with high | rfl
      · have order := inside.2 y z high
        omega
      · omega
    | unknown => exact placedSound placed inside (fun _ => False.elim) fun _ => False.elim

theorem comparisonOutcome {c : Expr.Comparison} (shape : e.comparison = some c)
    (comparison : c.op.isComparison = true) {outcome : Bool} (may : e.MayBe s outcome) :
    c.op.holds (s c.left) (s c.right) = (if c.negated then !outcome else outcome) := by
  have same := Expr.comparisonExact.mp shape
  obtain ⟨op, x, y, negated⟩ := c
  cases negated with
  | true =>
    subst same
    obtain ⟨v, w, rfl, rfl, holds⟩ := may comparison
    exact holds
  | false =>
    subst same
    obtain ⟨v, w, rfl, rfl, holds⟩ := may comparison
    exact holds

theorem strictOrderSound {lower upper : Identifier} (shape : e.strictOrder = some (lower, upper))
    (may : e.MayBe s true) : s lower < s upper := by
  obtain ⟨c, found, ordered⟩ := Option.bind_eq_some_iff.mp shape
  have outcome := fun comparison => comparisonOutcome found comparison may
  obtain ⟨op, x, y, negated⟩ := c
  cases negated <;> cases op <;> simp_all [Operator.complement, Operator.isComparison, Operator.holds]

theorem assumeSound (inside : s ∈ b) (may : e.MayBe s true) : s ∈ b.assume e := by
  have step := assumed inside.1 e
  generalize b.assume e = next at step ⊢
  cases step with
  | unordered => exact inside
  | cyclic shape cycle =>
    have order := strictOrderSound shape may
    rcases cycle with rfl | back
    · omega
    · have reversed := inside.2 _ _ back
      omega
  | @added lower upper _ shape _ _ possible edges =>
    refine ⟨possible, fun x y edge => ?_⟩
    have order := strictOrderSound shape may
    rcases (edges x y).mp edge with kept | ⟨low, high⟩
    · exact inside.2 x y kept
    · have left : s x ≤ s lower := by
        rcases low with low | rfl
        · exact Int.le_of_lt (inside.2 x lower low)
        · exact Int.le_refl _
      have right : s upper ≤ s y := by
        rcases high with high | rfl
        · exact Int.le_of_lt (inside.2 upper y high)
        · exact Int.le_refl _
      omega

theorem orderVerdictSound (inside : s ∈ b) (x y : Identifier) :
    (b.orderVerdict x y).Admits (decide (s x < s y)) ∧
      (b.orderVerdict x y).Admits (decide (s x ≤ s y)) := by
  unfold orderVerdict
  split
  · rename_i below
    have order := inside.2 x y below
    simp [Verdict.Admits, order, Int.le_of_lt order]
  split
  · rename_i above
    have order := inside.2 y x above
    simp [Verdict.Admits, order, Int.le_of_lt order]
  · exact ⟨trivial, trivial⟩

theorem equalVerdictSound (inside : s ∈ b) (x y : Identifier) :
    (b.equalVerdict x y).Admits (decide (s x = s y)) := by
  unfold equalVerdict
  split
  · rename_i apart
    have different : s x ≠ s y := by
      rcases apart with below | above
      · exact Int.ne_of_lt (inside.2 x y below)
      · exact (Int.ne_of_lt (inside.2 y x above)).symm
    simp [Verdict.Admits, different]
  · trivial

theorem compareSound (inside : s ∈ b) {op : Operator} (comparison : op.isComparison = true)
    (x y : Identifier) : (b.compare op x y).Admits (op.holds (s x) (s y)) := by
  cases op <;> try contradiction
  case eq => exact equalVerdictSound inside x y
  case ne =>
    change (b.equalVerdict x y).negate.Admits (decide (s x ≠ s y))
    rw [Verdict.admitsNegate, decide_not, Bool.not_not]
    exact equalVerdictSound inside x y
  case lt => exact (orderVerdictSound inside x y).1
  case le => exact (orderVerdictSound inside x y).2
  case gt => exact (orderVerdictSound inside y x).1
  case ge => exact (orderVerdictSound inside y x).2

theorem satisfiesSound (inside : s ∈ b) {outcome : Bool} (may : e.MayBe s outcome) :
    (b.satisfies e).Admits outcome := by
  rw [satisfies, if_neg (by simp [inside.1])]
  cases shape : e.comparison with
  | none => trivial
  | some c =>
    by_cases comparison : c.op.isComparison = true
    · have admits := compareSound inside comparison c.left c.right
      rw [comparisonOutcome shape comparison may] at admits
      dsimp only
      split
      · rename_i negated
        rw [if_pos negated] at admits
        exact Verdict.admitsNegate.mpr admits
      · rename_i plain
        rwa [if_neg plain] at admits
    · have silent : b.compare c.op c.left c.right = .unknown := by
        cases op : c.op <;> simp_all [Operator.isComparison, compare]
      dsimp only
      rw [silent]
      split <;> trivial

end Abstraction.UpperBounds
