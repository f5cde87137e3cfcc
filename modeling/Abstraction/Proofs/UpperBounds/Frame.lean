import Abstraction.Proofs.Concrete
import Abstraction.Proofs.UpperBounds.Ordered

/-! What operations on bounds leave alone. A bound is between two identifiers, so beside the bounds
among those that an operation does not mention it matters that none of them comes to stand in a bound
with one that it does mention. -/
namespace Abstraction

theorem Expr.strictOrderMentions {e : Expr} {lower upper : Identifier}
    (shape : e.strictOrder = some (lower, upper)) : e.Mentions lower ∧ e.Mentions upper := by
  obtain ⟨⟨op, x, y, negated⟩, compared, ordered⟩ := Option.bind_eq_some_iff.mp shape
  have mentioned : e.Mentions x ∧ e.Mentions y := by
    rw [comparisonExact.mp compared]
    cases negated with
    | true => exact ⟨.inl rfl, .inr rfl⟩
    | false => exact ⟨.inl rfl, .inr rfl⟩
  split at ordered <;> try contradiction
  · cases ordered; exact mentioned
  · cases ordered; exact mentioned.symm

namespace UpperBounds

variable {base b next : UpperBounds} {on : Identifier → Bool} {id : Identifier} {e : Expr}

structure Kept (on : Identifier → Bool) (base next : UpperBounds) : Prop where
  possible : base.isBottom = false
  edges : ∀ x y, on x = true → on y = true → (y ∈ next.get x ↔ y ∈ base.get x)
  apart : ∀ x y, y ∈ next.get x → on x = on y

def Keeps (on : Identifier → Bool) (base next : UpperBounds) : Prop :=
  next.isBottom = false → Kept on base next

theorem Keeps.trans (first : Keeps on base b) (second : Keeps (fun _ => true) b next) :
    Keeps on base next := by
  intro possible
  have later := second possible
  have earlier := first later.possible
  refine ⟨earlier.possible, fun x y left right => ?_, fun x y edge => ?_⟩
  · rw [later.edges x y rfl rfl, earlier.edges x y left right]
  · exact earlier.apart x y ((later.edges x y rfl rfl).mp edge)

theorem Kept.placed {lower upper : Identifier → Prop} (kept : Kept on base b)
    (placed : Placed b id lower upper next) (outside : on id = false)
    (low : ∀ x, lower x → on x = false) (high : ∀ y, upper y → on y = false) :
    Kept on base next := by
  have other {x : Identifier} (inside : on x = true) : x ≠ id :=
    ne_of_apply_ne on (by simp [inside, outside])
  refine ⟨kept.possible, fun x y left right => ?_, fun x y edge => ?_⟩
  · rw [placed.edges, ← kept.edges x y left right]
    simp [other left, other right]
  · rcases (placed.edges x y).mp edge with ⟨_, _, before⟩ | ⟨_, rfl, beneath⟩ | ⟨rfl, above⟩
    · exact kept.apart x y before
    · rw [low x beneath, outside]
    · rw [high y above, outside]

theorem Kept.below (kept : Kept on base b) {x y : Identifier} (outside : on y = false)
    (edge : y ∈ b.get x) : on x = false := (kept.apart x y edge).trans outside

theorem Kept.above (kept : Kept on base b) {x y : Identifier} (outside : on x = false)
    (edge : y ∈ b.get x) : on y = false := (kept.apart x y edge).symm.trans outside

theorem Keeps.assign (keeps : Keeps on base b) (outside : on id = false)
    (others : ∀ k, e.Mentions k → on k = false) : Keeps on base (b.assign id e) := by
  cases possible : b.isBottom with
  | true => rwa [UpperBounds.assign, if_pos (by simp [possible])]
  | false =>
  by_cases own : e = .identifier id
  · subst own; rwa [assignOwn]
  intro _
  have kept := keeps possible
  obtain ⟨lower, upper, placement, placed⟩ := assignPlaced possible own
  cases placement with
  | @copied y _ =>
    have source : on y = false := others y rfl
    exact kept.placed placed outside (fun _ => kept.below source)
      fun _ known => kept.above source known.1
  | raised =>
    exact kept.placed placed outside (fun _ => kept.below outside) fun _ => False.elim
  | lowered =>
    exact kept.placed placed outside (fun _ => False.elim) fun _ => kept.above outside
  | @above y =>
    have source : on y = false := others y (.inl rfl)
    refine kept.placed placed outside (fun x known => ?_) fun _ => False.elim
    rcases known with beneath | rfl
    · exact kept.below source beneath
    · exact source
  | @beneath y =>
    have source : on y = false := others y (.inl rfl)
    refine kept.placed placed outside (fun _ => False.elim) fun z known => ?_
    rcases known with ⟨above | rfl, _⟩
    · exact kept.above source above
    · exact source
  | unknown => exact kept.placed placed outside (fun _ => False.elim) fun _ => False.elim

theorem Keeps.assume (keeps : Keeps on base b) (others : ∀ k, e.Mentions k → on k = false) :
    Keeps on base (b.assume e) := by
  cases possible : b.isBottom with
  | true => rwa [UpperBounds.assume, if_pos (by simp [possible])]
  | false =>
  have kept := keeps possible
  have step := assumed possible e
  generalize b.assume e = after at step
  cases step with
  | unordered => exact keeps
  | cyclic =>
    intro after
    contradiction
  | @added lower upper _ shape _ _ _ edges =>
    intro _
    obtain ⟨least, greatest⟩ := Expr.strictOrderMentions shape
    have low {x : Identifier} (known : lower ∈ b.get x ∨ x = lower) : on x = false := by
      rcases known with beneath | rfl
      · exact kept.below (others lower least) beneath
      · exact others x least
    have high {y : Identifier} (known : y ∈ b.get upper ∨ y = upper) : on y = false := by
      rcases known with above | rfl
      · exact kept.above (others upper greatest) above
      · exact others y greatest
    refine ⟨kept.possible, fun x y left right => ?_, fun x y edge => ?_⟩
    · rw [edges, ← kept.edges x y left right]
      refine or_iff_left fun gained => ?_
      rw [low gained.1] at left
      contradiction
    · rcases (edges x y).mp edge with before | gained
      · exact kept.apart x y before
      · rw [low gained.1, high gained.2]

theorem Keeps.forgetIf (keeps : Keeps on base b) {drop : Identifier → Bool}
    (outside : ∀ k, drop k = true → on k = false) : Keeps on base (b.forgetIf drop) := by
  intro after
  have possible : b.isBottom = false := (isBottomRename b _).symm.trans after
  have kept := keeps possible
  have spared {k : Identifier} (inside : on k = true) : drop k = false :=
    Bool.eq_false_iff.mpr fun dropped => by
      rw [outside k dropped] at inside
      contradiction
  refine ⟨kept.possible, fun x y left right => ?_, fun x y edge => ?_⟩
  · rw [memGetForgetIf possible, kept.edges x y left right]
    simp [spared left, spared right]
  · exact kept.apart x y ((memGetForgetIf possible).mp edge).2.2

theorem Keeps.forget (keeps : Keeps on base b) (outside : on id = false) :
    Keeps on base (b.forget id) := by
  refine keeps.forgetIf fun k same => ?_
  rw [of_decide_eq_true same]
  exact outside

section Scopes
variable {token : ScopeToken}

theorem memGetPushScope (possible : b.isBottom = false) {x y : Identifier} :
    y ∈ (b.pushScope token).get x ↔
      ∃ i j, i.hide token = x ∧ j.hide token = y ∧ j ∈ b.get i := by
  rw [pushScope, memGetRename possible ((Table.hideApart token).on _)]
  simp only [Option.some.injEq]

theorem keepsPushScope (b : UpperBounds) (token : ScopeToken) :
    Keeps Identifier.isHidden (b.pushScope token) (b.pushScope token) := by
  intro possible
  refine ⟨possible, fun _ _ _ _ => Iff.rfl, fun x y edge => ?_⟩
  have before : b.isBottom = false := (isBottomRename b _).symm.trans possible
  obtain ⟨i, j, rfl, rfl, _⟩ := (memGetPushScope before).mp edge
  rfl

/- A bound whose lower end survives the scope is one of the caller's, hidden under the token: locals
vanish, and no bound leads from what is hidden to a local. -/
theorem restored {x y k : Identifier} (scope : token ≠ .none)
    (keeps : Keeps Identifier.isHidden (b.pushScope token) next) (possible : next.isBottom = false)
    (edge : y ∈ next.get x) (left : x.leave token = some k) :
    ∃ j, x = k.hide token ∧ y = j.hide token ∧ j ∈ b.get k := by
  have kept := keeps possible
  have before : b.isBottom = false := (isBottomRename b _).symm.trans kept.possible
  cases hidden : x.isHidden with
  | false =>
    rw [Identifier.leaveVisible scope hidden] at left
    contradiction
  | true =>
    have hidden' : y.isHidden = true := (kept.apart x y edge).symm.trans hidden
    rw [kept.edges x y hidden hidden', memGetPushScope before] at edge
    obtain ⟨i, j, rfl, rfl, stored⟩ := edge
    rw [Identifier.leaveHide] at left
    cases left
    exact ⟨j, rfl, rfl, stored⟩

theorem popScopeKeeps (scope : token ≠ .none) (compact : next.Compact)
    (keeps : Keeps Identifier.isHidden (b.pushScope token) next) :
    Keeps (fun _ => true) b (next.popScope token) := by
  intro after
  have possible : next.isBottom = false := (isBottomRename next _).symm.trans after
  have kept := keeps possible
  have before : b.isBottom = false := (isBottomRename b _).symm.trans kept.possible
  have source {x k : Identifier} (listed : x ∈ next.table.keys) (left : x.leave token = some k) :
      x = k.hide token := by
    obtain ⟨y, edge⟩ := compact.edgeOfKey listed
    obtain ⟨_, same, _⟩ := restored scope keeps possible edge left
    exact same
  have apart : next.table.ApartOn fun id => id.leave token :=
    fun x listed y listed' k left left' => (source listed left).trans (source listed' left').symm
  refine ⟨before, fun x y _ _ => ?_, fun _ _ _ => rfl⟩
  rw [popScope, memGetRename possible apart]
  constructor
  · intro known
    obtain ⟨i, j, left, right, edge⟩ := known
    obtain ⟨k, rfl, rfl, stored⟩ := restored scope keeps possible edge left
    rw [Identifier.leaveHide] at right
    cases right
    exact stored
  · intro stored
    refine ⟨x.hide token, y.hide token, Identifier.leaveHide token x,
      Identifier.leaveHide token y, ?_⟩
    rw [kept.edges _ _ (Identifier.hiddenHide token x) (Identifier.hiddenHide token y)]
    exact (memGetPushScope before).mpr ⟨x, y, rfl, rfl, stored⟩

theorem sameOfKeeps (keeps : Keeps (fun _ => true) b next) (possible : next.isBottom = false)
    (compact : b.Compact) (compact' : next.Compact) (declared : b.Declared)
    (declared' : next.Declared) : next.same b = true := by
  have kept := keeps possible
  refine sameOfEdges compact' compact ?_ fun x y => kept.edges x y rfl rfl
  rw [declared.possible kept.possible, declared'.possible possible]

end Scopes
end UpperBounds
end Abstraction
