import Abstraction.State.Combine
import Abstraction.Proofs.Reach
import Abstraction.Proofs.UpperBounds.Edges

/-! The recorded bounds are a strict order, and stay one under every operation. Only `meet` closes the
relation again; each other operation keeps it transitive by the edges it adds and removes. Beside
it, what is stored stays free of sets that say nothing. -/
namespace Abstraction.UpperBounds

variable {a b : UpperBounds} {e : Expr} {id : Identifier}

structure Ordered (b : UpperBounds) : Prop where
  irreflexive : ∀ x, x ∉ b.get x
  transitive : ∀ x y z, y ∈ b.get x → z ∈ b.get y → z ∈ b.get x

theorem orderedTop : top.Ordered :=
  ⟨fun x => Names.notMemEmpty x, fun _ y _ first => (Names.notMemEmpty y first).elim⟩

theorem orderedBottom : bottom.Ordered := ⟨orderedTop.irreflexive, orderedTop.transitive⟩

/-- A target placed between a down-set and an up-set stays in order if the bounds already lead from
the one to the other. -/
theorem Ordered.placed {lower upper : Identifier → Prop} {next : UpperBounds} (order : b.Ordered)
    (placed : Placed b id lower upper next) (down : ∀ x y, y ∈ b.get x → lower y → lower x)
    (up : ∀ x y, upper x → y ∈ b.get x → y ≠ id → upper y) (outside : ¬ upper id)
    (across : ∀ x y, lower x → upper y → y ∈ b.get x) : next.Ordered := by
  constructor
  · intro x loop
    rw [placed.edges] at loop
    rcases loop with ⟨_, _, loop⟩ | ⟨other, same, _⟩ | ⟨same, high⟩
    · exact order.irreflexive x loop
    · exact other same
    · exact outside (same ▸ high)
  · intro x y z first second
    rw [placed.edges] at first second ⊢
    rcases first with ⟨left, middle, edge⟩ | ⟨left, rfl, low⟩ | ⟨rfl, high⟩
    · rcases second with ⟨_, right, next⟩ | ⟨_, same, low⟩ | ⟨same, _⟩
      · exact .inl ⟨left, right, order.transitive x y z edge next⟩
      · exact .inr (.inl ⟨left, same, down x y edge low⟩)
      · exact (middle same).elim
    · rcases second with ⟨other, _⟩ | ⟨other, _⟩ | ⟨_, high⟩
      · exact (other rfl).elim
      · exact (other rfl).elim
      · exact .inl ⟨left, fun same => outside (same ▸ high), across x z low high⟩
    · rcases second with ⟨_, right, next⟩ | ⟨_, _, low⟩ | ⟨rfl, _⟩
      · exact .inr (.inr ⟨rfl, up y z high next right⟩)
      · exact (order.irreflexive y (across y y low high)).elim
      · exact (outside high).elim

theorem Ordered.placedAbove {lower : Identifier → Prop} {next : UpperBounds} (order : b.Ordered)
    (placed : Placed b id lower nowhere next) (down : ∀ x y, y ∈ b.get x → lower y → lower x) :
    next.Ordered :=
  order.placed placed down (fun _ _ => False.elim) False.elim fun _ _ _ => False.elim

theorem Ordered.placedBelow {upper : Identifier → Prop} {next : UpperBounds} (order : b.Ordered)
    (placed : Placed b id nowhere upper next)
    (up : ∀ x y, upper x → y ∈ b.get x → y ≠ id → upper y) (outside : ¬ upper id) :
    next.Ordered :=
  order.placed placed (fun _ _ _ => False.elim) up outside fun _ _ => False.elim

theorem Ordered.assign (order : b.Ordered) (id : Identifier) (e : Expr) :
    (b.assign id e).Ordered := by
  cases possible : b.isBottom with
  | true => rwa [UpperBounds.assign, if_pos (by simp [possible])]
  | false =>
  by_cases own : e = .identifier id
  · subst own; rwa [assignOwn]
  obtain ⟨lower, upper, placement, placed⟩ := assignPlaced possible own
  cases placement with
  | @copied y other =>
    refine order.placed placed (fun x w edge low => order.transitive x w y edge low) ?_ ?_ ?_
    · exact fun x w high edge other => ⟨order.transitive y x w high.1 edge, other⟩
    · exact fun high => high.2 rfl
    · exact fun x w low high => order.transitive x y w low high.1
  | raised =>
    exact order.placedAbove placed fun x w edge low => order.transitive x w id edge low
  | lowered =>
    exact order.placedBelow placed (fun x w high edge _ => order.transitive id x w high edge)
      (order.irreflexive id)
  | @above y =>
    refine order.placedAbove placed ?_
    intro x w edge known
    rcases known with low | rfl
    · exact .inl (order.transitive x w y edge low)
    · exact .inl edge
  | @beneath y =>
    refine order.placedBelow placed ?_ fun high => high.2 rfl
    intro x w known edge other
    rcases known with ⟨high | rfl, _⟩
    · exact ⟨.inl (order.transitive y x w high edge), other⟩
    · exact ⟨.inl edge, other⟩
  | unknown => exact order.placedAbove placed fun _ _ _ => False.elim

/-- A guard `lower < upper` adds the product of the down-set of the one and the up-set of the other;
a loop in it would be a way back from `upper` to `lower`. -/
theorem Ordered.assume (order : b.Ordered) (e : Expr) : (b.assume e).Ordered := by
  cases possible : b.isBottom with
  | true => rwa [UpperBounds.assume, if_pos (by simp [possible])]
  | false =>
  have step := assumed possible e
  generalize b.assume e = next at step
  cases step with
  | unordered => exact order
  | cyclic => exact orderedBottom
  | @added lower upper _ shape distinct fresh _ edges =>
    have back {x : Identifier} (high : x ∈ b.get upper ∨ x = upper) :
        ¬ (lower ∈ b.get x ∨ x = lower) := by
      rcases high with high | rfl
      · intro known
        rcases known with low | rfl
        · exact fresh (order.transitive upper x lower high low)
        · exact fresh high
      · intro known
        rcases known with low | rfl
        · exact fresh low
        · exact distinct rfl
    constructor
    · intro x loop
      rw [edges] at loop
      rcases loop with loop | ⟨low, high⟩
      · exact order.irreflexive x loop
      · exact back high low
    · intro x y z first second
      rw [edges] at first second ⊢
      rcases first with edge | ⟨low, high⟩ <;> rcases second with next | ⟨low', high'⟩
      · exact .inl (order.transitive x y z edge next)
      · refine .inr ⟨.inl ?_, high'⟩
        rcases low' with low' | rfl
        · exact order.transitive x y lower edge low'
        · exact edge
      · refine .inr ⟨low, .inl ?_⟩
        rcases high with high | rfl
        · exact order.transitive upper y z high next
        · exact next
      · exact (back high low').elim

theorem Ordered.rename {f : Identifier → Option Identifier} (order : b.Ordered)
    (apart : Table.Apart f) : (b.rename f).Ordered := by
  cases possible : b.isBottom with
  | true => rwa [UpperBounds.rename, if_pos possible]
  | false =>
  constructor
  · intro k loop
    obtain ⟨i, j, first, second, edge⟩ := (memGetRename possible (apart.on b.table)).mp loop
    rw [apart i j k first second] at edge
    exact order.irreflexive j edge
  · intro x y z first second
    obtain ⟨i, j, left, middle, edge⟩ := (memGetRename possible (apart.on b.table)).mp first
    obtain ⟨j', k, middle', right, next⟩ := (memGetRename possible (apart.on b.table)).mp second
    rw [apart j' j y middle' middle] at next
    exact (memGetRename possible (apart.on b.table)).mpr
      ⟨i, k, left, right, order.transitive i j k edge next⟩

theorem Ordered.forgetIf (order : b.Ordered) (drop : Identifier → Bool) :
    (b.forgetIf drop).Ordered := order.rename (apartForget drop)

theorem Ordered.pushScope (order : b.Ordered) (token : ScopeToken) :
    (b.pushScope token).Ordered := order.rename (Table.hideApart token)

theorem Ordered.join (left : a.Ordered) (right : b.Ordered) : (a.join b).Ordered := by
  cases possible : a.isBottom with
  | true => rwa [UpperBounds.join, if_pos possible]
  | false =>
  cases possible' : b.isBottom with
  | true => rwa [UpperBounds.join, if_neg (by simp [possible]), if_pos possible']
  | false =>
  have edges {x y : Identifier} := memGetJoin (x := x) (y := y) possible possible'
  refine ⟨fun x loop => left.irreflexive x (edges.mp loop).1, fun x y z first second => ?_⟩
  obtain ⟨first, first'⟩ := edges.mp first
  obtain ⟨second, second'⟩ := edges.mp second
  exact edges.mpr ⟨left.transitive x y z first second, right.transitive x y z first' second'⟩

theorem Ordered.widen (left : a.Ordered) (right : b.Ordered) : (a.widen b).Ordered := by
  cases possible : a.isBottom with
  | true => rwa [UpperBounds.widen, if_pos possible]
  | false =>
  cases possible' : b.isBottom with
  | true => rwa [UpperBounds.widen, if_neg (by simp [possible]), if_pos possible']
  | false =>
  have edges {x y : Identifier} := memGetWiden (x := x) (y := y) possible possible'
  refine ⟨fun x loop => left.irreflexive x (edges.mp loop).1, fun x y z first second => ?_⟩
  -- The set of `x` was kept whole, and it has whatever the set of `y` has.
  obtain ⟨first, kept⟩ := edges.mp first
  exact edges.mpr ⟨left.transitive x y z first (edges.mp second).1, kept⟩

theorem orderedMeet (a b : UpperBounds) : (a.meet b).Ordered := by
  unfold UpperBounds.meet
  split
  · exact orderedBottom
  split
  · rename_i closed ok
    constructor
    · intro x loop
      exact Reach.closedIrreflexive ok ((memGetOfTable (by decide)).mp loop)
    · intro x y z first second
      rw [memGetOfTable (by decide)] at first second ⊢
      exact Reach.closedTransitive ok first second
  · exact orderedBottom

theorem Ordered.narrow (left : a.Ordered) (right : b.Ordered) : (a.narrow b).Ordered := by
  unfold UpperBounds.narrow
  split
  · exact orderedBottom
  split
  · exact right
  · exact left

theorem Ordered.combine (op : LatticeOp) (left : a.Ordered) (right : b.Ordered) :
    (a.combine op b).Ordered :=
  match op with
  | .join => left.join right
  | .meet => orderedMeet a b
  | .widen => left.widen right
  | .narrow => left.narrow right

structure Compact (b : UpperBounds) : Prop where
  impossible : b.isBottom = true → b = bottom
  nonempty : ∀ x above, b.table.find x = some above → above.isEmpty = false

theorem compactTop : top.Compact := ⟨nofun, nofun⟩

theorem compactBottom : bottom.Compact := ⟨fun _ => rfl, nofun⟩

theorem compactOfTable (table : Table Names) : (ofTable .value table).Compact := by
  refine ⟨nofun, fun x above found => ?_⟩
  have kept : (table.filter fun _ above => !above.isEmpty).find x = some above := found
  rw [Table.findFilter, Option.filter_eq_some_iff] at kept
  simpa using kept.2

/-- A property of the impossible state and of every state that is built from a table: operations
lead to nothing else. -/
structure Lasting (P : UpperBounds → Prop) : Prop where
  impossible : P bottom
  built : ∀ table, P (ofTable .value table)

theorem compactLasting : Lasting Compact := ⟨compactBottom, compactOfTable⟩

def Declared (b : UpperBounds) : Prop := b = bottom ∨ b.kind = .value

theorem declaredLasting : Lasting Declared := ⟨.inl rfl, fun _ => .inr rfl⟩

theorem Declared.possible (declared : b.Declared) (possible : b.isBottom = false) :
    b.kind = .value := by
  rcases declared with rfl | value
  · contradiction
  · exact value

section
variable {P : UpperBounds → Prop} (lasting : Lasting P)
include lasting

theorem Lasting.rebuilt (before : P b) (table : Table Names) :
    P (if b.isBottom then b else ofTable .value table) := by
  split
  · exact before
  · exact lasting.built table

theorem Lasting.merged (left : P a) (right : P b) (table : Table Names) :
    P (if a.isBottom then b else if b.isBottom then a else ofTable .value table) := by
  split
  · exact right
  split
  · exact left
  · exact lasting.built table

theorem Lasting.put (before : P b) (id : Identifier) (above : Names) : P (b.put id above) :=
  lasting.rebuilt before _

theorem Lasting.addAbove (before : P b) (lower : Names) (upper : Identifier) :
    P (b.addAbove lower upper) := lasting.rebuilt before _

theorem Lasting.rename (before : P b) (f : Identifier → Option Identifier) : P (b.rename f) :=
  lasting.rebuilt before _

theorem Lasting.assign (before : P b) (id : Identifier) (e : Expr) : P (b.assign id e) := by
  have cleared : P (b.forget id) := lasting.rename before _
  unfold UpperBounds.assign
  split
  · exact before
  dsimp only
  split
  · exact lasting.put (lasting.addAbove cleared _ _) _ _
  repeat' split
  · exact cleared
  · exact lasting.addAbove cleared _ _
  · exact lasting.put cleared _ _
  · exact lasting.addAbove cleared _ _
  · exact lasting.put cleared _ _

theorem Lasting.assume (before : P b) (e : Expr) : P (b.assume e) := by
  unfold UpperBounds.assume
  repeat' split
  · exact before
  · exact before
  · exact lasting.impossible
  · exact lasting.built _

theorem Lasting.meet (a b : UpperBounds) : P (a.meet b) := by
  unfold UpperBounds.meet
  repeat' split
  · exact lasting.impossible
  · exact lasting.built _
  · exact lasting.impossible

theorem Lasting.narrow (left : P a) (right : P b) : P (a.narrow b) := by
  unfold UpperBounds.narrow
  repeat' split
  · exact lasting.impossible
  · exact right
  · exact left

theorem Lasting.combine (op : LatticeOp) (left : P a) (right : P b) : P (a.combine op b) :=
  match op with
  | .join => lasting.merged left right _
  | .meet => lasting.meet a b
  | .widen => lasting.merged left right _
  | .narrow => lasting.narrow left right

end

theorem Compact.findNone {x : Identifier} (compact : b.Compact) :
    b.table.find x = none ↔ ∀ y, y ∉ b.get x := by
  cases found : b.table.find x with
  | none =>
    refine iff_of_true rfl fun y edge => ?_
    obtain ⟨above, stored, _⟩ := Reach.edgeExact.mp edge
    rw [found] at stored
    contradiction
  | some above =>
    refine iff_of_false nofun fun absent => ?_
    have empty : above.isEmpty = true := Names.isEmptyExact.mpr fun y inside =>
      absent y (Reach.edgeExact.mpr ⟨above, found, inside⟩)
    rw [compact.nonempty x above found] at empty
    contradiction

theorem Compact.edgeOfKey {x : Identifier} (compact : b.Compact) (listed : x ∈ b.table.keys) :
    ∃ y, y ∈ b.get x := by
  obtain ⟨above, found⟩ := Table.findOfKey listed
  have known : b.table.find x ≠ none := by rw [found]; nofun
  simpa using mt compact.findNone.mpr known

theorem sameOfEdges (left : a.Compact) (right : b.Compact) (kind : a.kind = b.kind)
    (edges : ∀ x y, y ∈ a.get x ↔ y ∈ b.get x) : a.same b = true := by
  refine Bool.and_eq_true_iff.mpr ⟨beq_of_eq kind, Table.sameOfFind fun x => ?_⟩
  have listed : a.table.find x = none ↔ b.table.find x = none := by
    rw [left.findNone, right.findNone]
    exact forall_congr' fun y => not_congr (edges x y)
  cases found : a.table.find x with
  | none => rw [listed.mp found]; rfl
  | some above =>
  cases found' : b.table.find x with
  | none => rw [listed.mpr found'] at found; contradiction
  | some above' =>
    refine Names.beqExact.mpr fun y => ?_
    have stored : y ∈ a.get x ↔ y ∈ above := by rw [get, Reach.successors, found]; rfl
    have stored' : y ∈ b.get x ↔ y ∈ above' := by rw [get, Reach.successors, found']; rfl
    rw [← stored, ← stored', edges]

inductive Reachable : UpperBounds → Prop where
  | top : Reachable top
  | assign {b : UpperBounds} (id : Identifier) (e : Expr) : Reachable b → Reachable (b.assign id e)
  | assume {b : UpperBounds} (e : Expr) : Reachable b → Reachable (b.assume e)
  | combine {a b : UpperBounds} (op : LatticeOp) :
      Reachable a → Reachable b → Reachable (a.combine op b)
  | forget {b : UpperBounds} (id : Identifier) : Reachable b → Reachable (b.forget id)
  | forgetIf {b : UpperBounds} (drop : Identifier → Bool) : Reachable b → Reachable (b.forgetIf drop)
  | pushScope {b : UpperBounds} (token : ScopeToken) : Reachable b → Reachable (b.pushScope token)

theorem Reachable.ordered (reachable : Reachable b) : b.Ordered := by
  induction reachable with
  | top => exact orderedTop
  | assign id e _ order => exact order.assign id e
  | assume e _ order => exact order.assume e
  | combine op _ _ left right => exact left.combine op right
  | forget id _ order => exact order.forgetIf _
  | forgetIf drop _ order => exact order.forgetIf drop
  | pushScope token _ order => exact order.pushScope token

theorem Reachable.compact (reachable : Reachable b) : b.Compact := by
  induction reachable with
  | top => exact compactTop
  | assign id e _ compact => exact compactLasting.assign compact id e
  | assume e _ compact => exact compactLasting.assume compact e
  | combine op _ _ left right => exact compactLasting.combine op left right
  | forget id _ compact => exact compactLasting.rename compact _
  | forgetIf drop _ compact => exact compactLasting.rename compact _
  | pushScope token _ compact => exact compactLasting.rename compact _

theorem reachableStrictOrder (b : UpperBounds) (reachable : Reachable b) :
    (b.isBottom = true ∧ b.table.entries = []) ∨
      (b.isBottom = false ∧ (∀ x, x ∉ b.get x) ∧
        (∀ x y z, y ∈ b.get x → z ∈ b.get y → z ∈ b.get x) ∧
        ∀ x above, b.table.find x = some above → above.isEmpty = false) := by
  cases possible : b.isBottom with
  | true =>
    have same : b = bottom := reachable.compact.impossible possible
    subst same
    exact .inl ⟨rfl, rfl⟩
  | false =>
    exact .inr ⟨rfl, reachable.ordered.irreflexive, reachable.ordered.transitive,
      reachable.compact.nonempty⟩

theorem reachableStrictOrderChain :
    let x := Identifier.visible "x"
    let y := Identifier.visible "y"
    let z := Identifier.visible "z"
    let below (i j : Identifier) := Expr.binary .lt (.identifier i) (.identifier j)
    let chain := (top.assume (below x y)).combine .meet (top.assume (below y z))
    let cycle := chain.assume (below z x)
    (y ∈ chain.get x ∧ z ∈ chain.get y ∧ z ∈ chain.get x ∧ x ∉ chain.get x) ∧
      cycle.isBottom = true ∧ cycle.table.entries = [] := by
  intro x y z below chain cycle
  have reachable : Reachable chain := .combine .meet (.assume _ .top) (.assume _ .top)
  have first : y ∈ chain.get x := by decide
  have second : z ∈ chain.get y := by decide
  constructor
  · obtain ⟨impossible, _⟩ | ⟨_, irreflexive, transitive, _⟩ := reachableStrictOrder chain reachable
    · exact absurd impossible (by decide)
    · exact ⟨first, second, transitive x y z first second, irreflexive x⟩
  · obtain impossible | ⟨possible, _⟩ := reachableStrictOrder cycle (.assume _ reachable)
    · exact impossible
    · exact absurd possible (by decide)

end Abstraction.UpperBounds
