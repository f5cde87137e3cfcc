import Abstraction.Proofs.UpperBounds.Lattice
import Abstraction.Proofs.UpperBounds.Ordered

/-! Bounds added one guard at a time are those that one closure makes of all of them. What carries it is
that a state closes a relation: it records the ways along the relation, and is impossible where one
of them leads back. A guard adds an edge to the relation that a state closes, a meet closes the
bounds of both operands, and two states that close one relation are the same. -/
namespace Abstraction.UpperBounds
open Relation (TransGen)

variable {a b : UpperBounds} {e : Expr} {x y lower upper : Identifier}
  {R S : Identifier → Identifier → Prop}

structure Closes (R : Identifier → Identifier → Prop) (b : UpperBounds) : Prop where
  cyclic : b.isBottom = true ↔ ∃ x, TransGen R x x
  edges : b.isBottom = false → ∀ x y, y ∈ b.get x ↔ TransGen R x y

theorem Closes.congr (closes : Closes R b) (same : ∀ x y, R x y ↔ S x y) : Closes S b := by
  have equal : R = S := funext fun x => funext fun y => propext (same x y)
  rwa [equal] at closes

theorem closesCycle (impossible : b.isBottom = true) (cycle : TransGen R x x) : Closes R b :=
  ⟨iff_of_true impossible ⟨x, cycle⟩, fun possible => by simp [impossible] at possible⟩

theorem Closes.ordered (closes : Closes R b) (possible : b.isBottom = false) : b.Ordered := by
  have edges {x y : Identifier} := closes.edges possible x y
  refine ⟨fun x loop => ?_, fun x y z first second => ?_⟩
  · have impossible := closes.cyclic.mpr ⟨x, edges.mp loop⟩
    simp [possible] at impossible
  · exact edges.mpr ((edges.mp first).trans (edges.mp second))

theorem Ordered.wayRecorded (order : b.Ordered) (included : ∀ x y, R x y → y ∈ b.get x)
    (way : TransGen R x y) : y ∈ b.get x := by
  induction way with
  | single edge => exact included _ _ edge
  | tail _ edge before => exact order.transitive _ _ _ before (included _ _ edge)

theorem Ordered.closes (order : b.Ordered) (possible : b.isBottom = false)
    (included : ∀ x y, R x y → y ∈ b.get x) (ways : ∀ x y, y ∈ b.get x → TransGen R x y) :
    Closes R b := by
  refine ⟨iff_of_false (by simp [possible]) fun cycle => ?_, fun _ x y =>
    ⟨ways x y, order.wayRecorded included⟩⟩
  obtain ⟨x, way⟩ := cycle
  exact order.irreflexive x (order.wayRecorded included way)

theorem closesTop : Closes (fun _ _ => False) top :=
  orderedTop.closes rfl (fun _ _ => False.elim) fun _ y edge => (Names.notMemEmpty y edge).elim

theorem Ordered.closesOwn (order : b.Ordered) (possible : b.isBottom = false) :
    Closes (fun x y => y ∈ b.get x) b :=
  order.closes possible (fun _ _ => id) fun _ _ edge => .single edge

theorem closesMeet (left : a.isBottom = false) (right : b.isBottom = false) :
    Closes (Either a b) (a.meet b) := by
  have order := orderedMeet a b
  have step := met left right
  generalize a.meet b = next at order step
  cases step with
  | cyclic cycle => exact closesCycle rfl cycle
  | closed possible edges =>
    exact order.closes possible (fun x y edge => (edges x y).mpr (.single edge))
      fun x y => (edges x y).mp

def With (R : Identifier → Identifier → Prop) (lower upper x y : Identifier) : Prop :=
  R x y ∨ (x = lower ∧ y = upper)

theorem wayWith (way : TransGen R x y) : TransGen (With R lower upper) x y :=
  TransGen.mono (fun _ _ => .inl) _ _ way

/- A way over the new edge comes from `lower` or what is below it and goes on to `upper` or what is above
it, which is just what the guard adds. -/
theorem wayOver (low : TransGen R x lower ∨ x = lower) (high : TransGen R upper y ∨ y = upper) :
    TransGen (With R lower upper) x y := by
  have edge : With R lower upper lower upper := .inr ⟨rfl, rfl⟩
  have entering : TransGen (With R lower upper) x upper := by
    rcases low with low | rfl
    · exact .tail (wayWith low) edge
    · exact .single edge
  rcases high with high | rfl
  · exact entering.trans (wayWith high)
  · exact entering

theorem Closes.assume (closes : Closes R b) (shape : e.strictOrder = some (lower, upper)) :
    Closes (With R lower upper) (b.assume e) := by
  cases possible : b.isBottom with
  | true =>
    obtain ⟨x, cycle⟩ := closes.cyclic.mp possible
    rw [UpperBounds.assume, if_pos possible]
    exact closesCycle possible (wayWith cycle)
  | false =>
  have recorded {x y : Identifier} := closes.edges possible x y
  have order := (closes.ordered possible).assume e
  have step := assumed possible e
  generalize b.assume e = next at order step
  cases step with
  | unordered unstated => rw [shape] at unstated; contradiction
  | cyclic shape' back =>
    cases Option.some.inj (shape.symm.trans shape')
    exact closesCycle rfl (wayOver (.inr rfl) (back.symm.imp_left recorded.mp))
  | added shape' _ _ possible' edges =>
    cases Option.some.inj (shape.symm.trans shape')
    -- The new state is transitive, so it need only hold the edges of the relation one by one.
    apply order.closes possible'
    · intro x y known
      rw [edges]
      exact known.imp (fun edge => recorded.mpr (.single edge)) fun new => ⟨.inr new.1, .inr new.2⟩
    · intro x y known
      rcases (edges x y).mp known with old | ⟨low, high⟩
      · exact wayWith (recorded.mp old)
      · exact wayOver (low.imp_left recorded.mp) (high.imp_left recorded.mp)

theorem Closes.same (left : Closes R a) (right : Closes R b) (compact : a.Compact)
    (compact' : b.Compact) (declared : a.Declared) (declared' : b.Declared) : a.same b = true := by
  have alike : a.isBottom = b.isBottom :=
    Bool.eq_iff_iff.mpr (left.cyclic.trans right.cyclic.symm)
  cases possible : a.isBottom with
  | true =>
    rw [compact.impossible possible, compact'.impossible (alike.symm.trans possible)]
    rfl
  | false =>
    have possible' := alike.symm.trans possible
    have kind : a.kind = b.kind :=
      (declared.possible possible).trans (declared'.possible possible').symm
    exact sameOfEdges compact compact' kind fun x y =>
      (left.edges possible x y).trans (right.edges possible' x y).symm

theorem compactDeclaration (kind : Kind) (table : Table Names) : (ofTable kind table).Compact := by
  cases kind with
  | bottom => exact compactBottom
  | value => exact compactOfTable table
  | top => exact ⟨fun impossible => by contradiction, (compactOfTable table).nonempty⟩

theorem declaredAssume (compact : b.Compact) (shape : e.strictOrder = some (lower, upper)) :
    (b.assume e).Declared := by
  unfold UpperBounds.assume
  split
  · rename_i impossible
    exact .inl (compact.impossible impossible)
  rw [shape]
  dsimp only
  split
  · exact .inl rfl
  · exact .inr rfl

def less (x y : Identifier) : Expr := .binary .lt (.identifier x) (.identifier y)

def ofBound (x y : Identifier) : UpperBounds := ofTable .value (.ofList [(x, .single y)])

theorem memGetOfBound {i j : Identifier} : j ∈ (ofBound x y).get i ↔ i = x ∧ j = y := by
  rw [ofBound, memGetOfTable (by decide)]
  change Reach.Edge ((∅ : Table Names).set x (.single y)) i j ↔ _
  rw [Reach.edgeSet]
  split
  · rename_i same
    simp [same, Names.memSingle]
  · rename_i other
    exact iff_of_false (Names.notMemEmpty j) fun known => other known.1

theorem assumeMeets (compact : b.Compact) (order : b.isBottom = true ∨ b.Ordered)
    (shape : e.strictOrder = some (x, y)) : (b.assume e).same (b.meet (ofBound x y)) = true := by
  cases possible : b.isBottom with
  | true =>
    rw [UpperBounds.assume, if_pos possible, UpperBounds.meet, if_pos (by simp [possible]),
      compact.impossible possible]
    rfl
  | false =>
    have own := (order.resolve_left (by simp [possible])).closesOwn possible
    have meets : Closes (With (fun i j => j ∈ b.get i) x y) (b.meet (ofBound x y)) :=
      (closesMeet possible rfl).congr fun i j => or_congr_right memGetOfBound
    exact (own.assume shape).same meets (compactLasting.assume compact e) (compactLasting.meet _ _)
      (declaredAssume compact shape) (declaredLasting.meet _ _)

def assumeAll (b : UpperBounds) (guards : List (Identifier × Identifier)) : UpperBounds :=
  guards.foldl (fun b guard => b.assume (less guard.1 guard.2)) b

theorem Closes.assumeAll (closes : Closes R b) (guards : List (Identifier × Identifier)) :
    Closes (fun x y => R x y ∨ (x, y) ∈ guards) (b.assumeAll guards) := by
  induction guards generalizing b R with
  | nil => exact closes.congr fun x y => by simp
  | cons guard rest ih =>
    refine (ih (closes.assume (e := less guard.1 guard.2) rfl)).congr fun x y => ?_
    simp [With, or_assoc, Prod.ext_iff]

theorem Lasting.assumeAll {P : UpperBounds → Prop} (lasting : Lasting P) (before : P b)
    (guards : List (Identifier × Identifier)) : P (b.assumeAll guards) := by
  induction guards generalizing b with
  | nil => exact before
  | cons guard rest ih => exact ih (lasting.assume before _)

theorem closesGuards (guards : List (Identifier × Identifier)) :
    Closes (fun x y => (x, y) ∈ guards) (top.assumeAll guards) :=
  (closesTop.assumeAll guards).congr fun _ _ => by simp

theorem sameGuards {guards : List (Identifier × Identifier)}
    (closes : Closes (fun x y => (x, y) ∈ guards) b) (compact : b.Compact) (declared : b.Declared) :
    b.same (top.assumeAll guards) = true :=
  closes.same (closesGuards guards) compact (compactLasting.assumeAll compactTop guards) declared
    (declaredLasting.assumeAll (.inr rfl) guards)

/- One guard is a meet with its bound, so any number of them, in any order, is one meet with all their
bounds: the ways along the guards, or the impossible state if these lead back somewhere. -/
theorem closureIncremental :
    (∀ (kind : Kind) (table : Table Names),
      (ofTable kind table).isBottom = true ∨ (ofTable kind table).Ordered → ∀ x y : Identifier,
      ((ofTable kind table).assume (less x y)).same
        ((ofTable kind table).meet (ofBound x y)) = true) ∧
    ∀ guards : List (Identifier × Identifier),
      ((top.assumeAll guards).isBottom = true ↔ ∃ x, TransGen (fun i j => (i, j) ∈ guards) x x) ∧
      ((top.assumeAll guards).isBottom = false → ∀ x y,
        y ∈ (top.assumeAll guards).get x ↔ TransGen (fun i j => (i, j) ∈ guards) x y) ∧
      (∀ order : List (Identifier × Identifier), order.Perm guards →
        (top.assumeAll order).same (top.assumeAll guards) = true) ∧
      ∀ table : Table Names, (∀ x y, Reach.Edge table x y ↔ (x, y) ∈ guards) →
        (top.meet (ofTable .value table)).same (top.assumeAll guards) = true := by
  refine ⟨fun kind table order x y => assumeMeets (compactDeclaration kind table) order rfl,
    fun guards => ⟨(closesGuards guards).cyclic, (closesGuards guards).edges, ?_, ?_⟩⟩
  · intro order reordered
    have closes := (closesGuards order).congr fun x y => reordered.mem_iff
    exact sameGuards closes (compactLasting.assumeAll compactTop order)
      (declaredLasting.assumeAll (.inr rfl) order)
  · intro table listed
    have unknown (x y : Identifier) : y ∉ top.get x := Names.notMemEmpty y
    have closes : Closes (Either top (ofTable .value table)) (top.meet (ofTable .value table)) :=
      closesMeet rfl rfl
    refine sameGuards (closes.congr fun x y => ?_) (compactLasting.meet _ _) (declaredLasting.meet _ _)
    rw [Either, or_iff_right (unknown x y), memGetOfTable (by decide), listed]

/- After `x < y` the guards `y < z` and `y < x` are a meet each: the first adds the bound of `x` that
follows, the second closes a cycle. From nothing known, all three are impossible in every order. -/
theorem closureIncrementalCycle :
    let x := Identifier.visible "x"
    let y := Identifier.visible "y"
    let z := Identifier.visible "z"
    let table : Table Names := .ofList [(x, .single y)]
    let known := ofTable .value table
    (known.assume (less y z)).same (known.meet (ofBound y z)) = true ∧
      z ∈ (known.meet (ofBound y z)).get x ∧
      (known.assume (less y x)).same (known.meet (ofBound y x)) = true ∧
      (top.assumeAll [(y, z), (x, y)]).same (top.assumeAll [(x, y), (y, z)]) = true ∧
      TransGen (fun i j => (i, j) ∈ [(x, y), (y, z)]) x z ∧
      ∃ i, TransGen (fun i j => (i, j) ∈ [(y, z), (y, x), (x, y)]) i i := by
  intro x y z table known
  obtain ⟨single, several⟩ := closureIncremental
  have order : known.Ordered := orderedTop.assume (less x y)
  obtain ⟨_, ways, orders, _⟩ := several [(x, y), (y, z)]
  exact ⟨single .value table (.inr order) y z, by decide +kernel,
    single .value table (.inr order) y x, orders _ (.swap _ _ _),
    (ways (by decide +kernel) x z).mp (by decide +kernel),
    (several [(y, z), (y, x), (x, y)]).1.mp (by decide +kernel)⟩

end Abstraction.UpperBounds
