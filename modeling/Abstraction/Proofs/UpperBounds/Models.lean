import Abstraction.Proofs.UpperBounds.Lattice
import Abstraction.Proofs.UpperBounds.Ordered

/-! Stores that tell bounds apart. If the recorded bounds are a strict order, the number of identifiers
below each is a store of them, and so is every store in which one identifier is raised together with
all above it. Hence no bound follows from the recorded ones but these, the order of states is the
inclusion of their stores, and a meet is impossible only where no store is common. -/
namespace Abstraction.UpperBounds

variable {a b c : UpperBounds} {s : Store} {x y : Identifier}

def heights (b : UpperBounds) : Store := fun x => (b.below x).members.length

/- Whatever is below `x` is below `y` too, and so is `x` itself, which is not below `x`. -/
theorem Ordered.heightRises (order : b.Ordered) (edge : y ∈ b.get x) :
    b.heights x < b.heights y := by
  have fresh : x ∉ (b.below x).members := fun loop => order.irreflexive x (memBelow.mp loop)
  have distinct : (x :: (b.below x).members).Nodup :=
    List.nodup_cons.mpr ⟨fresh, (b.below x).distinct⟩
  have lower : x :: (b.below x).members ⊆ (b.below y).members := by
    intro z listed
    apply memBelow.mpr
    rcases List.mem_cons.mp listed with rfl | beneath
    · exact edge
    · exact order.transitive z x y (memBelow.mp beneath) edge
  have shorter : (b.below x).members.length + 1 ≤ (b.below y).members.length :=
    distinct.length_le_of_subset lower
  exact Int.ofNat_lt.mpr shorter

theorem Ordered.heightsInside (order : b.Ordered) (possible : b.isBottom = false) :
    b.heights ∈ b := ⟨possible, fun _ _ => order.heightRises⟩

def From (b : UpperBounds) (x z : Identifier) : Prop := z = x ∨ z ∈ b.get x

instance (b : UpperBounds) (x z : Identifier) : Decidable (b.From x z) :=
  inferInstanceAs (Decidable (z = x ∨ z ∈ b.get x))

def raise (b : UpperBounds) (s : Store) (x : Identifier) (n : Nat) : Store :=
  fun z => if b.From x z then s z + n else s z

theorem Ordered.raiseInside (order : b.Ordered) (inside : s ∈ b) (x : Identifier) (n : Nat) :
    b.raise s x n ∈ b := by
  refine ⟨inside.1, fun z w edge => ?_⟩
  have rises : s z < s w := inside.2 z w edge
  unfold raise
  by_cases lower : b.From x z
  · have upper : b.From x w := by
      rcases lower with rfl | above
      · exact .inr edge
      · exact .inr (order.transitive x z w above edge)
    rw [if_pos lower, if_pos upper]
    omega
  · rw [if_neg lower]
    split <;> omega

theorem Ordered.refuted (order : b.Ordered) (possible : b.isBottom = false)
    (unrecorded : y ∉ b.get x) : ∃ s ∈ b, ¬ s x < s y := by
  have inside := order.heightsInside possible
  by_cases same : y = x
  · exact ⟨b.heights, inside, same ▸ Int.lt_irrefl _⟩
  -- Raised by the height of `y`, which is not raised itself, `x` is at least as high.
  refine ⟨_, order.raiseInside inside x (b.below y).members.length, ?_⟩
  have kept : ¬ b.From x y := fun known => known.elim same unrecorded
  rw [raise, if_pos (.inl rfl), raise, if_neg kept, heights, heights]
  omega

theorem leqOfStores (left : a.isBottom = true ∨ a.Ordered)
    (included : ∀ s : Store, s ∈ a → s ∈ b) : a.leq b = true := by
  cases possible : a.isBottom with
  | true => exact leqExact.mpr (.inl possible)
  | false =>
    have order : a.Ordered := left.resolve_left (by simp [possible])
    have possible' : b.isBottom = false := (included _ (order.heightsInside possible)).1
    refine leqExact.mpr (.inr ⟨possible', fun x y bound => ?_⟩)
    by_contra unrecorded
    obtain ⟨s, inside, refutes⟩ := order.refuted possible unrecorded
    exact refutes ((included s inside).2 x y bound)

theorem leqSound (order : a.leq b = true) (inside : s ∈ a) : s ∈ b := by
  rcases leqExact.mp order with impossible | ⟨possible, recorded⟩
  · rw [inside.1] at impossible
    contradiction
  · exact ⟨possible, fun x y bound => inside.2 x y (recorded x y bound)⟩

theorem meetImpossible : (a.meet b).isBottom = true ↔ ∀ s : Store, ¬ (s ∈ a ∧ s ∈ b) := by
  constructor
  · intro impossible s both
    have inside := memMeet.mpr both
    rw [inside.1] at impossible
    contradiction
  · intro disjoint
    by_contra possible
    have inside := (orderedMeet a b).heightsInside (Bool.eq_false_iff.mpr possible)
    exact disjoint _ (memMeet.mp inside)

theorem leqJoin (a b : UpperBounds) : a.leq (a.join b) = true ∧ b.leq (a.join b) = true := by
  cases possible : a.isBottom with
  | true =>
    rw [join, if_pos possible]
    refine ⟨leqExact.mpr (.inl possible), ?_⟩
    cases possible' : b.isBottom with
    | true => exact leqExact.mpr (.inl possible')
    | false => exact leqExact.mpr (.inr ⟨possible', fun _ _ => id⟩)
  | false =>
  cases possible' : b.isBottom with
  | true =>
    rw [join, if_neg (by simp [possible]), if_pos possible']
    exact ⟨leqExact.mpr (.inr ⟨possible, fun _ _ => id⟩), leqExact.mpr (.inl possible')⟩
  | false =>
    have after : (a.join b).isBottom = false := by rw [isBottomJoin, possible]; rfl
    have recorded {x y : Identifier} (bound : y ∈ (a.join b).get x) :=
      (memGetJoin possible possible').mp bound
    exact ⟨leqExact.mpr (.inr ⟨after, fun _ _ bound => (recorded bound).1⟩),
      leqExact.mpr (.inr ⟨after, fun _ _ bound => (recorded bound).2⟩)⟩

theorem joinOrdered (left : a.isBottom = true ∨ a.Ordered) (right : b.isBottom = true ∨ b.Ordered)
    (either : a.isBottom = false ∨ b.isBottom = false) : (a.join b).Ordered := by
  rcases left with impossible | order
  · rw [join, if_pos impossible]
    exact right.resolve_left (by simpa [impossible] using either)
  rcases right with impossible | order'
  · cases possible : a.isBottom with
    | true => simp [possible, impossible] at either
    | false => rwa [join, if_neg (by simp [possible]), if_pos impossible]
  · exact order.join order'

theorem joinLeast (first : a.leq c = true) (second : b.leq c = true) :
    (a.join b).leq c = true := by
  cases possible : a.isBottom with
  | true => rwa [join, if_pos possible]
  | false =>
  cases possible' : b.isBottom with
  | true => rwa [join, if_neg (by simp [possible]), if_pos possible']
  | false =>
    obtain ⟨upper, left⟩ := (leqExact.mp first).resolve_left (by simp [possible])
    obtain ⟨_, right⟩ := (leqExact.mp second).resolve_left (by simp [possible'])
    refine leqExact.mpr (.inr ⟨upper, fun x y bound => ?_⟩)
    exact (memGetJoin possible possible').mpr ⟨left x y bound, right x y bound⟩

/- For strict orders the lattice of bounds is that of their stores. Only the join may have more stores
than the two operands: it is the least state above both, and a state cannot say "or". -/
theorem latticeComplete (a b : UpperBounds) (left : a.isBottom = true ∨ a.Ordered)
    (right : b.isBottom = true ∨ b.Ordered) :
    (a.isBottom = false → ∃ s : Store, s ∈ a) ∧
    (a.leq b = true ↔ ∀ s : Store, s ∈ a → s ∈ b) ∧
    ((a.meet b).isBottom = true ↔ ∀ s : Store, ¬ (s ∈ a ∧ s ∈ b)) ∧
    (∀ s : Store, s ∈ a.meet b ↔ s ∈ a ∧ s ∈ b) ∧
    (a.isBottom = false ∨ b.isBottom = false → (a.join b).isBottom = false ∧ (a.join b).Ordered) ∧
    (a.leq (a.join b) = true ∧ b.leq (a.join b) = true) ∧
    ∀ c : UpperBounds, c.isBottom = true ∨ c.Ordered → a.leq c = true → b.leq c = true →
      (a.join b).leq c = true := by
  have order (possible : a.isBottom = false) : a.Ordered := left.resolve_left (by simp [possible])
  refine ⟨fun possible => ⟨_, (order possible).heightsInside possible⟩,
    ⟨fun order _ => leqSound order, leqOfStores left⟩, meetImpossible, fun _ => memMeet, ?_,
    leqJoin a b, fun _ _ => joinLeast⟩
  intro either
  refine ⟨?_, joinOrdered left right either⟩
  rw [isBottomJoin, Bool.and_eq_false_iff]
  exact either

theorem latticeCompleteChain :
    let x := Identifier.visible "x"
    let y := Identifier.visible "y"
    let z := Identifier.visible "z"
    let below (i j : Identifier) := Expr.binary .lt (.identifier i) (.identifier j)
    let chain := (top.assume (below x y)).assume (below y z)
    let ends := top.assume (below x z)
    let back := top.assume (below z x)
    (∃ s : Store, s ∈ chain) ∧ (∀ s : Store, s ∈ chain → s ∈ ends) ∧
      (¬ ∀ s : Store, s ∈ ends → s ∈ chain) ∧ (∀ s : Store, ¬ (s ∈ chain ∧ s ∈ back)) ∧
      (chain.join ends).Ordered ∧ (chain.join ends).leq ends = true := by
  intro x y z below chain ends back
  have first : chain.Ordered := (orderedTop.assume _).assume _
  have second : ends.Ordered := orderedTop.assume _
  have third : back.Ordered := orderedTop.assume _
  obtain ⟨occupied, order, _, _, joined, _, least⟩ :=
    latticeComplete chain ends (.inr first) (.inr second)
  obtain ⟨_, strict, _⟩ := latticeComplete ends chain (.inr second) (.inr first)
  obtain ⟨_, _, disjoint, _⟩ := latticeComplete chain back (.inr first) (.inr third)
  exact ⟨occupied (by decide), order.mp (by decide), fun included => absurd (strict.mpr included)
    (by decide), disjoint.mp (by decide), (joined (.inl (by decide))).2,
    least ends (.inr second) (by decide) (by decide)⟩

end Abstraction.UpperBounds
