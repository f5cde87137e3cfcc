import Abstraction.Proofs.Congruence.Arithmetic
import Abstraction.Proofs.Environment.Lattice
import Abstraction.Proofs.Interval.Order

/-! Environments lift their values exactly: the order is the inclusion of stores, the meet their
intersection and the join the least environment above both. All of this depends on the value of each
identifier only, so an entry with top may be left out or put in. -/
namespace Abstraction.Environment

variable {V : Type} [ValueDomain V] {a a' b b' c c' env : Environment V} {f : V → V → V} {s : Store}

structure Alike (a b : Environment V) : Prop where
  impossible : a.isBottom = b.isBottom
  values : ∀ k, a.get k = b.get k

theorem alikeRefl (env : Environment V) : env.Alike env := ⟨rfl, fun _ => rfl⟩

theorem getImpossible (impossible : env.isBottom = true) (k : Identifier) :
    env.get k = ValueDomain.bottom := by rw [get, if_pos impossible]

theorem alikeImpossible (left : a.isBottom = true) (right : b.isBottom = true) : a.Alike b :=
  ⟨left.trans right.symm, fun k => by rw [getImpossible left, getImpossible right]⟩

def Within (allowed : V → Prop) (env : Environment V) : Prop :=
  env.isBottom = true ∨ ∀ k v, env.table.find k = some v → allowed v

instance (allowed : V → Prop) [DecidablePred allowed] (env : Environment V) :
    Decidable (env.Within allowed) :=
  decidable_of_iff (env.isBottom = true ∨ ∀ entry ∈ env.table.entries, allowed entry.2)
    (or_congr_right ⟨fun h k v found => h (k, v) (Table.findExact.mp found),
      fun h (k, v) stored => h k v (Table.findExact.mpr stored)⟩)

variable [Membership Int V] [SoundDomain V]

theorem isBottomPointwise (lifts : Lifts f) (left : a.isBottom = false)
    (right : b.isBottom = false) :
    (pointwise f a b).isBottom = true ↔
      ∃ k, ValueDomain.isBottom (f (a.get k) (b.get k)) = true := by
  rw [pointwise, isBottomOfTable, Table.anyValueExact]
  constructor
  · intro known
    obtain ⟨k, v, found, empty⟩ := known
    rw [Table.findTabulate] at found
    split at found <;> try contradiction
    cases Option.some.inj found
    exact ⟨k, empty⟩
  · intro known
    obtain ⟨k, empty⟩ := known
    refine ⟨k, _, ?_, empty⟩
    rw [Table.findTabulate]
    split
    · rfl
    · rename_i absent
      rw [Table.memKeysOfBoth, not_or] at absent
      rw [getUnlisted left absent.1, getUnlisted right absent.2, lifts.top,
        SoundDomain.possibleOfMember SoundDomain.regularTop (SoundDomain.memTop 0)] at empty
      contradiction

theorem alikePointwise (lifts : Lifts f) (left : a.Alike a') (right : b.Alike b')
    (possible : a.isBottom = false) (possible' : b.isBottom = false) :
    (pointwise f a b).Alike (pointwise f a' b') := by
  have possibles : a'.isBottom = false ∧ b'.isBottom = false :=
    ⟨left.impossible ▸ possible, right.impossible ▸ possible'⟩
  have outcome : (pointwise f a b).isBottom = true ↔ (pointwise f a' b').isBottom = true := by
    rw [isBottomPointwise lifts possible possible', isBottomPointwise lifts possibles.1 possibles.2]
    simp only [left.values, right.values]
  cases after : (pointwise f a b).isBottom with
  | true => exact alikeImpossible after (outcome.mp after)
  | false =>
    have after' : (pointwise f a' b').isBottom = false := by
      rw [← Bool.not_eq_true, ← outcome, after]
      exact Bool.false_ne_true
    refine ⟨after.trans after'.symm, fun k => ?_⟩
    rw [getPointwise lifts possible possible' after,
      getPointwise lifts possibles.1 possibles.2 after', left.values, right.values]

theorem alikeOuter (lifts : Lifts f) (left : a.Alike a') (right : b.Alike b') :
    (if a.isBottom then b else if b.isBottom then a else pointwise f a b).Alike
      (if a'.isBottom then b' else if b'.isBottom then a' else pointwise f a' b') := by
  rw [← left.impossible, ← right.impossible]
  split
  · exact right
  split
  · exact left
  · exact alikePointwise lifts left right (Bool.eq_false_iff.mpr ‹_›) (Bool.eq_false_iff.mpr ‹_›)

theorem alikeInner (lifts : Lifts f) (left : a.Alike a') (right : b.Alike b') :
    (if a.isBottom || b.isBottom then bottom else pointwise f a b).Alike
      (if a'.isBottom || b'.isBottom then bottom else pointwise f a' b') := by
  rw [← left.impossible, ← right.impossible]
  split
  · exact alikeRefl bottom
  · rename_i possible
    simp only [Bool.or_eq_true, not_or, Bool.not_eq_true] at possible
    exact alikePointwise lifts left right possible.1 possible.2

theorem Alike.mem (same : a.Alike b) : s ∈ a ↔ s ∈ b := by
  rw [memExact, memExact, same.impossible]
  simp only [same.values]

theorem Occupied.store (occupied : env.Occupied) (possible : env.isBottom = false) :
    ∃ s : Store, s ∈ env := by
  choose s members using occupied.member possible
  exact ⟨s, memExact.mpr ⟨possible, members⟩⟩

theorem Occupied.storeAt (occupied : env.Occupied) (possible : env.isBottom = false)
    {k : Identifier} {n : Int} (inside : n ∈ env.get k) : ∃ s : Store, s ∈ env ∧ s k = n := by
  obtain ⟨s, other⟩ := occupied.store possible
  refine ⟨s.set k n, memExact.mpr ⟨possible, fun j => ?_⟩, s.setSame k n⟩
  by_cases same : j = k
  · rwa [same, Store.setSame]
  · rw [Store.setOther s n same]
    exact memGet other j

def Usable (v : V) : Prop := SoundDomain.Regular v ∧ ValueDomain.isBottom v = false

theorem Within.occupied (within : env.Within Usable) (possible : env.isBottom = false) :
    env.Occupied := by
  have stored := within.resolve_left (by simp [possible])
  exact ⟨fun k v found => (stored k v found).1, fun k v found => (stored k v found).2⟩

theorem Within.alike (within : env.Within Usable) :
    ∃ base : Environment V, base.Occupied ∧ env.Alike base := by
  cases possible : env.isBottom with
  | true => exact ⟨bottom, occupiedBottom, alikeImpossible possible rfl⟩
  | false => exact ⟨env, within.occupied possible, alikeRefl env⟩

theorem Within.filled (within : env.Within Usable) {k : Identifier}
    (absent : env.knows k = false) : (env.put k ValueDomain.top).Alike env := by
  cases possible : env.isBottom with
  | true =>
    rw [Environment.put, if_pos possible]
    exact alikeRefl env
  | false =>
    have occupied := within.occupied possible
    obtain ⟨s, inside⟩ := occupied.store possible
    have kept : s ∈ env.put k ValueDomain.top :=
      (memPut occupied.regular SoundDomain.regularTop possible).mpr
        ⟨SoundDomain.memTop _, fun j _ v found => inside.2 j v found⟩
    refine ⟨kept.1.trans possible.symm, fun j => ?_⟩
    rw [getPut possible kept.1]
    split
    · rename_i same
      subst same
      exact (getUnlisted possible (of_decide_eq_false absent)).symm
    · rfl

variable [ExactDomain V]

theorem alikeCombine (op : LatticeOp) (left : a.Alike a') (right : b.Alike b') :
    (a.combine op b).Alike (a'.combine op b') :=
  match op with
  | .join => alikeOuter liftsJoin left right
  | .meet => alikeInner liftsMeet left right
  | .widen => alikeOuter liftsWiden left right
  | .narrow => alikeInner liftsNarrow left right

theorem alikeLeq (left : a.Alike a') (right : b.Alike b') : a.leq b = a'.leq b' := by
  cases possible : a.isBottom with
  | true =>
    rw [leqImpossible possible, leqImpossible (left.impossible ▸ possible)]
  | false =>
    rw [Bool.eq_iff_iff, leqPointwise possible, leqPointwise (left.impossible ▸ possible),
      right.impossible]
    simp only [left.values, right.values]

theorem leqOfStores (left : a.Occupied) (right : b.Regular)
    (included : ∀ s : Store, s ∈ a → s ∈ b) : a.leq b = true := by
  cases possible : a.isBottom with
  | true => exact leqImpossible possible b
  | false =>
    obtain ⟨s, inside⟩ := left.store possible
    refine leqOfMembers left.regular right (included s inside).1 fun k n member => ?_
    obtain ⟨t, inside, rfl⟩ := left.storeAt possible member
    exact memGet (included t inside) k

theorem meetImpossible (left : a.Occupied) (right : b.Occupied) :
    (a.meet b).isBottom = true ↔ ∀ s : Store, ¬ (s ∈ a ∧ s ∈ b) := by
  constructor
  · intro impossible s both
    have inside := (memMeet left.regular right.regular).mpr both
    rw [inside.1] at impossible
    contradiction
  · intro disjoint
    by_contra possible
    obtain ⟨s, inside⟩ := (left.meet right).store (Bool.eq_false_iff.mpr possible)
    exact disjoint s ((memMeet left.regular right.regular).mp inside)

theorem joinLeast (left : a.Occupied) (right : b.Occupied) (upper : c.Regular)
    (first : a.leq c = true) (second : b.leq c = true) : (a.join b).leq c = true := by
  cases possible : a.isBottom with
  | true => rwa [join, if_pos possible]
  | false =>
  cases possible' : b.isBottom with
  | true => rwa [join, outerImpossible possible possible']
  | false =>
    obtain ⟨above, first⟩ := (leqPointwise possible).mp first
    obtain ⟨_, second⟩ := (leqPointwise possible').mp second
    refine leqOfMembers (left.join right).regular upper above fun k n inside => ?_
    rw [getJoin left right possible possible'] at inside
    exact ExactDomain.joinLeast (regularGet upper above k) (regularGet left.regular possible k)
      (regularGet right.regular possible' k) (fun _ => SoundDomain.leqSound (first k))
      (fun _ => SoundDomain.leqSound (second k)) inside

structure ExactLift (a b c : Environment V) : Prop where
  order : a.leq b = true ↔ ∀ s : Store, s ∈ a → s ∈ b
  common : ∀ s : Store, s ∈ a.meet b ↔ s ∈ a ∧ s ∈ b
  disjoint : (a.meet b).isBottom = true ↔ ∀ s : Store, ¬ (s ∈ a ∧ s ∈ b)
  upper : a.leq (a.join b) = true ∧ b.leq (a.join b) = true
  least : a.leq c = true → b.leq c = true → (a.join b).leq c = true
  widened : (a.join b).leq (a.widen b) = true
  narrowed : b.leq a = true → b.leq (a.narrow b) = true ∧ (a.narrow b).leq a = true

structure Interchangeable (a b : Environment V) : Prop where
  filled : ∀ k, a.knows k = false → (a.put k ValueDomain.top).Alike a
  order : ∀ a' b', a.Alike a' → b.Alike b' → a.leq b = a'.leq b'
  stores : ∀ a', a.Alike a' → ∀ s : Store, s ∈ a ↔ s ∈ a'
  operations : ∀ a' b', a.Alike a' → b.Alike b' →
    ∀ op, (a.combine op b).Alike (a'.combine op b')

theorem exactOfOccupied (left : a.Occupied) (right : b.Occupied) (upper : c.Occupied) :
    ExactLift a b c where
  order := ⟨fun order _ => leqSound order, leqOfStores left right.regular⟩
  common _ := memMeet left.regular right.regular
  disjoint := meetImpossible left right
  upper := leqJoin left right
  least := joinLeast left right upper.regular
  widened := joinLeqWiden left right
  narrowed order := ⟨leqNarrow left right order, narrowLeq left right order⟩

theorem ExactLift.alike (left : a.Alike a') (right : b.Alike b') (upper : c.Alike c')
    (lift : ExactLift a' b' c') : ExactLift a b c := by
  have joined : (a.join b).Alike (a'.join b') := alikeCombine .join left right
  have met : (a.meet b).Alike (a'.meet b') := alikeCombine .meet left right
  have widened : (a.widen b).Alike (a'.widen b') := alikeCombine .widen left right
  have narrowed : (a.narrow b).Alike (a'.narrow b') := alikeCombine .narrow left right
  constructor
  · rw [alikeLeq left right]
    simp only [left.mem, right.mem]
    exact lift.order
  · intro s
    rw [met.mem, left.mem, right.mem]
    exact lift.common s
  · rw [met.impossible]
    simp only [left.mem, right.mem]
    exact lift.disjoint
  · rw [alikeLeq left joined, alikeLeq right joined]
    exact lift.upper
  · rw [alikeLeq left upper, alikeLeq right upper, alikeLeq joined upper]
    exact lift.least
  · rw [alikeLeq joined widened]
    exact lift.widened
  · rw [alikeLeq right left, alikeLeq right narrowed, alikeLeq narrowed left]
    exact lift.narrowed

theorem interchangeable (left : a.Within Usable) (b : Environment V) : Interchangeable a b where
  filled _ := left.filled
  order _ _ := alikeLeq
  stores _ same _ := same.mem
  operations _ _ left right op := alikeCombine op left right

theorem exactLift (left : a.Within Usable) (right : b.Within Usable) (upper : c.Within Usable) :
    ExactLift a b c := by
  obtain ⟨_, first, left⟩ := left.alike
  obtain ⟨_, second, right⟩ := right.alike
  obtain ⟨_, third, upper⟩ := upper.alike
  exact (exactOfOccupied first second third).alike left right upper

theorem latticeExact :
    (∀ a b c : Environment Interval, a.Within (fun v => v.Integral ∧ v.isEmpty = false) →
      b.Within (fun v => v.Integral ∧ v.isEmpty = false) →
      c.Within (fun v => v.Integral ∧ v.isEmpty = false) →
      ExactLift a b c ∧ Interchangeable a b) ∧
    ∀ a b c : Environment Congruence, a.Within (fun v => v.isEmpty = false) →
      b.Within (fun v => v.isEmpty = false) → c.Within (fun v => v.isEmpty = false) →
      ExactLift a b c ∧ Interchangeable a b := by
  have usable {env : Environment Congruence} (within : env.Within fun v => v.isEmpty = false) :
      env.Within Usable := within.imp_right fun stored k v found => ⟨trivial, stored k v found⟩
  exact ⟨fun _ b _ left right upper => ⟨exactLift left right upper, interchangeable left b⟩,
    fun _ b _ left right upper =>
      ⟨exactLift (usable left) (usable right) (usable upper), interchangeable (usable left) b⟩⟩

/- An entry with top beside a missing one: `y` is unrestricted on both sides, and `x` in `[5, 10]` is
common. The classes of 1 modulo 4 and of 2 modulo 6 have no common member. -/
theorem latticeExactMeeting :
    let x := Identifier.visible "x"
    let y := Identifier.visible "y"
    let low : Environment Interval :=
      ⟨.value, .ofList [(x, .ofBounds (.int 0) (.int 10)), (y, .whole)]⟩
    let high : Environment Interval := ⟨.value, .ofList [(x, .ofBounds (.int 5) .posInf)]⟩
    let positive : Environment Interval := ⟨.value, .ofList [(x, .ofBounds (.int 0) .posInf)]⟩
    let first : Environment Congruence := ⟨.value, .ofList [(x, .ofParts 4 1)]⟩
    let second : Environment Congruence := ⟨.value, .ofList [(x, .ofParts 6 2)]⟩
    (low.meet high).get x = .ofBounds (.int 5) (.int 10) ∧
      (∀ s : Store, s ∈ low.meet high ↔ s ∈ low ∧ s ∈ high) ∧
      (low.join high).leq positive = true ∧ (high.put y ValueDomain.top).Alike high ∧
      (∀ s : Store, ¬ (s ∈ first ∧ s ∈ second)) ∧ first.leq (first.join second) = true := by
  intro x y low high positive first second
  obtain ⟨intervals, _⟩ := latticeExact.1 low high positive (by decide +kernel) (by decide +kernel)
    (by decide +kernel)
  obtain ⟨_, same⟩ := latticeExact.1 high low positive (by decide +kernel) (by decide +kernel)
    (by decide +kernel)
  obtain ⟨classes, _⟩ := latticeExact.2 first second top (by decide +kernel) (by decide +kernel)
    (by decide +kernel)
  exact ⟨by decide +kernel, intervals.common, intervals.least (by decide +kernel) (by decide +kernel),
    same.filled y (by decide +kernel), classes.disjoint.mp (by decide +kernel), classes.upper.1⟩

end Abstraction.Environment
