import Abstraction.State.Transfer
import Abstraction.Proofs.Equalities.Lattice

/-! Transfer functions of must-equal classes lose nothing. The stores of an assignment are the images of
the stores before it: an identifier that leaves its class had there the value of its companions, so
that a store before is found for every store after. A query is undecided only where both outcomes
occur. -/
namespace Abstraction.Equalities

variable {e : Equalities} {s t : Store} {id i j l r v x y : Identifier} {op : Operator}

theorem Valued.memMerge (valued : e.Valued) : s ∈ e.merge i j ↔ s ∈ e ∧ s i = s j := by
  have equivalence : Equivalence fun x y => s x = s y := ⟨fun _ => rfl, Eq.symm, Eq.trans⟩
  have within := valued.mergeWithin (i := i) (j := j) equivalence
  rw [memExact, memExact]
  constructor
  · intro inside
    obtain ⟨kept, linked⟩ := within.mp inside.2
    exact ⟨⟨valued.possible, kept⟩, linked⟩
  · intro inside
    exact ⟨(valued.merge i j).possible, within.mpr ⟨inside.1.2, inside.2⟩⟩

theorem Partition.isolated (partition : e.Partition) (possible : e.isBottom = false)
    (id : Identifier) : (e.isolate id).Valued := by
  refine ⟨?_, partition.forgetIf _⟩
  rw [isolate, Equalities.forgetIf, if_neg (by simp [possible])]
  rfl

theorem memIsolateOthers (possible : e.isBottom = false) (inside : s ∈ e.isolate id)
    (known : e.Related x y) (first : x ≠ id) (second : y ≠ id) : s x = s y :=
  (memExact.mp inside).2 x y ((relatedIsolate possible).mpr (.inr ⟨known, first, second⟩))

theorem setInsideIsolate (possible : e.isBottom = false) (partition : e.Partition) (inside : t ∈ e)
    (n : Int) : t.set id n ∈ e.isolate id := by
  refine memExact.mpr ⟨(partition.isolated possible id).possible, fun x y known => ?_⟩
  rcases (relatedIsolate possible).mp known with rfl | ⟨known, first, second⟩
  · rfl
  · rw [Store.setOther t n first, Store.setOther t n second]
    exact (memExact.mp inside).2 x y known

/- The store before an identifier was set: where a companion has kept the old value, it has that value
again; an identifier without companions may have had any. -/
theorem Partition.storeBefore (partition : e.Partition) (possible : e.isBottom = false)
    (inside : s ∈ e.isolate id) : ∃ n, s.set id n ∈ e := by
  by_cases companion : ∃ v, v ≠ id ∧ e.Related id v
  · obtain ⟨v, other, shared⟩ := companion
    have moved (x : Identifier) : ∃ z, z ≠ id ∧ e.Related x z ∧ s.set id (s v) x = s z := by
      by_cases same : x = id
      · exact ⟨v, other, same ▸ shared, by rw [same, Store.setSame]⟩
      · exact ⟨x, same, relatedRefl e x, Store.setOther s _ same⟩
    refine ⟨s v, memExact.mpr ⟨possible, fun x y known => ?_⟩⟩
    obtain ⟨i, first, left, atX⟩ := moved x
    obtain ⟨j, second, right, atY⟩ := moved y
    have linked : e.Related i j := partition.trans left.symm (partition.trans known right)
    rw [atX, atY]
    exact memIsolateOthers possible inside linked first second
  · have alone {z : Identifier} (known : e.Related id z) : z = id := by
      by_contra other
      exact companion ⟨z, other, known⟩
    refine ⟨s id, ?_⟩
    rw [Store.setSelf]
    refine memExact.mpr ⟨possible, fun x y known => ?_⟩
    by_cases first : x = id
    · subst first
      rw [alone known]
    by_cases second : y = id
    · subst second
      rw [alone known.symm]
    · exact memIsolateOthers possible inside known first second

theorem Partition.memIsolate (partition : e.Partition) (possible : e.isBottom = false) :
    s ∈ e.isolate id ↔ ∃ t ∈ e, ∃ n, s = t.set id n := by
  constructor
  · intro inside
    obtain ⟨n, before⟩ := partition.storeBefore possible inside
    exact ⟨_, before, s id, by rw [Store.setAgain, Store.setSelf]⟩
  · intro known
    obtain ⟨t, before, n, rfl⟩ := known
    exact setInsideIsolate possible partition before n

theorem assignOther {expr : Expr} (possible : e.isBottom = false)
    (other : ∀ v, expr ≠ .identifier v) : e.assign id expr = e.isolate id := by
  rw [assign, if_neg (by simp [possible, other id])]
  exact other

theorem assignOwn (e : Equalities) (id : Identifier) : e.assign id (.identifier id) = e := by
  rw [assign, if_pos (by simp)]

theorem assignCopy (possible : e.isBottom = false) (other : v ≠ id) :
    e.assign id (.identifier v) = (e.isolate id).merge id v := by
  rw [assign, if_neg (by simp [possible, other])]

theorem Partition.memAssignCopy (partition : e.Partition) (possible : e.isBottom = false) :
    s ∈ e.assign id (.identifier v) ↔ ∃ t ∈ e, s = t.set id (t v) := by
  by_cases own : v = id
  · subst own
    rw [assignOwn]
    constructor
    · intro inside
      exact ⟨s, inside, (Store.setSelf s v).symm⟩
    · intro known
      obtain ⟨t, inside, rfl⟩ := known
      rwa [Store.setSelf]
  rw [assignCopy possible own, (partition.isolated possible id).memMerge,
    partition.memIsolate possible]
  constructor
  · intro known
    obtain ⟨⟨t, inside, n, rfl⟩, equal⟩ := known
    rw [Store.setSame, Store.setOther t n own] at equal
    exact ⟨t, inside, by rw [equal]⟩
  · intro known
    obtain ⟨t, inside, rfl⟩ := known
    exact ⟨⟨t, inside, t v, rfl⟩, by rw [Store.setSame, Store.setOther t _ own]⟩

/-- What is known of a guard: the verdict on it is the best one, and it is impossible exactly if no store
satisfies it. Otherwise nothing is learnt from it. -/
structure GuardExact (e : Equalities) (guard : Expr) (outcome : Store → Bool) : Prop where
  decides : Verdict.Decides (· ∈ e) outcome (e.satisfies guard)
  refuted : e.assume guard = bottom ↔ ∀ s ∈ e, outcome s = false
  kept : (∃ s ∈ e, outcome s = true) → e.assume guard = e

theorem guardExactOf {guard : Expr} {outcome : Store → Bool} (possible : e.isBottom = false)
    (decides : Verdict.Decides (· ∈ e) outcome (e.satisfies guard)) :
    e.GuardExact guard outcome := by
  have differs : e ≠ bottom := by
    intro same
    rw [same] at possible
    contradiction
  refine ⟨decides, ?_, ?_⟩
  · rw [← decides.fails, assume]
    split
    · rename_i fails
      exact iff_of_true rfl fails
    · rename_i undecided
      exact iff_of_false differs undecided
  · intro known
    obtain ⟨s, inside, holds⟩ := known
    refine if_neg fun fails => ?_
    rw [decides.fails.mp fails s inside] at holds
    contradiction

section Queries

theorem satisfiesPair (possible : e.isBottom = false) (equality : op = .eq ∨ op = .ne) :
    e.satisfies (.binary op (.identifier l) (.identifier r)) =
      if r ∈ e.classOf l then .of (decide (op = .eq)) else .unknown := by
  have shape : (Expr.binary op (.identifier l) (.identifier r)).comparison =
      some ⟨op, l, r, false⟩ := rfl
  rw [satisfies, if_neg (by simp [possible]), shape]
  simp only [equality, true_and, Bool.bne_false]

theorem satisfiesNegated (possible : e.isBottom = false) (equality : op = .eq ∨ op = .ne) :
    e.satisfies (.unary .not (.binary op (.identifier l) (.identifier r))) =
      (e.satisfies (.binary op (.identifier l) (.identifier r))).negate := by
  have shape : (Expr.unary .not (.binary op (.identifier l) (.identifier r))).comparison =
      some ⟨op, l, r, true⟩ := rfl
  rw [satisfiesPair possible equality, satisfies, if_neg (by simp [possible]), shape]
  simp only [equality, true_and, Bool.bne_true]
  split
  · cases decide (op = .eq) <;> rfl
  · rfl

theorem constantInside (possible : e.isBottom = false) (n : Int) : (fun _ => n : Store) ∈ e :=
  ⟨possible, fun _ _ _ _ _ _ => rfl⟩

namespace Partition

variable (partition : e.Partition) (possible : e.isBottom = false)
include partition possible

theorem bothOccur (apart : ¬ e.Related l r) (equal : Bool) :
    ∃ s ∈ e, decide (s l = s r) = equal := by
  cases equal with
  | true => exact ⟨_, constantInside possible 0, decide_eq_true rfl⟩
  | false =>
    exact ⟨_, partition.markInside possible l,
      decide_eq_false fun agree => apart (partition.relatedOfMark agree)⟩

theorem satisfiesDecides (equality : op = .eq ∨ op = .ne) :
    Verdict.Decides (· ∈ e) (fun s : Store => op.holds (s l) (s r))
      (e.satisfies (.binary op (.identifier l) (.identifier r))) := by
  rw [satisfiesPair possible equality]
  apply Verdict.decidesOf ⟨_, constantInside possible 0⟩
  · intro s inside
    split
    · rename_i member
      have agree : s l = s r := (memExact.mp inside).2 l r (partition.memClassOf.mp member)
      rcases equality with rfl | rfl <;> simp [Operator.holds, agree, Verdict.of, Verdict.Admits]
    · trivial
  · intro unknown outcome
    have apart : ¬ e.Related l r := by
      intro known
      rw [if_pos (partition.memClassOf.mpr known)] at unknown
      rcases equality with rfl | rfl <;> contradiction
    rcases equality with rfl | rfl
    · exact partition.bothOccur possible apart outcome
    · obtain ⟨s, inside, agree⟩ := partition.bothOccur possible apart (!outcome)
      refine ⟨s, inside, ?_⟩
      rw [Operator.holds, decide_not, agree, Bool.not_not]

end Partition
end Queries

theorem transferExact (e : Equalities) (possible : e.isBottom = false) (partition : e.Partition) :
    (∀ (id v : Identifier) (s : Store),
      s ∈ e.assign id (.identifier v) ↔ ∃ t ∈ e, s = t.set id (t v)) ∧
    (∀ (id : Identifier) (expr : Expr), (∀ v, expr ≠ .identifier v) → ∀ s : Store,
      s ∈ e.assign id expr ↔ ∃ t ∈ e, ∃ n, s = t.set id n) ∧
    (∀ id : Identifier, (State.equalities e).forget id = .equalities (e.isolate id) ∧
      ∀ s : Store, s ∈ e.isolate id ↔ ∃ t ∈ e, ∃ n, s = t.set id n) ∧
    ∀ (op : Operator) (l r : Identifier), op = .eq ∨ op = .ne →
      e.GuardExact (.binary op (.identifier l) (.identifier r))
        (fun s => op.holds (s l) (s r)) ∧
      e.GuardExact (.unary .not (.binary op (.identifier l) (.identifier r)))
        (fun s => !op.holds (s l) (s r)) := by
  refine ⟨fun id v s => partition.memAssignCopy possible, fun id expr other s => ?_,
    fun id => ⟨rfl, fun s => partition.memIsolate possible⟩, fun op l r equality => ?_⟩
  · rw [assignOther possible other]
    exact partition.memIsolate possible
  · have decides := partition.satisfiesDecides (l := l) (r := r) possible equality
    refine ⟨guardExactOf possible decides, guardExactOf possible ?_⟩
    rw [satisfiesNegated possible equality]
    exact decides.negate

/- In the state that knows `a = b` alone, `a := c` leaves `b` without companions: the equality with `b` is
lost, and that with `c` is gained. The guard `!(b == a)` is impossible, and `a != c` is open. -/
theorem transferExactPair :
    let a := Identifier.visible "a"
    let b := Identifier.visible "b"
    let c := Identifier.visible "c"
    let e := top.merge a b
    let equal (i j : Identifier) := Expr.binary .eq (.identifier i) (.identifier j)
    e.Partition ∧ (∀ s ∈ e.assign a (.identifier c), s a = s c) ∧
      (∃ s ∈ e.assign a (.identifier c), s a ≠ s b) ∧
      (∃ s ∈ e.assign a (.binary .add (.identifier b) (.identifier b)), s a ≠ s b) ∧
      e.assume (.unary .not (equal b a)) = bottom ∧
      (∃ s ∈ e, s a ≠ s c) ∧ e.assume (.unary .not (equal a c)) = e := by
  intro a b c e equal
  have valued : e.Valued := (formedTop.merge a b).valued (by decide)
  obtain ⟨copies, others, _, guards⟩ := transferExact e (by decide) valued.partition
  have inside : e.mark c ∈ e := valued.partition.markInside valued.possible c
  have sum (v : Identifier) : Expr.binary .add (.identifier b) (.identifier b) ≠ .identifier v :=
    Expr.noConfusion
  refine ⟨valued.partition, fun s known => ?_,
    ⟨_, (copies a c _).mpr ⟨_, inside, rfl⟩, by decide +kernel⟩,
    ⟨_, (others a _ sum _).mpr ⟨_, inside, 1, rfl⟩, by decide +kernel⟩,
    (guards .eq b a (.inl rfl)).2.refuted.mpr fun s known => ?_, ⟨_, inside, by decide +kernel⟩,
    (guards .eq a c (.inl rfl)).2.kept ⟨_, inside, by decide +kernel⟩⟩
  · obtain ⟨t, _, rfl⟩ := (copies a c s).mp known
    rw [Store.setSame, Store.setOther t _ (by decide)]
  · have agree : s b = s a := (memExact.mp known).2 b a (by decide +kernel)
    simp [Operator.holds, agree]

end Abstraction.Equalities
