import Mathlib.Data.List.Forall2
import Mathlib.Logic.Relation
import Abstraction.State.Combine
import Abstraction.Proofs.Concrete
import Abstraction.Proofs.Equalities.Classes

/-! The lattice of must-equal classes is that of the finite equivalences, upside down: a state is below
another if it relates more, the join keeps what both relate, and the meet relates what follows from
both. The meet merges class by class and member by member, in any order with the same result. -/
namespace Abstraction.Equalities
open Relation (EqvGen)

variable {a b e : Equalities} {s : Store} {id i j x y z : Identifier}
  {R : Identifier → Identifier → Prop}

instance : Membership Store Equalities :=
  ⟨fun e s => e.isBottom = false ∧ ∀ c ∈ e.classes, ∀ x ∈ c, ∀ y ∈ c, s x = s y⟩

theorem memExact : s ∈ e ↔ e.isBottom = false ∧ ∀ x y, e.Related x y → s x = s y := by
  constructor
  · intro inside
    refine ⟨inside.1, fun x y known => ?_⟩
    rcases known with rfl | ⟨c, listed, first, second⟩
    · rfl
    · exact inside.2 c listed x first y second
  · intro known
    exact ⟨known.1, fun c listed x first y second => known.2 x y (.inr ⟨c, listed, first, second⟩)⟩

structure Valued (e : Equalities) : Prop where
  kind : e.kind = .value
  partition : e.Partition

theorem Valued.possible (valued : e.Valued) : e.isBottom = false := by
  rw [isBottom, valued.kind]
  rfl

theorem leqExact (left : a.Valued) (right : b.Valued) :
    a.leq b = true ↔ ∀ x y, b.Related x y → a.Related x y := by
  rw [leq, if_neg (by simp [left.possible]), if_neg (by simp [right.possible]), List.all_eq_true]
  constructor
  · intro included x y known
    rcases known with rfl | ⟨d, listed, first, second⟩
    · exact relatedRefl a x
    · obtain ⟨c, found, within⟩ := List.any_eq_true.mp (included d listed)
      have members := Names.subsetExact.mp within
      exact .inr ⟨c, found, members x first, members y second⟩
  · intro included d listed
    obtain ⟨x, first, y, second, other⟩ :=
      Names.hasTwoExact.mp (decide_eq_true (right.partition.shared d listed))
    -- The class that relates two of the members has all of them.
    have related {z : Identifier} (member : z ∈ d) : a.Related x z :=
      included x z (.inr ⟨d, listed, first, member⟩)
    obtain ⟨c, found, inside, _⟩ := (related second).resolve_left other
    refine List.any_eq_true.mpr ⟨c, found, Names.subsetExact.mpr fun z member => ?_⟩
    exact (left.partition.memClass found inside).mpr (related member)

/-- The store that tells the class of one identifier from all others. -/
def mark (e : Equalities) (x : Identifier) : Store := fun z => if z ∈ e.classOf x then 1 else 0

theorem Partition.markInside (partition : e.Partition) (possible : e.isBottom = false)
    (x : Identifier) : e.mark x ∈ e := by
  refine memExact.mpr ⟨possible, fun y z known => ?_⟩
  have same : y ∈ e.classOf x ↔ z ∈ e.classOf x := by
    rw [partition.memClassOf, partition.memClassOf]
    exact ⟨fun first => partition.trans first known, fun first => partition.trans first known.symm⟩
  simp only [mark, same]

theorem Partition.relatedOfMark (partition : e.Partition) (equal : e.mark x x = e.mark x y) :
    e.Related x y := by
  rw [mark, if_pos (e.memClassOf x), mark] at equal
  split at equal
  · rename_i member
    exact partition.memClassOf.mp member
  · contradiction

theorem leqStores (left : a.Valued) (right : b.Valued) :
    a.leq b = true ↔ ∀ s : Store, s ∈ a → s ∈ b := by
  rw [leqExact left right]
  constructor
  · intro included s inside
    exact memExact.mpr ⟨right.possible, fun x y known =>
      (memExact.mp inside).2 x y (included x y known)⟩
  · intro included x y known
    have marked := included _ (left.partition.markInside left.possible x)
    exact left.partition.relatedOfMark ((memExact.mp marked).2 x y known)

theorem Valued.sameClass (left : a.Valued) (right : b.Valued)
    (same : ∀ x y, a.Related x y ↔ b.Related x y) {c : Names} (listed : c ∈ a.classes) :
    ∃ d ∈ b.classes, (d == c) = true := by
  obtain ⟨x, first, y, second, other⟩ :=
    Names.hasTwoExact.mp (decide_eq_true (left.partition.shared c listed))
  have known : b.Related x y := (same x y).mp (.inr ⟨c, listed, first, second⟩)
  obtain ⟨d, found, inside, _⟩ := known.resolve_left other
  refine ⟨d, found, Names.beqExact.mpr fun z => ?_⟩
  rw [right.partition.memClass found inside, left.partition.memClass listed first, same]

theorem sameOfRelated (left : a.Valued) (right : b.Valued)
    (same : ∀ x y, a.Related x y ↔ b.Related x y) : a.same b = true := by
  have classes := fun c listed => List.any_eq_true.mpr (left.sameClass (c := c) right same listed)
  have classes' := fun c listed =>
    List.any_eq_true.mpr (right.sameClass (c := c) left (fun x y => (same x y).symm) listed)
  rw [Equalities.same, left.kind, right.kind, Bool.and_eq_true, Bool.and_eq_true]
  exact ⟨⟨rfl, List.all_eq_true.mpr classes⟩, List.all_eq_true.mpr classes'⟩

theorem relatedOfListed (listed : a.classes.all (fun c => b.classes.any (· == c)) = true)
    (known : a.Related x y) : b.Related x y := by
  rcases known with rfl | ⟨c, inside, first, second⟩
  · exact relatedRefl b x
  · obtain ⟨d, found, equal⟩ := List.any_eq_true.mp (List.all_eq_true.mp listed c inside)
    have members := Names.beqExact.mp equal
    exact .inr ⟨d, found, (members x).mpr first, (members y).mpr second⟩

theorem sameExact (left : a.Valued) (right : b.Valued) :
    a.same b = true ↔ ∀ x y, a.Related x y ↔ b.Related x y := by
  refine ⟨fun same x y => ?_, sameOfRelated left right⟩
  rw [Equalities.same, Bool.and_eq_true, Bool.and_eq_true] at same
  exact ⟨relatedOfListed same.1.2, relatedOfListed same.2⟩

section Meet

def mergeMembers (e : Equalities) : List Identifier → Equalities
  | [] => e
  | first :: rest => rest.foldl (fun e id => e.merge first id) e

theorem mergeClassExact (e : Equalities) (c : Names) : e.mergeClass c = e.mergeMembers c.members := by
  obtain ⟨members, distinct⟩ := c
  cases members with
  | nil => rfl
  | cons first rest => rfl

def mergeAll (e : Equalities) (order : List (List Identifier)) : Equalities :=
  order.foldl mergeMembers e

theorem meetExact (left : a.Valued) (right : b.Valued) :
    a.meet b = a.mergeAll (b.classes.map Names.members) := by
  rw [meet, if_neg (by simp [left.possible, right.possible]), mergeAll, List.foldl_map]
  exact congrArg (fun step => b.classes.foldl step a)
    (funext fun e => funext fun c => mergeClassExact e c)

/-- The members of the classes, class by class in some order, and of each class in some order. -/
def Listing (e : Equalities) (order : List (List Identifier)) : Prop :=
  ∃ stored, stored.Perm (e.classes.map Names.members) ∧ List.Forall₂ List.Perm order stored

theorem listingStored (e : Equalities) : e.Listing (e.classes.map Names.members) :=
  ⟨_, .refl _, List.forall₂_same.mpr fun members _ => .refl members⟩

def Within (e : Equalities) (R : Identifier → Identifier → Prop) : Prop :=
  ∀ x y, e.Related x y → R x y

theorem Valued.merge (valued : e.Valued) (i j : Identifier) : (e.merge i j).Valued := by
  refine ⟨?_, valued.partition.merge i j⟩
  rcases merged valued.possible i j with ⟨_, same⟩ | same
  · rw [same, valued.kind]
  · rw [same]
    rfl

theorem Valued.mergeWithin (valued : e.Valued) (equivalence : Equivalence R) :
    (e.merge i j).Within R ↔ e.Within R ∧ R i j := by
  have related {x y : Identifier} :=
    valued.partition.relatedMerge (i := i) (j := j) (x := x) (y := y) valued.possible
  constructor
  · intro within
    refine ⟨fun x y known => within x y (related.mpr (.inl known)), within i j (related.mpr ?_)⟩
    exact .inr (.inl ⟨relatedRefl e i, relatedRefl e j⟩)
  · intro known x y merged
    obtain ⟨within, linked⟩ := known
    rcases related.mp merged with known | ⟨first, second⟩ | ⟨first, second⟩
    · exact within x y known
    · exact equivalence.trans (within x i first) (equivalence.trans linked (within j y second))
    · exact equivalence.trans (within x j first)
        (equivalence.trans (equivalence.symm linked) (within i y second))

theorem Valued.mergeMembers (valued : e.Valued) (members : List Identifier) :
    (e.mergeMembers members).Valued := by
  cases members with
  | nil => exact valued
  | cons first rest =>
    change (rest.foldl (fun e id => e.merge first id) e).Valued
    induction rest generalizing e with
    | nil => exact valued
    | cons id rest ih => exact ih (valued.merge first id)

theorem Valued.mergeMembersWithin (valued : e.Valued) (equivalence : Equivalence R)
    (members : List Identifier) : (e.mergeMembers members).Within R ↔
      e.Within R ∧ ∀ x ∈ members, ∀ y ∈ members, R x y := by
  cases members with
  | nil => exact ⟨fun within => ⟨within, nofun⟩, And.left⟩
  | cons first rest =>
    have star : (rest.foldl (fun e id => e.merge first id) e).Within R ↔
        e.Within R ∧ ∀ x ∈ rest, R first x := by
      induction rest generalizing e with
      | nil => exact ⟨fun within => ⟨within, nofun⟩, And.left⟩
      | cons id rest ih =>
        rw [List.foldl_cons, ih (valued.merge first id), valued.mergeWithin equivalence, and_assoc,
          List.forall_mem_cons]
    change (rest.foldl (fun e id => e.merge first id) e).Within R ↔ _
    rw [star]
    refine and_congr_right fun _ => ⟨fun linked => ?_, fun linked x later => ?_⟩
    · have reached {x : Identifier} (listed : x ∈ first :: rest) : R first x := by
        rcases List.mem_cons.mp listed with rfl | later
        · exact equivalence.refl x
        · exact linked x later
      intro x left y right
      exact equivalence.trans (equivalence.symm (reached left)) (reached right)
    · exact linked first List.mem_cons_self x (List.mem_cons_of_mem first later)

theorem Valued.mergeAll (valued : e.Valued) (order : List (List Identifier)) :
    (e.mergeAll order).Valued := by
  induction order generalizing e with
  | nil => exact valued
  | cons members rest ih => exact ih (valued.mergeMembers members)

theorem Valued.mergeAllWithin (valued : e.Valued) (equivalence : Equivalence R)
    (order : List (List Identifier)) : (e.mergeAll order).Within R ↔
      e.Within R ∧ ∀ members ∈ order, ∀ x ∈ members, ∀ y ∈ members, R x y := by
  induction order generalizing e with
  | nil => exact ⟨fun within => ⟨within, nofun⟩, And.left⟩
  | cons members rest ih =>
    change ((e.mergeMembers members).mergeAll rest).Within R ↔ _
    rw [ih (valued.mergeMembers members), valued.mergeMembersWithin equivalence, and_assoc,
      List.forall_mem_cons]

theorem Listing.within {order : List (List Identifier)} (listing : e.Listing order)
    (equivalence : Equivalence R) :
    (∀ members ∈ order, ∀ x ∈ members, ∀ y ∈ members, R x y) ↔ e.Within R := by
  obtain ⟨stored, rearranged, listed⟩ := listing
  have visited : (∀ members ∈ order, ∀ x ∈ members, ∀ y ∈ members, R x y) ↔
      ∀ members ∈ stored, ∀ x ∈ members, ∀ y ∈ members, R x y := by
    clear rearranged
    induction listed with
    | nil => exact Iff.rfl
    | cons same _ ih => simp only [List.forall_mem_cons, ih, same.mem_iff]
  simp only [visited, rearranged.mem_iff, List.forall_mem_map]
  constructor
  · intro every x y known
    rcases known with rfl | ⟨c, listed, first, second⟩
    · exact equivalence.refl x
    · exact every c listed x first y second
  · intro within c listed x first y second
    exact within x y (.inr ⟨c, listed, first, second⟩)

def Either (a b : Equalities) (x y : Identifier) : Prop := a.Related x y ∨ b.Related x y

/- Least among the equivalences that have both: below each of them, and one of them itself. -/
theorem relatedMergeAll (left : a.Valued) {order : List (List Identifier)}
    (listing : b.Listing order) :
    (a.mergeAll order).Related x y ↔ EqvGen (Either a b) x y := by
  have withinIff {R : Identifier → Identifier → Prop} (equivalence : Equivalence R) :
      (a.mergeAll order).Within R ↔ a.Within R ∧ b.Within R := by
    rw [left.mergeAllWithin equivalence, listing.within equivalence]
  constructor
  · exact (withinIff (EqvGen.is_equivalence _)).mpr
      ⟨fun i j known => .rel i j (.inl known), fun i j known => .rel i j (.inr known)⟩ x y
  · have partition := (left.mergeAll order).partition
    have equivalence : Equivalence (a.mergeAll order).Related :=
      ⟨relatedRefl _, Related.symm, partition.trans⟩
    obtain ⟨first, second⟩ := (withinIff equivalence).mp fun _ _ => id
    intro known
    exact equivalence.eqvGen_iff.mp (known.mono fun i j either => either.elim (first i j) (second i j))

end Meet

theorem Valued.forgetIf (valued : e.Valued) (drop : Identifier → Bool) :
    (e.forgetIf drop).Valued := by
  refine ⟨?_, valued.partition.forgetIf drop⟩
  rw [Equalities.forgetIf, if_neg (by simp [valued.possible])]
  rfl

theorem Valued.assign (valued : e.Valued) (id : Identifier) (expr : Expr) :
    (e.assign id expr).Valued := by
  unfold Equalities.assign
  split
  · exact valued
  split
  · exact (valued.forgetIf _).merge id _
  · exact valued.forgetIf _

theorem Valued.join (left : a.Valued) (right : b.Valued) : (a.join b).Valued := by
  refine ⟨?_, left.partition.join right.partition⟩
  rw [Equalities.join, if_neg (by simp [left.possible]), if_neg (by simp [right.possible])]
  rfl

theorem Valued.meet (left : a.Valued) (right : b.Valued) : (a.meet b).Valued := by
  rw [meetExact left right]
  exact left.mergeAll _

def Formed (e : Equalities) : Prop := e = bottom ∨ e.Valued

theorem formedTop : top.Formed := .inr ⟨rfl, .nil, nofun⟩

theorem Formed.valued (formed : e.Formed) (possible : e.isBottom = false) : e.Valued := by
  rcases formed with rfl | valued
  · contradiction
  · exact valued

theorem Formed.merge (formed : e.Formed) (i j : Identifier) : (e.merge i j).Formed := by
  rcases formed with rfl | valued
  · exact .inl rfl
  · exact .inr (valued.merge i j)

theorem Formed.forgetIf (formed : e.Formed) (drop : Identifier → Bool) :
    (e.forgetIf drop).Formed := by
  rcases formed with rfl | valued
  · exact .inl rfl
  · exact .inr (valued.forgetIf drop)

theorem Formed.assign (formed : e.Formed) (id : Identifier) (expr : Expr) :
    (e.assign id expr).Formed := by
  rcases formed with rfl | valued
  · exact .inl rfl
  · exact .inr (valued.assign id expr)

theorem Formed.assume (formed : e.Formed) (expr : Expr) : (e.assume expr).Formed := by
  unfold Equalities.assume
  split
  · exact .inl rfl
  · exact formed

theorem Formed.join (left : a.Formed) (right : b.Formed) : (a.join b).Formed := by
  rcases left with rfl | first
  · exact right
  rcases right with rfl | second
  · have impossible : bottom.isBottom = true := rfl
    rw [Equalities.join, if_neg (by simp [first.possible]), if_pos impossible]
    exact .inr first
  · exact .inr (first.join second)

theorem Formed.meet (left : a.Formed) (right : b.Formed) : (a.meet b).Formed := by
  rcases left with rfl | first
  · exact .inl rfl
  rcases right with rfl | second
  · have impossible : (a.isBottom || bottom.isBottom) = true := Bool.or_true _
    rw [Equalities.meet, if_pos impossible]
    exact .inl rfl
  · exact .inr (first.meet second)

theorem Formed.combine (op : LatticeOp) (left : a.Formed) (right : b.Formed) :
    (a.combine op b).Formed :=
  match op with
  | .join => left.join right
  | .meet => left.meet right
  | .widen => left.join right
  | .narrow => right

/- Forgetting one identifier isolates it, and forgetting several is a case of `forgetIf`. -/
inductive Reachable : Equalities → Prop where
  | top : Reachable top
  | merge {e : Equalities} (i j : Identifier) : Reachable e → Reachable (e.merge i j)
  | isolate {e : Equalities} (id : Identifier) : Reachable e → Reachable (e.isolate id)
  | assign {e : Equalities} (id : Identifier) (expr : Expr) :
      Reachable e → Reachable (e.assign id expr)
  | assume {e : Equalities} (expr : Expr) : Reachable e → Reachable (e.assume expr)
  | forgetIf {e : Equalities} (drop : Identifier → Bool) : Reachable e → Reachable (e.forgetIf drop)
  | combine {a b : Equalities} (op : LatticeOp) :
      Reachable a → Reachable b → Reachable (a.combine op b)

theorem Reachable.formed (reachable : Reachable e) : e.Formed := by
  induction reachable with
  | top => exact formedTop
  | merge i j _ formed => exact formed.merge i j
  | isolate id _ formed => exact formed.forgetIf _
  | assign id expr _ formed => exact formed.assign id expr
  | assume expr _ formed => exact formed.assume expr
  | forgetIf drop _ formed => exact formed.forgetIf drop
  | combine op _ _ left right => exact left.combine op right

/- A meet is one of the ways to merge the classes of the second operand into those of the first, and all
ways have one result: the least equivalence above both. -/
theorem equivalenceLattice :
    (∀ e : Equalities, Reachable e → e = bottom ∨ (e.kind = .value ∧ e.Partition)) ∧
    ∀ a b : Equalities, a.kind = .value → b.kind = .value → a.Partition → b.Partition →
      (a.leq b = true ↔ ∀ x y, b.Related x y → a.Related x y) ∧
      (a.leq b = true ↔ ∀ s : Store, s ∈ a → s ∈ b) ∧
      ((a.join b).Partition ∧ ∀ x y, (a.join b).Related x y ↔ a.Related x y ∧ b.Related x y) ∧
      ((a.meet b).Partition ∧ ∀ x y, (a.meet b).Related x y ↔ EqvGen (Either a b) x y) ∧
      (b.Listing (b.classes.map Names.members) ∧
        a.meet b = a.mergeAll (b.classes.map Names.members)) ∧
      (∀ order, b.Listing order → (a.mergeAll order).same (a.meet b) = true ∧
        ∀ x y, (a.mergeAll order).Related x y ↔ EqvGen (Either a b) x y) ∧
      (a.leq b = true → b.leq a = true → a.same b = true) := by
  refine ⟨fun e reachable => reachable.formed.imp_right fun valued => ⟨valued.kind, valued.partition⟩,
    fun a b kind kind' partition partition' => ?_⟩
  have left : a.Valued := ⟨kind, partition⟩
  have right : b.Valued := ⟨kind', partition'⟩
  have met (x y : Identifier) : (a.meet b).Related x y ↔ EqvGen (Either a b) x y := by
    rw [meetExact left right]
    exact relatedMergeAll left (listingStored b)
  refine ⟨leqExact left right, leqStores left right,
    ⟨partition.join partition', fun x y => relatedJoin left.possible right.possible⟩,
    ⟨(left.meet right).partition, met⟩, ⟨listingStored b, meetExact left right⟩, ?_, ?_⟩
  · intro order listing
    have related (x y : Identifier) := relatedMergeAll (x := x) (y := y) left listing
    exact ⟨sameOfRelated (left.mergeAll order) (left.meet right) fun x y =>
      (related x y).trans (met x y).symm, related⟩
  · intro below above
    exact sameOfRelated left right fun x y =>
      ⟨(leqExact right left).mp above x y, (leqExact left right).mp below x y⟩

/- The classes `u = v` and `x = y` met with `u = x` and `v = w`, which link them: all five are one
class, also if the links are visited last to first and each from its other end. -/
theorem equivalenceLatticeLinked :
    let u := Identifier.visible "u"
    let v := Identifier.visible "v"
    let w := Identifier.visible "w"
    let x := Identifier.visible "x"
    let y := Identifier.visible "y"
    let ends := (top.merge u v).merge x y
    let links := (top.merge u x).merge v w
    ends.Partition ∧ links.Partition ∧ EqvGen (Either ends links) w y ∧
      ¬ (ends.join links).Related u v ∧ (¬ ∀ s : Store, s ∈ ends → s ∈ links) ∧
      (ends.mergeAll [[w, v], [x, u]]).same (ends.meet links) = true := by
  intro u v w x y ends links
  obtain ⟨formed, lattice⟩ := equivalenceLattice
  have first := (formed ends (.merge x y (.merge u v .top))).resolve_left fun same =>
    absurd (congrArg isBottom same) (by decide +kernel)
  have second := (formed links (.merge v w (.merge u x .top))).resolve_left fun same =>
    absurd (congrArg isBottom same) (by decide +kernel)
  obtain ⟨_, stores, ⟨_, joined⟩, ⟨_, met⟩, _, visits, _⟩ :=
    lattice ends links first.1 second.1 first.2 second.2
  have listing : links.Listing [[w, v], [x, u]] :=
    ⟨[[v, w], [u, x]], by decide +kernel, .cons (by decide) (.cons (by decide) .nil)⟩
  have apart : ¬ links.Related u v := by decide +kernel
  have unordered : ¬ ends.leq links = true := by decide +kernel
  exact ⟨first.2, second.2, (met w y).mp (by decide +kernel),
    fun known => apart ((joined u v).mp known).2, fun included => unordered (stores.mpr included),
    (visits _ listing).1⟩

end Abstraction.Equalities
