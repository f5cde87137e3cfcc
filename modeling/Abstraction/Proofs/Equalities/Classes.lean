import Mathlib.Data.List.Pairwise
import Abstraction.State.Equalities

/-! Must-equal classes as a relation: two identifiers are related if they are one, or if some class has
both. Operations keep the classes apart, so the relation is an equivalence; and what each of them
does to the classes is one equation for the relation. -/
namespace Abstraction.Equalities

variable {a b e : Equalities} {classes known rest : List Names} {c d : Names}
  {id v x y z : Identifier}

def Related (e : Equalities) (x y : Identifier) : Prop := x = y ∨ ∃ c ∈ e.classes, x ∈ c ∧ y ∈ c

instance (e : Equalities) (x y : Identifier) : Decidable (e.Related x y) :=
  inferInstanceAs (Decidable (x = y ∨ ∃ c ∈ e.classes, x ∈ c ∧ y ∈ c))

def Apart (c d : Names) : Prop := ∀ x, x ∈ c → x ∉ d

instance : Std.Symm Apart := ⟨fun _ _ apart x second first => apart x first second⟩

structure Partition (e : Equalities) : Prop where
  apart : e.classes.Pairwise Apart
  shared : ∀ c ∈ e.classes, 2 ≤ c.members.length

def Coherent (classes : List Names) : Prop :=
  ∀ c ∈ classes, ∀ d ∈ classes, ∀ x, x ∈ c → x ∈ d → (c == d) = true

section Building

theorem memAddClass (inside : d ∈ addClass classes c) : d ∈ classes ∨ d = c := by
  unfold addClass at inside
  split at inside
  · exact .inl inside
  · simpa using inside

theorem addClassKeeps (inside : d ∈ classes) (c : Names) : d ∈ addClass classes c := by
  unfold addClass
  split
  · exact inside
  · exact List.mem_append_left [c] inside

theorem addClassHas (classes : List Names) (c : Names) :
    ∃ d ∈ addClass classes c, (d == c) = true := by
  unfold addClass
  split
  · rename_i present
    exact List.any_eq_true.mp present
  · exact ⟨c, List.mem_append_right classes List.mem_cons_self, Names.beqExact.mpr fun _ => Iff.rfl⟩

theorem addedSource (inside : c ∈ rest.foldl addClass known) : c ∈ known ∨ c ∈ rest := by
  induction rest generalizing known with
  | nil => exact .inl inside
  | cons d rest ih =>
    rcases ih inside with earlier | later
    · rcases memAddClass earlier with old | rfl
      · exact .inl old
      · exact .inr List.mem_cons_self
    · exact .inr (List.mem_cons_of_mem d later)

theorem addedKeeps (inside : c ∈ known) (rest : List Names) : c ∈ rest.foldl addClass known := by
  induction rest generalizing known with
  | nil => exact inside
  | cons d rest ih => exact ih (addClassKeeps inside d)

theorem addedHas (listed : c ∈ rest) : ∃ d ∈ rest.foldl addClass known, (d == c) = true := by
  induction rest generalizing known with
  | nil => contradiction
  | cons d rest ih =>
    rcases List.mem_cons.mp listed with rfl | later
    · obtain ⟨d, inside, same⟩ := addClassHas known c
      exact ⟨d, addedKeeps inside rest, same⟩
    · exact ih later

theorem addedApart (coherent : Coherent (known ++ rest)) (apart : known.Pairwise Apart) :
    (rest.foldl addClass known).Pairwise Apart := by
  induction rest generalizing known with
  | nil => exact apart
  | cons c rest ih =>
    rw [List.foldl_cons]
    unfold addClass
    split
    · have later {d : Names} (inside : d ∈ known ++ rest) : d ∈ known ++ c :: rest :=
        List.mem_append.mpr ((List.mem_append.mp inside).imp_right (List.mem_cons_of_mem c))
      exact ih (fun d first d' second => coherent d (later first) d' (later second)) apart
    · rename_i absent
      refine ih (by rwa [List.append_assoc]) (List.pairwise_append.mpr ⟨apart, by simp, ?_⟩)
      intro d inside d' only x first second
      cases List.mem_singleton.mp only
      refine absent (List.any_eq_true.mpr ⟨d, inside, ?_⟩)
      exact coherent d (List.mem_append_left _ inside) c
        (List.mem_append_right known List.mem_cons_self) x first second

theorem memOfClasses (inside : c ∈ (ofClasses .value classes).classes) :
    c ∈ classes ∧ c.hasTwo = true := by
  rcases addedSource inside with nowhere | listed
  · contradiction
  · exact List.mem_filter.mp listed

theorem relatedOfClasses :
    (ofClasses .value classes).Related x y ↔ x = y ∨ ∃ c ∈ classes, x ∈ c ∧ y ∈ c := by
  by_cases same : x = y
  · exact iff_of_true (.inl same) (.inl same)
  constructor
  · intro known
    obtain ⟨c, inside, first, second⟩ := known.resolve_left same
    exact .inr ⟨c, (memOfClasses inside).1, first, second⟩
  · intro known
    obtain ⟨c, listed, first, second⟩ := known.resolve_left same
    have two : c.hasTwo = true := Names.hasTwoExact.mpr ⟨x, first, y, second, same⟩
    obtain ⟨d, inside, equal⟩ : ∃ d ∈ (ofClasses .value classes).classes, (d == c) = true :=
      addedHas (List.mem_filter.mpr ⟨listed, two⟩)
    have members := Names.beqExact.mp equal
    exact .inr ⟨d, inside, (members x).mpr first, (members y).mpr second⟩

theorem partitionOfClasses (coherent : Coherent classes) :
    (ofClasses .value classes).Partition := by
  constructor
  · refine addedApart (fun c first d second => coherent c ?_ d ?_) List.Pairwise.nil
    · exact (List.mem_filter.mp first).1
    · exact (List.mem_filter.mp second).1
  · intro c inside
    exact of_decide_eq_true (memOfClasses inside).2

end Building

theorem relatedRefl (e : Equalities) (x : Identifier) : e.Related x x := .inl rfl

theorem Related.symm (known : e.Related x y) : e.Related y x := by
  rcases known with rfl | ⟨c, listed, first, second⟩
  · exact .inl rfl
  · exact .inr ⟨c, listed, second, first⟩

namespace Partition

variable (partition : e.Partition)
include partition

theorem oneClass (left : c ∈ e.classes) (right : d ∈ e.classes) (first : x ∈ c) (second : x ∈ d) :
    c = d := by
  by_contra other
  exact partition.apart.forall left right other x first second

theorem coherent : Coherent e.classes := by
  intro c left d right x first second
  cases partition.oneClass left right first second
  exact Names.beqExact.mpr fun _ => Iff.rfl

theorem trans (first : e.Related x y) (second : e.Related y z) : e.Related x z := by
  rcases first with rfl | ⟨c, left, leftFirst, leftSecond⟩
  · exact second
  rcases second with rfl | ⟨d, right, rightFirst, rightSecond⟩
  · exact .inr ⟨c, left, leftFirst, leftSecond⟩
  · cases partition.oneClass left right leftSecond rightFirst
    exact .inr ⟨c, left, leftFirst, rightSecond⟩

theorem memClass (listed : c ∈ e.classes) (inside : x ∈ c) : y ∈ c ↔ e.Related x y := by
  constructor
  · intro member
    exact .inr ⟨c, listed, inside, member⟩
  · intro known
    rcases known with rfl | ⟨d, listed', first, second⟩
    · exact inside
    · rwa [partition.oneClass listed listed' inside first]

theorem memClassOf : y ∈ e.classOf x ↔ e.Related x y := by
  unfold classOf
  cases found : e.classes.find? (fun c => decide (x ∈ c)) with
  | none =>
    have alone : ¬ ∃ c ∈ e.classes, x ∈ c ∧ y ∈ c := by
      intro known
      obtain ⟨c, listed, inside, _⟩ := known
      exact absurd (decide_eq_true inside) (List.find?_eq_none.mp found c listed)
    rw [Option.getD_none, Names.memSingle, Related, or_iff_left alone, eq_comm]
  | some c =>
    have inside : x ∈ c := by simpa using List.find?_some found
    exact partition.memClass (List.mem_of_find?_eq_some found) inside

theorem classOfMember (listed : c ∈ e.classes) (inside : x ∈ c) (known : e.Related z x) :
    (c == e.classOf z) = true := by
  refine Names.beqExact.mpr fun y => ?_
  rw [partition.memClass listed inside, partition.memClassOf]
  exact ⟨partition.trans known, partition.trans known.symm⟩

end Partition

section Merging
variable {i j : Identifier}

def mergedClasses (e : Equalities) (i j : Identifier) : List Names :=
  (e.classes.filter fun c => !(c == e.classOf i) && !(c == e.classOf j)) ++
    [(e.classOf i).union (e.classOf j)]

theorem merged (possible : e.isBottom = false) (i j : Identifier) :
    ((e.classOf i == e.classOf j) = true ∧ e.merge i j = e) ∨
      e.merge i j = ofClasses .value (e.mergedClasses i j) := by
  rw [merge, if_neg (by simp [possible])]
  dsimp only
  split
  · rename_i same
    exact .inl ⟨same, rfl⟩
  · exact .inr rfl

theorem memMergedClasses : c ∈ e.mergedClasses i j ↔
    (c ∈ e.classes ∧ (c == e.classOf i) = false ∧ (c == e.classOf j) = false) ∨
      c = (e.classOf i).union (e.classOf j) := by
  simp [mergedClasses]

theorem relatedMergedClasses : (ofClasses .value (e.mergedClasses i j)).Related x y ↔
    e.Related x y ∨ (x ∈ (e.classOf i).union (e.classOf j) ∧
      y ∈ (e.classOf i).union (e.classOf j)) := by
  rw [relatedOfClasses]
  constructor
  · intro known
    rcases known with rfl | ⟨c, listed, first, second⟩
    · exact .inl (relatedRefl e x)
    rcases memMergedClasses.mp listed with ⟨listed, _⟩ | rfl
    · exact .inl (.inr ⟨c, listed, first, second⟩)
    · exact .inr ⟨first, second⟩
  · intro known
    rcases known with (rfl | ⟨c, listed, first, second⟩) | both
    · exact .inl rfl
    · by_cases kept : (c == e.classOf i) = false ∧ (c == e.classOf j) = false
      · exact .inr ⟨c, memMergedClasses.mpr (.inl ⟨listed, kept⟩), first, second⟩
      · refine .inr ⟨_, memMergedClasses.mpr (.inr rfl), ?_⟩
        rw [not_and_or, Bool.not_eq_false, Bool.not_eq_false] at kept
        have inside {z : Identifier} (member : z ∈ c) :
            z ∈ (e.classOf i).union (e.classOf j) :=
          Names.memUnion.mpr (kept.imp (fun same => (Names.beqExact.mp same z).mp member)
            fun same => (Names.beqExact.mp same z).mp member)
        exact ⟨inside first, inside second⟩
    · exact .inr ⟨_, memMergedClasses.mpr (.inr rfl), both⟩

namespace Partition
variable (partition : e.Partition)
include partition

theorem memUnion : x ∈ (e.classOf i).union (e.classOf j) ↔ e.Related i x ∨ e.Related j x := by
  rw [Names.memUnion, partition.memClassOf, partition.memClassOf]

theorem replaced (listed : c ∈ e.classes) (inside : x ∈ c)
    (member : x ∈ (e.classOf i).union (e.classOf j)) :
    ¬ ((c == e.classOf i) = false ∧ (c == e.classOf j) = false) := by
  intro other
  rcases partition.memUnion.mp member with left | right
  · rw [partition.classOfMember listed inside left] at other
    exact absurd other.1 Bool.noConfusion
  · rw [partition.classOfMember listed inside right] at other
    exact absurd other.2 Bool.noConfusion

theorem merge (i j : Identifier) : (e.merge i j).Partition := by
  cases possible : e.isBottom with
  | true => rwa [Equalities.merge, if_pos possible]
  | false =>
  rcases merged possible i j with ⟨_, same⟩ | same
  · rwa [same]
  rw [same]
  refine partitionOfClasses fun c first d second x left right => ?_
  rcases memMergedClasses.mp first with ⟨listed, other⟩ | rfl
  · rcases memMergedClasses.mp second with ⟨listed', _⟩ | rfl
    · exact partition.coherent c listed d listed' x left right
    · exact (partition.replaced listed left right other).elim
  · rcases memMergedClasses.mp second with ⟨listed', other⟩ | rfl
    · exact (partition.replaced listed' right left other).elim
    · exact Names.beqExact.mpr fun _ => Iff.rfl

theorem relatedMerge (possible : e.isBottom = false) :
    (e.merge i j).Related x y ↔ e.Related x y ∨ (e.Related x i ∧ e.Related j y) ∨
      (e.Related x j ∧ e.Related i y) := by
  rcases merged possible i j with ⟨one, same⟩ | same
  · have linked : e.Related i j :=
      partition.memClassOf.mp ((Names.beqExact.mp one j).mpr (e.memClassOf j))
    rw [same]
    constructor
    · exact .inl
    · intro known
      rcases known with known | ⟨first, second⟩ | ⟨first, second⟩
      · exact known
      · exact partition.trans first (partition.trans linked second)
      · exact partition.trans first (partition.trans linked.symm second)
  · rw [same, relatedMergedClasses, partition.memUnion, partition.memUnion]
    constructor
    · intro known
      rcases known with known | ⟨left | left, right | right⟩
      · exact .inl known
      · exact .inl (partition.trans left.symm right)
      · exact .inr (.inl ⟨left.symm, right⟩)
      · exact .inr (.inr ⟨left.symm, right⟩)
      · exact .inl (partition.trans left.symm right)
    · intro known
      rcases known with known | ⟨first, second⟩ | ⟨first, second⟩
      · exact .inl known
      · exact .inr ⟨.inl first.symm, .inr second⟩
      · exact .inr ⟨.inr first.symm, .inl second⟩

end Partition
end Merging

section Others
variable {drop : Identifier → Bool}

theorem relatedForgetIf (possible : e.isBottom = false) : (e.forgetIf drop).Related x y ↔
    x = y ∨ (e.Related x y ∧ drop x = false ∧ drop y = false) := by
  by_cases same : x = y
  · exact iff_of_true (.inl same) (.inl same)
  rw [forgetIf, if_neg (by simp [possible]), relatedOfClasses, or_iff_right same,
    or_iff_right same, Related, or_iff_right same]
  constructor
  · intro known
    obtain ⟨_, image, first, second⟩ := known
    obtain ⟨c, listed, rfl⟩ := List.mem_map.mp image
    obtain ⟨first, keep⟩ := Names.memFilter.mp first
    obtain ⟨second, keep'⟩ := Names.memFilter.mp second
    exact ⟨⟨c, listed, first, second⟩, by simpa using keep, by simpa using keep'⟩
  · intro known
    obtain ⟨⟨c, listed, first, second⟩, keep, keep'⟩ := known
    exact ⟨_, List.mem_map.mpr ⟨c, listed, rfl⟩, Names.memFilter.mpr ⟨first, by simp [keep]⟩,
      Names.memFilter.mpr ⟨second, by simp [keep']⟩⟩

theorem Partition.forgetIf (partition : e.Partition) (drop : Identifier → Bool) :
    (e.forgetIf drop).Partition := by
  unfold Equalities.forgetIf
  split
  · exact partition
  refine partitionOfClasses fun _ first _ second x left right => ?_
  obtain ⟨c, listed, rfl⟩ := List.mem_map.mp first
  obtain ⟨d, listed', rfl⟩ := List.mem_map.mp second
  cases partition.oneClass listed listed' (Names.memFilter.mp left).1 (Names.memFilter.mp right).1
  exact Names.beqExact.mpr fun _ => Iff.rfl

theorem relatedIsolate (possible : e.isBottom = false) :
    (e.isolate id).Related x y ↔ x = y ∨ (e.Related x y ∧ x ≠ id ∧ y ≠ id) := by
  rw [isolate, relatedForgetIf possible, decide_eq_false_iff_not, decide_eq_false_iff_not]

theorem relatedJoin (left : a.isBottom = false) (right : b.isBottom = false) :
    (a.join b).Related x y ↔ a.Related x y ∧ b.Related x y := by
  by_cases same : x = y
  · exact iff_of_true (.inl same) ⟨.inl same, .inl same⟩
  rw [join, if_neg (by simp [left]), if_neg (by simp [right]), relatedOfClasses, or_iff_right same,
    Related, Related, or_iff_right same, or_iff_right same]
  constructor
  · intro known
    obtain ⟨_, image, first, second⟩ := known
    obtain ⟨c, listed, inside⟩ := List.mem_flatMap.mp image
    obtain ⟨d, listed', rfl⟩ := List.mem_map.mp inside
    obtain ⟨first, first'⟩ := Names.memInter.mp first
    obtain ⟨second, second'⟩ := Names.memInter.mp second
    exact ⟨⟨c, listed, first, second⟩, d, listed', first', second'⟩
  · intro known
    obtain ⟨⟨c, listed, first, second⟩, d, listed', first', second'⟩ := known
    exact ⟨_, List.mem_flatMap.mpr ⟨c, listed, List.mem_map.mpr ⟨d, listed', rfl⟩⟩,
      Names.memInter.mpr ⟨first, first'⟩, Names.memInter.mpr ⟨second, second'⟩⟩

theorem Partition.join (left : a.Partition) (right : b.Partition) : (a.join b).Partition := by
  unfold Equalities.join
  split
  · exact right
  split
  · exact left
  refine partitionOfClasses fun _ first _ second x inside inside' => ?_
  obtain ⟨c, listed, first⟩ := List.mem_flatMap.mp first
  obtain ⟨d, within, rfl⟩ := List.mem_map.mp first
  obtain ⟨c', listed', second⟩ := List.mem_flatMap.mp second
  obtain ⟨d', within', rfl⟩ := List.mem_map.mp second
  obtain ⟨inC, inD⟩ := Names.memInter.mp inside
  obtain ⟨inC', inD'⟩ := Names.memInter.mp inside'
  cases left.oneClass listed listed' inC inC'
  cases right.oneClass within within' inD inD'
  exact Names.beqExact.mpr fun _ => Iff.rfl

end Others
end Abstraction.Equalities
