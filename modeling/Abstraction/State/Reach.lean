import Abstraction.Names
import Abstraction.Table

/-! Transitive closure of a finite relation between identifiers, given as the table of successors.
Sweeps over the entries add to each, in place, what its successors have, until a sweep changes nothing.
A sweep that changes something adds an edge between identifiers the table mentions, so there is a
last one. -/
namespace Abstraction.Reach
open Relation (TransGen)

def successors (t : Table Names) (x : Identifier) : Names := (t.find x).getD ∅

def Edge (t : Table Names) (x y : Identifier) : Prop := y ∈ successors t x

instance (t : Table Names) (x y : Identifier) : Decidable (Edge t x y) :=
  inferInstanceAs (Decidable (y ∈ successors t x))

theorem edgeExact {t : Table Names} {x y : Identifier} :
    Edge t x y ↔ ∃ above, t.find x = some above ∧ y ∈ above := by
  unfold Edge successors
  cases t.find x with
  | none => simp [Names.notMemEmpty]
  | some above => simp

theorem edgeSet {t : Table Names} {id x y : Identifier} {above : Names} :
    Edge (t.set id above) x y ↔ if x = id then y ∈ above else Edge t x y := by
  unfold Edge successors
  rw [Table.findSet]
  split <;> simp

theorem edgeKey {t : Table Names} {x y : Identifier} (edge : Edge t x y) : x ∈ t.keys := by
  obtain ⟨above, found, _⟩ := edgeExact.mp edge
  exact Table.keyOfFind found

def addSuccessors (t : Table Names) (known : Names) (ys : List Identifier) : Names :=
  ys.foldl (fun known y => known.union (successors t y)) known

theorem memAddSuccessors {t : Table Names} {known : Names} {ys : List Identifier} {z : Identifier} :
    z ∈ addSuccessors t known ys ↔ z ∈ known ∨ ∃ y ∈ ys, Edge t y z := by
  unfold addSuccessors
  induction ys generalizing known with
  | nil => simp
  | cons y ys ih =>
    rw [List.foldl_cons, ih, Names.memUnion]
    simp [Edge, or_assoc]

def reach (t : Table Names) (above : Names) : Names := addSuccessors t above above.members

theorem memReach {t : Table Names} {above : Names} {z : Identifier} :
    z ∈ reach t above ↔ z ∈ above ∨ ∃ y ∈ above, Edge t y z :=
  memAddSuccessors

/-- Visits an entry as it was listed when the sweep began, in the table as it is by then. The flag
tells whether the sweep has changed anything. -/
def visit (state : Table Names × Bool) (entry : Identifier × Names) : Table Names × Bool :=
  let reached := reach state.1 entry.2
  if reached == entry.2 then state else (state.1.set entry.1 reached, true)

def sweep (order : List (Identifier × Names)) (t : Table Names) : Table Names × Bool :=
  order.foldl visit (t, false)

section Visit

variable {state : Table Names × Bool} {x : Identifier} {above : Names}

theorem edgeVisit {a b : Identifier} (stored : state.1.find x = some above) :
    Edge (visit state (x, above)).1 a b ↔
      Edge state.1 a b ∨ (a = x ∧ ∃ y, Edge state.1 x y ∧ Edge state.1 y b) := by
  have own (y : Identifier) : Edge state.1 x y ↔ y ∈ above := by simp [edgeExact, stored]
  have reached (z : Identifier) : z ∈ reach state.1 above ↔
      Edge state.1 x z ∨ ∃ y, Edge state.1 x y ∧ Edge state.1 y z := by
    simp only [memReach, own]
  simp only [visit]
  split
  · rename_i steady
    have composed := (reached b).symm.trans ((Names.beqExact.mp steady b).trans (own b).symm)
    constructor
    · exact .inl
    · intro known
      rcases known with edge | ⟨rfl, way⟩
      · exact edge
      · exact composed.mp (.inr way)
  · rw [edgeSet]
    split
    · rename_i same
      subst same
      rw [reached]
      simp
    · rename_i other
      simp [other]

theorem keysVisit (stored : state.1.find x = some above) :
    (visit state (x, above)).1.keys = state.1.keys := by
  simp only [visit]
  split
  · rfl
  · exact Table.keysSet (Table.keyOfFind stored)

theorem findVisit {k : Identifier} (other : k ≠ x) :
    (visit state (x, above)).1.find k = state.1.find k := by
  simp only [visit]
  split
  · rfl
  · rw [Table.findSet, if_neg other]

theorem visitSteady (steady : (visit state (x, above)).2 = false) :
    visit state (x, above) = state ∧ ∀ z, z ∈ reach state.1 above → z ∈ above := by
  simp only [visit] at steady ⊢
  split at steady <;> try contradiction
  rename_i same
  exact ⟨if_pos same, fun z => (Names.beqExact.mp same z).mp⟩

theorem visitGains (stored : state.1.find x = some above) (before : state.2 = false)
    (after : (visit state (x, above)).2 = true) :
    ∃ z, Edge (visit state (x, above)).1 x z ∧ ¬ Edge state.1 x z := by
  simp only [visit] at after ⊢
  split at after
  · rw [before] at after
    contradiction
  · rename_i changed
    rw [if_neg changed]
    -- The names reached include those listed, so they differ by a name that was not there.
    rw [Names.beqExact, Classical.not_forall] at changed
    obtain ⟨z, differs⟩ := changed
    have gained : z ∈ reach state.1 above ∧ z ∉ above := by
      rw [memReach] at differs ⊢
      by_cases known : z ∈ above <;> simp_all
    exact ⟨z, edgeSet.mpr (by rw [if_pos rfl]; exact gained.1), by simp [edgeExact, stored, gained.2]⟩

end Visit

structure Grows (s t : Table Names) : Prop where
  keys : t.keys = s.keys
  kept : ∀ {x y}, Edge s x y → Edge t x y
  way : ∀ {x y}, Edge t x y → TransGen (Edge s) x y

namespace Grows

variable {r s t : Table Names} {x y : Identifier}

theorem refl (t : Table Names) : Grows t t := ⟨rfl, id, .single⟩

theorem ways (grows : Grows s t) (way : TransGen (Edge t) x y) : TransGen (Edge s) x y := by
  induction way with
  | single edge => exact grows.way edge
  | tail _ edge before => exact before.trans (grows.way edge)

theorem trans (first : Grows r s) (second : Grows s t) : Grows r t :=
  ⟨second.keys.trans first.keys, fun edge => second.kept (first.kept edge),
    fun edge => first.ways (second.way edge)⟩

theorem visit {state : Table Names × Bool} {above : Names} (stored : state.1.find x = some above) :
    Grows state.1 (visit state (x, above)).1 where
  keys := keysVisit stored
  kept edge := (edgeVisit stored).mpr (.inl edge)
  way edge := by
    rcases (edgeVisit stored).mp edge with edge | ⟨rfl, _, enter, leave⟩
    · exact .single edge
    · exact .tail (.single enter) leave

end Grows

structure Lists (t : Table Names) (order : List (Identifier × Names)) : Prop where
  stored : ∀ entry ∈ order, t.find entry.1 = some entry.2
  distinct : (order.map Prod.fst).Nodup

theorem listsEntries (t : Table Names) : Lists t t.entries :=
  ⟨fun _ => Table.findExact.mpr, t.distinct⟩

section Sweep

variable {state : Table Names × Bool} {order rest : List (Identifier × Names)} {x : Identifier}
  {above : Names} {t : Table Names}

/- What is still to be visited is stored as it was listed: a visit changes its own entry only. -/
theorem Lists.visited (lists : Lists state.1 ((x, above) :: rest)) :
    Lists (visit state (x, above)).1 rest := by
  obtain ⟨fresh, distinct⟩ := List.nodup_cons.mp lists.distinct
  refine ⟨fun entry later => ?_, distinct⟩
  have other : entry.1 ≠ x := fun same => fresh (List.mem_map.mpr ⟨entry, later, same⟩)
  rw [findVisit other]
  exact lists.stored entry (List.mem_cons_of_mem _ later)

theorem growsVisits (lists : Lists state.1 order) : Grows state.1 (order.foldl visit state).1 := by
  induction order generalizing state with
  | nil => exact .refl _
  | cons entry rest ih =>
    have first : Grows state.1 (visit state entry).1 := .visit (lists.stored entry List.mem_cons_self)
    exact first.trans (ih lists.visited)

theorem visitsGain (lists : Lists state.1 order) (before : state.2 = false)
    (after : (order.foldl visit state).2 = true) :
    ∃ x z, Edge (order.foldl visit state).1 x z ∧ ¬ Edge state.1 x z := by
  induction order generalizing state with
  | nil =>
    rw [List.foldl_nil, before] at after
    contradiction
  | cons entry rest ih =>
    rw [List.foldl_cons] at after ⊢
    cases flag : (visit state entry).2 with
    | false =>
      have later := lists.visited
      rw [(visitSteady flag).1] at after later ⊢
      exact ih later before after
    | true =>
      obtain ⟨z, gained, fresh⟩ := visitGains (lists.stored entry List.mem_cons_self) before flag
      exact ⟨entry.1, z, (growsVisits lists.visited).kept gained, fresh⟩

theorem growsSweep (lists : Lists t order) : Grows t (sweep order t).1 :=
  @growsVisits (t, false) order lists

theorem sweepGains (lists : Lists t order) (changed : (sweep order t).2 = true) :
    ∃ x z, Edge (sweep order t).1 x z ∧ ¬ Edge t x z :=
  @visitsGain (t, false) order lists rfl changed

end Sweep

def Within (names : List Identifier) (t : Table Names) : Prop := ∀ x y, Edge t x y → y ∈ names

def missing (names : List Identifier) (t : Table Names) : List (Identifier × Identifier) :=
  (t.keys.flatMap fun x => names.map fun y => (x, y)).filter fun pair => decide (¬ Edge t pair.1 pair.2)

section Missing

variable {names : List Identifier} {s t : Table Names}

theorem Within.grows (within : Within names s) (grows : Grows s t) : Within names t := by
  intro x y edge
  cases grows.way edge with
  | single last => exact within x y last
  | tail _ last => exact within _ y last

theorem missingGrows (grows : Grows s t) :
    missing names t = (missing names s).filter fun pair => decide (¬ Edge t pair.1 pair.2) := by
  rw [missing, missing, grows.keys, List.filter_filter]
  apply List.filter_congr
  intro pair _
  by_cases old : Edge s pair.1 pair.2
  · simp [old, grows.kept old]
  · simp [old]

theorem fewerMissing (grows : Grows s t) (within : Within names t)
    (gained : ∃ x z, Edge t x z ∧ ¬ Edge s x z) :
    (missing names t).length < (missing names s).length := by
  obtain ⟨x, z, edge, fresh⟩ := gained
  have key : x ∈ s.keys := grows.keys ▸ edgeKey edge
  rw [missingGrows grows, List.length_filter_lt_length_iff_exists]
  refine ⟨(x, z), List.mem_filter.mpr ⟨?_, decide_eq_true fresh⟩, by simpa using edge⟩
  exact List.mem_flatMap.mpr ⟨x, key, List.mem_map.mpr ⟨z, within x z edge, rfl⟩⟩

end Missing

/-- Sweeps until nothing changes. It unfolds, so that closures of given tables evaluate. -/
@[semireducible]
def settle (names : List Identifier) (t : Table Names) (within : Within names t) : Table Names :=
  if (sweep t.entries t).2 then
    settle names (sweep t.entries t).1 (within.grows (growsSweep (listsEntries t)))
  else (sweep t.entries t).1
termination_by (missing names t).length
decreasing_by
  rename_i changed
  have grows := growsSweep (listsEntries t)
  exact fewerMissing grows (within.grows grows) (sweepGains (listsEntries t) changed)

def mentioned (t : Table Names) : List Identifier := t.entries.flatMap fun entry => entry.2.members

theorem withinMentioned (t : Table Names) : Within (mentioned t) t := by
  intro x y edge
  obtain ⟨above, found, inside⟩ := edgeExact.mp edge
  exact List.mem_flatMap.mpr ⟨(x, above), Table.findExact.mp found, inside⟩

def hasLoop (t : Table Names) : Bool := t.entries.any fun (x, above) => decide (x ∈ above)

def unlessLoop (closed : Table Names) : Option (Table Names) :=
  if hasLoop closed then none else some closed

def close (t : Table Names) : Option (Table Names) :=
  unlessLoop (settle (mentioned t) t (withinMentioned t))

end Abstraction.Reach
