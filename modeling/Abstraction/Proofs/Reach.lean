import Mathlib.Logic.Relation
import Abstraction.State.Reach
import Abstraction.Proofs.Table

/-! The closure is exact: its edges are the ways along the edges it started from, and it fails only on a
way back. The order of the visits does not matter, and may change from sweep to sweep: what any sweeps
add are ways, each one that changes something uses up one of finitely many missing edges, and a
sweep that changes nothing has found every entry composed. -/
namespace Abstraction.Reach
open Relation (TransGen)

variable {s t closed : Table Names} {order : List (Identifier × Names)} {x y z : Identifier} {n : Nat}

theorem listsPerm (listed : order.Perm t.entries) : Lists t order where
  stored _ inside := Table.findExact.mpr (listed.mem_iff.mp inside)
  distinct := (listed.map Prod.fst).nodup_iff.mpr t.distinct

theorem visitsSteady {state : Table Names × Bool} (steady : (order.foldl visit state).2 = false) :
    order.foldl visit state = state ∧
      ∀ entry ∈ order, ∀ z, z ∈ reach state.1 entry.2 → z ∈ entry.2 := by
  induction order generalizing state with
  | nil => simp
  | cons entry rest ih =>
    obtain ⟨same, later⟩ := ih steady
    have flag : (visit state entry).2 = false := by
      rw [List.foldl_cons, same] at steady
      exact steady
    obtain ⟨unchanged, own⟩ := visitSteady flag
    rw [unchanged] at same later
    rw [List.foldl_cons, unchanged]
    refine ⟨same, fun other listed => ?_⟩
    rcases List.mem_cons.mp listed with rfl | inside
    · exact own
    · exact later other inside

theorem sweepSteady (listed : order.Perm t.entries) (steady : (sweep order t).2 = false) :
    (sweep order t).1 = t ∧ ∀ x y z, Edge t x y → Edge t y z → Edge t x z := by
  obtain ⟨same, composed⟩ := visitsSteady steady
  refine ⟨congrArg Prod.fst same, fun x y z first second => ?_⟩
  obtain ⟨above, found, inside⟩ := edgeExact.mp first
  have visited : (x, above) ∈ order := listed.mem_iff.mpr (Table.findExact.mp found)
  exact edgeExact.mpr ⟨above, found,
    composed (x, above) visited z (memReach.mpr (.inr ⟨y, inside, second⟩))⟩

/-- The second table comes from the first by so many sweeps, each of which changed something and took
the entries in an order of its own. -/
inductive Swept (t : Table Names) : Nat → Table Names → Prop where
  | start : Swept t 0 t
  | again {n : Nat} {s : Table Names} {order : List (Identifier × Names)} (before : Swept t n s)
      (listed : order.Perm s.entries) (changed : (sweep order s).2 = true) :
      Swept t (n + 1) (sweep order s).1

theorem Swept.grows (swept : Swept t n s) : Grows t s := by
  induction swept with
  | start => exact .refl t
  | again _ listed _ before => exact before.trans (growsSweep (listsPerm listed))

theorem Swept.missing (swept : Swept t n s) :
    n + (missing (mentioned t) s).length ≤ (missing (mentioned t) t).length := by
  induction swept with
  | start => omega
  | again earlier listed changed before =>
    have lists := listsPerm listed
    have grows := growsSweep lists
    have within := ((withinMentioned t).grows earlier.grows).grows grows
    have fewer := fewerMissing grows within (sweepGains lists changed)
    omega

theorem missingLe (names : List Identifier) (t : Table Names) :
    (missing names t).length ≤ t.keys.length * names.length := by
  have kept := List.length_filter_le (fun pair => decide (¬ Edge t pair.1 pair.2))
    (t.keys.flatMap fun x => names.map fun y => (x, y))
  simpa [missing, List.length_flatMap] using kept

theorem settleSwept {root : Table Names} (names : List Identifier) (t : Table Names)
    (within : Within names t) (swept : Swept root n t) :
    ∃ m s, Swept root m s ∧ (sweep s.entries s).2 = false ∧
      settle names t within = (sweep s.entries s).1 := by
  induction t, within using settle.induct generalizing n with
  | case1 t within changed ih =>
    rw [settle, if_pos changed]
    exact ih (swept.again (.refl _) changed)
  | case2 t within steady =>
    rw [settle, if_neg steady]
    exact ⟨n, t, swept, Bool.not_eq_true _ ▸ steady, rfl⟩

structure Closure (t closed : Table Names) : Prop where
  keys : closed.keys = t.keys
  edges : ∀ x y, Edge closed x y ↔ TransGen (Edge t) x y

theorem Swept.closure (swept : Swept t n s) (listed : order.Perm s.entries)
    (steady : (sweep order s).2 = false) : Closure t (sweep order s).1 := by
  obtain ⟨same, transitive⟩ := sweepSteady listed steady
  rw [same]
  refine ⟨swept.grows.keys, fun x y => ⟨swept.grows.way, fun way => ?_⟩⟩
  induction way with
  | single edge => exact swept.grows.kept edge
  | tail _ edge before => exact transitive _ _ _ before (swept.grows.kept edge)

theorem hasLoopExact : hasLoop t = true ↔ ∃ x, Edge t x x := by
  rw [hasLoop, List.any_eq_true]
  constructor
  · intro known
    obtain ⟨⟨x, above⟩, stored, inside⟩ := known
    exact ⟨x, edgeExact.mpr ⟨above, Table.findExact.mpr stored, of_decide_eq_true inside⟩⟩
  · intro known
    obtain ⟨x, loop⟩ := known
    obtain ⟨above, found, inside⟩ := edgeExact.mp loop
    exact ⟨(x, above), Table.findExact.mp found, decide_eq_true inside⟩

structure Answers (t : Table Names) (result : Option (Table Names)) : Prop where
  cyclic : result = none ↔ ∃ x, TransGen (Edge t) x x
  closed : ∀ closed, result = some closed → Closure t closed

theorem Closure.answers (closure : Closure t closed) : Answers t (unlessLoop closed) := by
  have looped : hasLoop closed = true ↔ ∃ x, TransGen (Edge t) x x := by
    simp only [hasLoopExact, closure.edges]
  unfold unlessLoop
  constructor
  · rw [← looped]
    simp
  · intro result ok
    split at ok <;> try contradiction
    cases Option.some.inj ok
    exact closure

theorem closeSwept (t : Table Names) : ∃ n s, Swept t n s ∧ (sweep s.entries s).2 = false ∧
    close t = unlessLoop (sweep s.entries s).1 := by
  obtain ⟨n, s, swept, steady, result⟩ := settleSwept _ t (withinMentioned t) .start
  exact ⟨n, s, swept, steady, congrArg unlessLoop result⟩

theorem closeAnswers (t : Table Names) : Answers t (close t) := by
  obtain ⟨_, _, swept, steady, result⟩ := closeSwept t
  rw [result]
  exact (swept.closure (.refl _) steady).answers

theorem closedExact (ok : close t = some closed) : Edge closed x y ↔ TransGen (Edge t) x y :=
  ((closeAnswers t).closed closed ok).edges x y

theorem closedTransitive (ok : close t = some closed) (first : Edge closed x y)
    (second : Edge closed y z) : Edge closed x z := by
  rw [closedExact ok] at first second ⊢
  exact first.trans second

theorem cycleOfNotClosed (failed : close t = none) : ∃ x, TransGen (Edge t) x x :=
  (closeAnswers t).cyclic.mp failed

theorem closedIrreflexive (ok : close t = some closed) : ¬ Edge closed x x := by
  intro loop
  rw [(closeAnswers t).cyclic.mpr ⟨x, (closedExact ok).mp loop⟩] at ok
  contradiction

/- Whatever order each sweep takes the entries in, there are at most as many changing sweeps as pairs of
a key and a mentioned name, and the first sweep that changes nothing ends with the answer. The
closure is such a run: its sweeps take the entries as they are stored. -/
theorem sweepsExact (t : Table Names) :
    (∀ n s, Swept t n s → n ≤ t.keys.length * (mentioned t).length ∧
      ∀ order, order.Perm s.entries → (sweep order s).2 = false →
        Answers t (unlessLoop (sweep order s).1)) ∧
    (∃ n s, Swept t n s ∧ (sweep s.entries s).2 = false ∧
      close t = unlessLoop (sweep s.entries s).1) ∧
    Answers t (close t) := by
  refine ⟨fun n s swept => ⟨?_, fun order listed steady => ?_⟩, closeSwept t, closeAnswers t⟩
  · have left := swept.missing
    have pairs := missingLe (mentioned t) t
    omega
  · exact (swept.closure listed steady).answers

/- Along a chain of three edges, sweeps from its start change something twice and sweeps from its end
once; the last name is no key. They end with the same edges. An edge from a name to itself is a cycle. -/
theorem sweepsExactChain :
    let a := Identifier.visible "a"
    let b := Identifier.visible "b"
    let c := Identifier.visible "c"
    let d := Identifier.visible "d"
    let chain := Table.ofList [(a, Names.single b), (b, .single c), (c, .single d)]
    let once := (sweep chain.entries chain).1
    let twice := (sweep once.entries once).1
    let backward := (sweep chain.entries.reverse chain).1
    Swept chain 2 twice ∧ Swept chain 1 backward ∧
      (∀ x y, Edge (sweep twice.entries twice).1 x y ↔
        Edge (sweep backward.entries.reverse backward).1 x y) ∧
      close (Table.ofList [(a, Names.single a)]) = none := by
  intro a b c d chain once twice backward
  have slow : Swept chain 2 twice :=
    (Swept.start.again (.refl _) (by decide +kernel)).again (.refl _) (by decide +kernel)
  have fast : Swept chain 1 backward := .again .start (List.reverse_perm _) (by decide +kernel)
  obtain ⟨_, first⟩ := (sweepsExact chain).1 2 twice slow
  obtain ⟨_, second⟩ := (sweepsExact chain).1 1 backward fast
  have forth := (first _ (.refl _) (by decide +kernel)).closed _ (if_neg (by decide +kernel))
  have back := (second _ (List.reverse_perm _) (by decide +kernel)).closed _
    (if_neg (by decide +kernel))
  have loop : Edge (Table.ofList [(a, Names.single a)]) a a := by decide +kernel
  exact ⟨slow, fast, fun x y => (forth.edges x y).trans (back.edges x y).symm,
    (sweepsExact _).2.2.cyclic.mpr ⟨a, .single loop⟩⟩

end Abstraction.Reach
