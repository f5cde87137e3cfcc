import Mathlib.Data.Finset.Powerset
import Abstraction.Proofs.Environment.Invariant
import Abstraction.Proofs.Environment.Order
import Abstraction.Proofs.Equalities.Classes
import Abstraction.Proofs.Pentagon.Laws
import Abstraction.Proofs.Widening.Runs
import Abstraction.Proofs.Widening.Values

/-! Every run of a widening settles: in environments, bounds, equalities and pentagons, whatever states
it meets. Environments gain entries all the time, but an identifier that the first possible state
does not restrict is never restricted again. -/
namespace Abstraction
open Filter (Eventually atTop)

namespace Environment

variable {V : Type} [ValueDomain V] {a b env : Environment V}

theorem Full.widen (left : a.Full) (right : b.Full) : (a.widen b).Full := by
  unfold Environment.widen
  split
  · exact right
  split
  · exact left
  · exact fullOfTable _

theorem Full.widenings {start : Environment V} {next : Nat → Environment V} (first : start.Full)
    (full : ∀ n, (next n).Full) (n : Nat) : (widenings Environment.widen start next n).Full := by
  induction n with
  | zero => exact first
  | succ n ih => exact ih.widen (full n)

variable [SettlingDomain V]

theorem Full.get (full : env.Full) (possible : env.isBottom = false) (k : Identifier) :
    ValueDomain.isBottom (env.get k) = false := by
  simp only [Environment.get, possible, Bool.false_eq_true, if_false]
  cases found : env.table.find k with
  | some v => exact full k v found
  | none => exact SettlingDomain.topPossible

theorem Full.pointwiseWiden (full : a.Full) (possible : a.isBottom = false) (b : Environment V) :
    (pointwise ValueDomain.widen a b).isBottom = false :=
  possiblePointwise fun k => SettlingDomain.widenPossible _ (full.get possible k)

theorem Full.isBottomWiden (full : a.Full) (b : Environment V) :
    (a.widen b).isBottom = (a.isBottom && b.isBottom) := by
  unfold Environment.widen
  cases possible : a.isBottom with
  | true => rfl
  | false =>
  cases b.isBottom with
  | true => exact possible
  | false => exact full.pointwiseWiden possible b

inductive Widened (v : V) : V → Prop where
  | kept : Widened v v
  | widened (w : V) : Widened v (ValueDomain.widen v w)

theorem Full.getWidened (full : a.Full) (possible : a.isBottom = false) (b : Environment V)
    (k : Identifier) : Widened (a.get k) ((a.widen b).get k) := by
  cases other : b.isBottom with
  | true =>
    rw [Environment.widen, outerImpossible possible other]
    exact .kept
  | false =>
    rw [Environment.widen, if_neg (by simp [possible]), if_neg (by simp [other]),
      getPointwiseTop (SettlingDomain.widenTop _) possible other (full.pointwiseWiden possible b)]
    exact .widened _

variable {v w : V}

theorem Widened.rank (step : Widened v w) (possible : ValueDomain.isBottom v = false) :
    SettlingDomain.rank w ≤ SettlingDomain.rank v := by
  cases step with
  | kept => exact le_refl _
  | widened => exact SettlingDomain.rankWiden _ possible

theorem Widened.leq (step : Widened v w) (possible : ValueDomain.isBottom v = false)
    (same : SettlingDomain.rank w = SettlingDomain.rank v) : ValueDomain.leq w v = true := by
  cases step with
  | kept => exact SettlingDomain.leqRefl v
  | widened => exact SettlingDomain.steady possible same

theorem Widened.top (step : Widened ValueDomain.top w) : w = ValueDomain.top := by
  cases step with
  | kept => rfl
  | widened => exact SettlingDomain.widenTop _

theorem settles {start : Environment V} {next : Nat → Environment V} (first : start.Full)
    (full : ∀ n, (next n).Full) :
    Settles Environment.leq (widenings Environment.widen start next) := by
  have fullRun := first.widenings full
  have grows (n : Nat) : widenings Environment.widen start next (n + 1) =
      (widenings Environment.widen start next n).widen (next n) := rfl
  generalize widenings Environment.widen start next = run at fullRun grows ⊢
  refine settlesOfPossible isBottom (fun _ t impossible => leqImpossible impossible t) ?_ ?_
  · intro n possible
    rw [grows, (fullRun n).isBottomWiden, possible]
    rfl
  intro m possible
  have step (k : Identifier) (n : Nat) (late : n ≥ m) :
      Widened ((run n).get k) ((run (n + 1)).get k) := by
    rw [grows]
    exact (fullRun n).getWidened (possible n late) (next n) k
  have restricted (k : Identifier) :
      ∀ᶠ n in atTop, ValueDomain.leq ((run (n + 1)).get k) ((run n).get k) = true := by
    have steady := rankSteady (fun n => SettlingDomain.rank ((run n).get k)) fun n late =>
      (step k n late).rank ((fullRun n).get (possible n late) k)
    filter_upwards [steady, Filter.eventually_ge_atTop m] with n same late
    exact (step k n late).leq ((fullRun n).get (possible n late) k) same
  have unrestricted (k : Identifier) (absent : k ∉ (run m).table.keys) (n : Nat) (late : n ≥ m) :
      (run n).get k = ValueDomain.top := by
    induction n, late using Nat.le_induction with
    | base => exact getUnlisted (possible m (le_refl m)) absent
    | succ n late ih =>
      have next := step k n late
      rw [ih] at next
      exact next.top
  have listed : ∀ᶠ n in atTop, ∀ k ∈ (run m).table.keys.toFinset,
      ValueDomain.leq ((run (n + 1)).get k) ((run n).get k) = true :=
    (Filter.eventually_all_finset _).mpr fun k _ => restricted k
  filter_upwards [listed, Filter.eventually_ge_atTop m] with n order late
  refine leqOfValues (possible n late) fun k => ?_
  by_cases inside : k ∈ (run m).table.keys
  · exact order k (List.mem_toFinset.mpr inside)
  · rw [unrestricted k inside (n + 1) (by omega), unrestricted k inside n late]
    exact SettlingDomain.leqRefl _

end Environment

namespace UpperBounds

variable {a b : UpperBounds} {x y : Identifier}

def edges (b : UpperBounds) : Finset (Identifier × Identifier) :=
  (b.table.entries.flatMap fun entry => entry.2.members.map fun y => (entry.1, y)).toFinset

theorem memEdges : (x, y) ∈ b.edges ↔ y ∈ b.get x := by
  simp only [edges, List.mem_toFinset, List.mem_flatMap, List.mem_map, Prod.mk.injEq]
  constructor
  · intro known
    obtain ⟨⟨k, above⟩, stored, z, member, rfl, rfl⟩ := known
    exact Reach.edgeExact.mpr ⟨above, Table.findExact.mpr stored, member⟩
  · intro bound
    obtain ⟨above, found, member⟩ := Reach.edgeExact.mp bound
    exact ⟨(x, above), Table.findExact.mp found, y, member, rfl, rfl⟩

theorem edgesWiden (possible : a.isBottom = false) (b : UpperBounds) :
    (a.widen b).edges ⊆ a.edges := by
  cases other : b.isBottom with
  | true =>
    rw [widen, if_neg (by simp [possible]), if_pos other]
  | false =>
    intro edge inside
    exact memEdges.mpr ((memGetWiden possible other).mp (memEdges.mp inside)).1

theorem settles (start : UpperBounds) (next : Nat → UpperBounds) :
    Settles leq (widenings widen start next) := by
  have grows (n : Nat) : widenings widen start next (n + 1) =
      (widenings widen start next n).widen (next n) := rfl
  generalize widenings widen start next = run at grows ⊢
  refine settlesOfPossible isBottom (fun _ _ impossible => leqExact.mpr (.inl impossible)) ?_ ?_
  · intro n possible
    rw [grows, isBottomWiden, possible]
    rfl
  intro m possible
  have steady := rankSteady (fun n => (run n).edges) fun n late => by
    rw [grows]
    exact edgesWiden (possible n late) (next n)
  filter_upwards [steady, Filter.eventually_ge_atTop m] with n same late
  refine leqExact.mpr (.inr ⟨possible n late, fun x y bound => ?_⟩)
  rw [← memEdges, same]
  exact memEdges.mpr bound

end UpperBounds

namespace Equalities

variable {a b e : Equalities}

def together (e : Equalities) : Finset (Finset Identifier) :=
  (e.classes.map fun c => c.members.toFinset).toFinset.biUnion Finset.powerset

theorem memTogether {s : Finset Identifier} :
    s ∈ e.together ↔ ∃ c ∈ e.classes, s ⊆ c.members.toFinset := by
  simp [together]

theorem togetherJoin (possible : a.isBottom = false) (b : Equalities) :
    (a.join b).together ⊆ a.together := by
  cases other : b.isBottom with
  | true => rw [join, if_neg (by simp [possible]), if_pos other]
  | false =>
    rw [join, if_neg (by simp [possible]), if_neg (by simp [other])]
    intro s inside
    obtain ⟨c, listed, within⟩ := memTogether.mp inside
    obtain ⟨d, first, listed⟩ := List.mem_flatMap.mp (memOfClasses listed).1
    obtain ⟨o, _, rfl⟩ := List.mem_map.mp listed
    refine memTogether.mpr ⟨d, first, fun x member => ?_⟩
    exact List.mem_toFinset.mpr (Names.memInter.mp (List.mem_toFinset.mp (within member))).1

theorem isBottomJoin (possible : a.isBottom = false) (b : Equalities) :
    (a.join b).isBottom = false := by
  rw [join, if_neg (by simp [possible])]
  split
  · exact possible
  · rfl

theorem leqOfTogether (possible : b.isBottom = false) (same : a.together = b.together) :
    a.leq b = true := by
  unfold leq
  split
  · rfl
  rw [if_neg (by simp [possible])]
  refine List.all_eq_true.mpr fun o listed => ?_
  have inside : o.members.toFinset ∈ a.together := by
    rw [same]
    exact memTogether.mpr ⟨o, listed, fun _ => id⟩
  obtain ⟨c, found, within⟩ := memTogether.mp inside
  refine List.any_eq_true.mpr ⟨c, found, Names.subsetExact.mpr fun x member => ?_⟩
  exact List.mem_toFinset.mp (within (List.mem_toFinset.mpr member))

theorem settles (start : Equalities) (next : Nat → Equalities) :
    Settles leq (widenings widen start next) := by
  have grows (n : Nat) : widenings widen start next (n + 1) =
      (widenings widen start next n).join (next n) := rfl
  generalize widenings widen start next = run at grows ⊢
  refine settlesOfPossible isBottom (fun s t impossible => ?_) ?_ ?_
  · rw [leq, if_pos impossible]
  · intro n possible
    rw [grows]
    exact isBottomJoin possible (next n)
  intro m possible
  have steady := rankSteady (fun n => (run n).together) fun n late => by
    rw [grows]
    exact togetherJoin (possible n late) (next n)
  filter_upwards [steady, Filter.eventually_ge_atTop m] with n same late
  exact leqOfTogether (possible n late) same

end Equalities

namespace Pentagon

variable {p q : Pentagon}

structure Balanced (p : Pentagon) : Prop where
  agree : p.bounds.isBottom = p.intervals.isBottom
  full : p.intervals.Full

theorem Balanced.widen (left : p.Balanced) (right : q.Balanced) : (p.widen q).Balanced := by
  refine ⟨?_, left.full.widen right.full⟩
  calc (p.bounds.widen q.bounds).isBottom
      = (p.bounds.isBottom && q.bounds.isBottom) := UpperBounds.isBottomWiden _ _
    _ = (p.intervals.isBottom && q.intervals.isBottom) := by rw [left.agree, right.agree]
    _ = (p.intervals.widen q.intervals).isBottom := (left.full.isBottomWiden _).symm

theorem Balanced.widenings {start : Pentagon} {next : Nat → Pentagon} (first : start.Balanced)
    (balanced : ∀ n, (next n).Balanced) (n : Nat) :
    (widenings Pentagon.widen start next n).Balanced := by
  induction n with
  | zero => exact first
  | succ n ih => exact ih.widen (balanced n)

theorem wideningsHalves (start : Pentagon) (next : Nat → Pentagon) (n : Nat) :
    widenings widen start next n =
      ⟨widenings UpperBounds.widen start.bounds (fun n => (next n).bounds) n,
        widenings Environment.widen start.intervals (fun n => (next n).intervals) n⟩ := by
  induction n with
  | zero => rfl
  | succ n ih => rw [widenings, ih]; rfl

/- The order of pentagons asks less of the bounds than that they are recorded, and where the smaller
pentagon is impossible nothing at all. So it settles as soon as both halves have. -/
theorem settles {start : Pentagon} {next : Nat → Pentagon} (first : start.Balanced)
    (balanced : ∀ n, (next n).Balanced) : Settles leq (widenings widen start next) := by
  obtain ⟨M, bounds⟩ := UpperBounds.settles start.bounds fun n => (next n).bounds
  obtain ⟨N, intervals⟩ := Environment.settles first.full fun n => (balanced n).full
  refine ⟨max M N, fun n late => ?_⟩
  have lower := bounds n (le_trans (le_max_left M N) late)
  have within := intervals n (le_trans (le_max_right M N) late)
  have after := first.widenings balanced (n + 1)
  rw [wideningsHalves start next (n + 1)] at after ⊢
  rw [wideningsHalves start next n]
  rcases UpperBounds.leqExact.mp lower with impossible | ⟨_, kept⟩
  · exact leqImpossible (after.agree.symm.trans impossible) _
  · exact leqExact.mpr ⟨within, fun x y bound => .recorded (kept x y bound)⟩

end Pentagon

theorem wideningsSettle :
    (∀ (start : Environment Interval) (next : Nat → Environment Interval), start.Full →
      (∀ n, (next n).Full) → Settles Environment.leq (widenings Environment.widen start next)) ∧
    (∀ (start : Environment Congruence) (next : Nat → Environment Congruence), start.Full →
      (∀ n, (next n).Full) → Settles Environment.leq (widenings Environment.widen start next)) ∧
    (∀ (start : UpperBounds) (next : Nat → UpperBounds),
      Settles UpperBounds.leq (widenings UpperBounds.widen start next)) ∧
    (∀ (start : Equalities) (next : Nat → Equalities),
      Settles Equalities.leq (widenings Equalities.widen start next)) ∧
    (∀ (start : Pentagon) (next : Nat → Pentagon), start.Balanced → (∀ n, (next n).Balanced) →
      Settles Pentagon.leq (widenings Pentagon.widen start next)) :=
  ⟨fun _ _ => Environment.settles, fun _ _ => Environment.settles, UpperBounds.settles,
    Equalities.settles, fun _ _ => Pentagon.settles⟩

/- The upper end of `x` is given up at the second step, and each state that the run meets restricts an
identifier that none before it has mentioned. As the intervals of pentagons, they go with a bound
of `x` that is recorded until the second step. -/
theorem wideningsSettleFresh :
    let x := Identifier.visible "x"
    let y := Identifier.visible "y"
    let start : Environment Interval := .ofTable (.ofList [(x, .const (.int 0))])
    let next (n : Nat) : Environment Interval := .ofTable (.ofList [(x, .const (.int n)),
      (.visible ("y" ++ toString n), .const (.int n))])
    let run := widenings Environment.widen start next
    let below : UpperBounds := .ofTable .value (.ofList [(x, .single y)])
    let bounded (n : Nat) : Pentagon := ⟨if n = 0 then below else .top, next n⟩
    let pentagons := widenings Pentagon.widen ⟨below, start⟩ bounded
    (run 2).leq (run 1) = false ∧ Settles Environment.leq run ∧
      (∀ n, (bounded n).Balanced) ∧ y ∈ (pentagons 1).bounds.get x ∧
      y ∉ (pentagons 2).bounds.get x ∧ (pentagons 2).leq (pentagons 1) = false ∧
      Settles Pentagon.leq pentagons := by
  intro x y start next run below bounded pentagons
  have possible (n : Nat) : (next n).isBottom = false := by
    rw [Environment.isBottomOfTable, Bool.eq_false_iff]
    intro impossible
    obtain ⟨k, v, found, vacant⟩ := Table.anyValueExact.mp impossible
    have only : v = .const (.int n) := by
      rcases Table.foldSource found with listed | absent
      · simp only [List.mem_cons, Prod.mk.injEq, List.not_mem_nil, or_false] at listed
        exact listed.elim And.right And.right
      · contradiction
    rw [only] at vacant
    exact (Interval.isEmptyExact (Interval.integralConst n)).mp vacant n (Interval.memConst n)
  have balanced (n : Nat) : (bounded n).Balanced := by
    refine ⟨?_, Environment.fullOfTable _⟩
    rw [possible n]
    cases n with
    | zero => rfl
    | succ n => rfl
  obtain ⟨intervals, _, _, _, settled⟩ := wideningsSettle
  exact ⟨by decide +kernel, intervals start next (Environment.fullOfTable _) fun n =>
    Environment.fullOfTable _, balanced, by decide +kernel, by decide +kernel, by decide +kernel,
    settled ⟨below, start⟩ bounded ⟨by decide +kernel, Environment.fullOfTable _⟩ balanced⟩

end Abstraction
