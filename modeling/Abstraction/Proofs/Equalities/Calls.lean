import Abstraction.Proofs.Calls
import Abstraction.Proofs.Equalities.Lattice

/-! Calls on must-equal classes beside congruences. Entering a call hides the congruences of the caller
and leaves its classes in place, so a callee works on the classes of its caller. It gives the
congruences back; of the classes it gives back what is known of identifiers that no step writes. -/
namespace Abstraction

namespace State

def Action.Writes : Action → Identifier → Prop
  | .assign target _, id => id = target
  | .forget target, id => id = target
  | .forgetAll ids, id => id ∈ ids
  | .assume _, _ | .step _, _ | .enter _, _ | .leave _, _ => False

instance (id : Identifier) : (action : Action) → Decidable (action.Writes id)
  | .assign target _ => inferInstanceAs (Decidable (id = target))
  | .forget target => inferInstanceAs (Decidable (id = target))
  | .forgetAll ids => inferInstanceAs (Decidable (id ∈ ids))
  | .assume _ | .step _ | .enter _ | .leave _ => inferInstanceAs (Decidable False)

def Unwritten (actions : List Action) (id : Identifier) : Prop :=
  ∀ action ∈ actions, ¬ action.Writes id

instance (actions : List Action) (id : Identifier) : Decidable (Unwritten actions id) :=
  inferInstanceAs (Decidable (∀ action ∈ actions, ¬ action.Writes id))

end State

namespace Equalities
open State (Action Unwritten)

variable {base e : Equalities} {on : Identifier → Prop} {id x y : Identifier}

structure Kept (on : Identifier → Prop) (base e : Equalities) : Prop where
  possible : base.isBottom = false
  related : ∀ x y, on x → on y → (e.Related x y ↔ base.Related x y)

def Keeps (on : Identifier → Prop) (base e : Equalities) : Prop :=
  e.isBottom = false → Kept on base e

theorem keepsSelf (on : Identifier → Prop) (e : Equalities) : Keeps on e e :=
  fun possible => ⟨possible, fun _ _ _ _ => Iff.rfl⟩

theorem Keeps.next {next : Equalities} (keeps : Keeps on base e) (possible : e.isBottom = false)
    (related : ∀ x y, on x → on y → (next.Related x y ↔ e.Related x y)) : Keeps on base next := by
  intro _
  have kept := keeps possible
  exact ⟨kept.possible, fun x y first second =>
    (related x y first second).trans (kept.related x y first second)⟩

theorem Keeps.forgetIf (keeps : Keeps on base e) {drop : Identifier → Bool}
    (outside : ∀ k, drop k = true → ¬ on k) : Keeps on base (e.forgetIf drop) := by
  cases possible : e.isBottom with
  | true => rwa [Equalities.forgetIf, if_pos possible]
  | false =>
    have spared {k : Identifier} (inside : on k) : drop k = false :=
      Bool.eq_false_iff.mpr fun dropped => outside k dropped inside
    refine keeps.next possible fun x y first second => ?_
    rw [relatedForgetIf possible]
    constructor
    · intro known
      rcases known with rfl | ⟨known, _⟩
      · exact relatedRefl e x
      · exact known
    · intro known
      exact .inr ⟨known, spared first, spared second⟩

/- The target is alone when it is merged with the source, so the merge relates no two others. -/
theorem Valued.mergeIsolated (valued : e.Valued) (v : Identifier) (first : x ≠ id)
    (second : y ≠ id) :
    ((e.isolate id).merge id v).Related x y ↔ (e.isolate id).Related x y := by
  have alone {z : Identifier} (other : z ≠ id) : ¬ (e.isolate id).Related z id := by
    intro known
    rcases (relatedIsolate valued.possible).mp known with same | ⟨_, _, kept⟩
    · exact other same
    · exact kept rfl
  have isolated : (e.isolate id).Valued := valued.forgetIf _
  rw [isolated.partition.relatedMerge isolated.possible]
  refine or_iff_left fun linked => ?_
  rcases linked with ⟨known, _⟩ | ⟨_, known⟩
  · exact alone first known
  · exact alone second known.symm

theorem Keeps.assign (keeps : Keeps on base e) (formed : e.Formed) (outside : ¬ on id)
    (expr : Expr) : Keeps on base (e.assign id expr) := by
  have isolated : Keeps on base (e.isolate id) := by
    refine keeps.forgetIf fun k dropped => ?_
    rwa [of_decide_eq_true dropped]
  unfold Equalities.assign
  split
  · exact keeps
  rename_i changed
  rw [Bool.or_eq_true, not_or] at changed
  split
  · have valued : e.Valued := formed.valued (Bool.eq_false_iff.mpr changed.1)
    have target {k : Identifier} (inside : on k) : k ≠ id := fun same => outside (same ▸ inside)
    refine isolated.next (valued.forgetIf _).possible fun x y first second => ?_
    exact valued.mergeIsolated _ (target first) (target second)
  · exact isolated

theorem Keeps.assume (keeps : Keeps on base e) (expr : Expr) : Keeps on base (e.assume expr) := by
  unfold Equalities.assume
  split
  · exact fun possible => absurd possible Bool.noConfusion
  · exact keeps

def act (e : Equalities) : Action → Equalities
  | .assign id expr => e.assign id expr
  | .assume expr => e.assume expr
  | .forget id => e.isolate id
  | .forgetAll ids => e.forgetIf fun id => decide (id ∈ ids)
  | .step _ | .enter _ | .leave _ => e

def run (e : Equalities) (actions : List Action) : Equalities := actions.foldl act e

theorem actExact (e : Equalities) (action : Action) :
    (State.equalities e).act action = .ok (.equalities (e.act action)) := by
  cases action <;> rfl

theorem runExact (e : Equalities) (actions : List Action) :
    (State.equalities e).run actions = .ok (.equalities (e.run actions)) := by
  induction actions generalizing e with
  | nil => rfl
  | cons action rest ih =>
    rw [State.run, actExact]
    exact ih (e.act action)

theorem Formed.act (formed : e.Formed) (action : Action) : (e.act action).Formed := by
  cases action with
  | assign id expr => exact formed.assign id expr
  | assume expr => exact formed.assume expr
  | forget | forgetAll => exact formed.forgetIf _
  | step | enter | leave => exact formed

theorem Keeps.act (keeps : Keeps on base e) (formed : e.Formed) {action : Action}
    (outside : ∀ id, action.Writes id → ¬ on id) : Keeps on base (e.act action) := by
  cases action with
  | assign id expr => exact keeps.assign formed (outside id rfl) expr
  | assume expr => exact keeps.assume expr
  | forget id => exact keeps.forgetIf fun k same => outside k (of_decide_eq_true (p := k = id) same)
  | forgetAll ids =>
    exact keeps.forgetIf fun k listed => outside k (of_decide_eq_true (p := k ∈ ids) listed)
  | step | enter | leave => exact keeps

theorem Formed.run (formed : e.Formed) (actions : List Action) : (e.run actions).Formed := by
  induction actions generalizing e with
  | nil => exact formed
  | cons action rest ih => exact ih (formed.act action)

theorem Keeps.run (keeps : Keeps on base e) (formed : e.Formed) {actions : List Action}
    (outside : ∀ action ∈ actions, ∀ id, action.Writes id → ¬ on id) :
    Keeps on base (e.run actions) := by
  induction actions generalizing e with
  | nil => exact keeps
  | cons action rest ih =>
    obtain ⟨first, later⟩ := List.forall_mem_cons.mp outside
    exact ih (keeps.act formed first) (formed.act action) later

theorem Formed.keepsUnwritten (formed : e.Formed) (actions : List Action) :
    Keeps (Unwritten actions) e (e.run actions) :=
  (keepsSelf _ e).run formed fun action listed _ written unwritten =>
    unwritten action listed written

end Equalities

namespace State
open ArithmeticFault (bindOk yields)

variable {p : CongruentEqualities} {s next : State}

theorem actHalves {action : Action} (ok : (congruentEqualities p).act action = .ok next) :
    ∃ q, next = .congruentEqualities q ∧ q.equalities = p.equalities.act action ∧
      (congruences p.congruences).act action = .ok (.congruences q.congruences) := by
  cases action with
  | assign id e =>
    obtain ⟨q, assigned, ok⟩ := bindOk ok
    obtain ⟨env, right, assigned⟩ := bindOk assigned
    cases assigned
    cases ok
    exact ⟨_, rfl, rfl, by rw [act, assign, right]; rfl⟩
  | assume e =>
    obtain ⟨q, assumed, ok⟩ := bindOk ok
    obtain ⟨env, right, assumed⟩ := bindOk assumed
    cases assumed
    cases ok
    exact ⟨_, rfl, rfl, by rw [act, assume, right]; rfl⟩
  | step | forget | forgetAll | enter | leave =>
    cases ok
    exact ⟨_, rfl, rfl, rfl⟩

theorem runHalves {actions : List Action} (ok : (congruentEqualities p).run actions = .ok next) :
    ∃ q, next = .congruentEqualities q ∧ q.equalities = p.equalities.run actions ∧
      (congruences p.congruences).run actions = .ok (.congruences q.congruences) := by
  induction actions generalizing p with
  | nil =>
    cases ok
    exact ⟨p, rfl, rfl, rfl⟩
  | cons action rest ih =>
    obtain ⟨after, stepped, ok⟩ := bindOk ok
    obtain ⟨middle, rfl, classes, left⟩ := actHalves stepped
    obtain ⟨q, rfl, classes', right⟩ := ih ok
    refine ⟨q, rfl, classes'.trans (congrArg (Equalities.run · rest) classes), ?_⟩
    rw [run, left]
    exact right

def Halved (s : State) : Prop :=
  ∃ p, s = .congruentEqualities p ∧ p.equalities.Formed ∧
    ReachedFrom (.congruences .top) (.congruences p.congruences)

theorem Halved.act (halved : Halved s) (action : Action) (ok : s.act action = .ok next) :
    Halved next := by
  obtain ⟨p, rfl, formed, reached⟩ := halved
  obtain ⟨q, rfl, classes, right⟩ := actHalves ok
  exact ⟨q, rfl, classes ▸ formed.act action, reached.act right⟩

theorem Halved.combine {t : State} {op : LatticeOp} (left : Halved s) (right : Halved t)
    (ok : s.combine op (some t) = .ok next) : Halved next := by
  obtain ⟨p, rfl, formed, reached⟩ := left
  obtain ⟨q, rfl, formed', reached'⟩ := right
  cases ok
  have classes := formed.combine op formed'
  have congruences : ReachedFrom (.congruences .top)
      (.congruences (p.congruences.combine op q.congruences)) := .combine rfl reached reached'
  cases op <;> exact ⟨_, rfl, classes, congruences⟩

theorem ReachedFrom.halved (reached : ReachedFrom (.congruentEqualities .top) s) : Halved s := by
  induction reached with
  | start => exact ⟨.top, rfl, Equalities.formedTop, .start⟩
  | top _ halved =>
    obtain ⟨p, rfl, _⟩ := halved
    exact ⟨.top, rfl, Equalities.formedTop, .start⟩
  | bottom _ halved =>
    obtain ⟨p, rfl, _⟩ := halved
    exact ⟨.bottom, rfl, .inl rfl, .bottom .start⟩
  | assign ok _ halved => exact halved.act (.assign _ _) ok
  | assume ok _ halved => exact halved.act (.assume _) ok
  | step e _ halved => exact halved
  | forget id _ halved => exact halved.act (.forget id) rfl
  | forgetAll ids _ halved => exact halved.act (.forgetAll ids) rfl
  | forgetIf drop _ halved =>
    obtain ⟨p, rfl, formed, reached⟩ := halved
    exact ⟨p.forgetIf drop, rfl, formed.forgetIf drop, .forgetIf drop reached⟩
  | pushScope token _ halved => exact halved.act (.enter token) rfl
  | popScope token _ halved => exact halved.act (.leave token) rfl
  | combine ok _ _ left right => exact left.combine right ok

theorem Nested.restores {start r : State} {token : ScopeToken} {actions : List Action}
    (known : IsStart start) (nested : Nested actions) (reached : ReachedFrom start s)
    (scope : token ≠ .none) (ok : (s.pushScope token).run actions = .ok r)
    (possible : (r.popScope token).isBottom = false) : (r.popScope token).same s = true := by
  have before := reached.wellFormed known
  have entering : ReachedFrom start (s.pushScope token) := .pushScope token reached
  have ending : ReachedFrom start r := entering.run ok
  have frame := nested.keeps known entering (before.keepsPushScope token) ok
  have restored := before.popScopeKeeps (ending.wellFormed known) scope frame
  exact before.sameOfKeeps ((ReachedFrom.popScope token ending).wellFormed known) possible restored

/- The congruences come back, and the classes are those that the steps make of the caller's own. So the
caller's state comes back exactly if the steps have related and parted nothing, for instance where
they write nothing. -/
theorem callSharesClasses (p : CongruentEqualities) (r : State) (token : ScopeToken)
    (actions : List Action)
    (reached : ReachedFrom (.congruentEqualities .top) (.congruentEqualities p))
    (scope : token ≠ .none) (nested : Nested actions)
    (ok : ((congruentEqualities p).pushScope token).run actions = .ok r) :
    ∃ q, r.popScope token = .congruentEqualities q ∧
      (equalities p.equalities).run actions = .ok (.equalities q.equalities) ∧
      (q.congruences.isBottom = false → q.congruences.same p.congruences = true) ∧
      (q.equalities.isBottom = false → ∀ x y, Unwritten actions x → Unwritten actions y →
        (q.equalities.Related x y ↔ p.equalities.Related x y)) ∧
      (q.equalities.isBottom = false → q.congruences.isBottom = false →
        (q.same p = true ↔ ∀ x y, q.equalities.Related x y ↔ p.equalities.Related x y) ∧
        ((∀ id, Unwritten actions id) → q.same p = true)) := by
  obtain ⟨_, same, formed, congruences⟩ := reached.halved
  cases same
  obtain ⟨after, rfl, classes, right⟩ := runHalves ok
  change after.equalities = p.equalities.run actions at classes
  have keeps := formed.keepsUnwritten actions
  have ending := formed.run actions
  rw [← classes] at keeps ending
  have restored : (after.popScope token).congruences.isBottom = false →
      (after.popScope token).congruences.same p.congruences = true :=
    nested.restores .congruences congruences scope right
  refine ⟨after.popScope token, rfl, ?_, restored, fun possible => (keeps possible).related, ?_⟩
  · rw [Equalities.runExact, ← classes]
    rfl
  · intro possible possible'
    have before := formed.valued (keeps possible).possible
    have unchanged : (after.popScope token).same p = true ↔
        ∀ x y, after.equalities.Related x y ↔ p.equalities.Related x y := by
      rw [CongruentEqualities.same, Bool.and_eq_true, and_iff_left (restored possible')]
      exact Equalities.sameExact (ending.valued possible) before
    refine ⟨unchanged, fun unwritten => unchanged.mpr fun x y => ?_⟩
    exact (keeps possible).related x y (unwritten x) (unwritten y)

theorem callSharesClassesNested :
    let a := Identifier.visible "a"
    let b := Identifier.visible "b"
    let c := Identifier.visible "c"
    let d := Identifier.visible "d"
    let f := ScopeToken.text "f"
    let one := Expr.constant (.number (.int 1))
    let less (i j : Identifier) := Expr.binary .lt (.identifier i) (.identifier j)
    let caller : List Action := [.assign a one, .assign b (.identifier a), .assign c one]
    let inner : List Action := [.assume (less a d), .step (less b c)]
    let body : List Action :=
      .assign c (.identifier d) :: .enter f :: (inner ++ [.leave f, .assume (less a b)])
    ∃ p q r, (congruentEqualities .top).run caller = .ok (.congruentEqualities p) ∧
      ((congruentEqualities p).pushScope f).run body = .ok r ∧
      r.popScope f = .congruentEqualities q ∧ q.congruences.same p.congruences = true ∧
      p.equalities.Related a b ∧ q.equalities.Related a b ∧
      ¬ p.equalities.Related c d ∧ q.equalities.Related c d ∧ q.same p = false := by
  intro a b c d f one less caller inner body
  obtain ⟨p, before, equal, other, linked, check⟩ :
      ∃ p, (congruentEqualities .top).run caller = .ok (.congruentEqualities p) ∧
        p.equalities.Related a b ∧ ¬ p.equalities.Related c d ∧
        (p.equalities.run body).Related c d ∧
        (((congruentEqualities p).pushScope f).run body).toOption.any (fun r => decide
          ((r.popScope f).halves.any (fun h => !h.1.isBottom && !h.2.isBottom) = true)) = true :=
    ⟨_, rfl, by decide +kernel⟩
  obtain ⟨r, ok, possible⟩ := yields check
  have visible {i j : Identifier} (left : i.isHidden = false) (right : j.isHidden = false) :
      (less i j).Visible := by
    intro k mentioned
    rcases mentioned with rfl | rfl
    · exact left
    · exact right
  have called : Nested inner := .step (visible rfl rfl) (.step (visible rfl rfl) .done)
  have nested : Nested body :=
    .step ⟨rfl, fun _ same => same ▸ rfl⟩ (.call nofun called (.step (visible rfl rfl) .done))
  obtain ⟨q, left, classes, restored, frame, unchanged⟩ :=
    callSharesClasses p r f body (ReachedFrom.run .start before) nofun nested ok
  rw [left] at possible
  obtain ⟨first, second⟩ : q.equalities.isBottom = false ∧ q.congruences.isBottom = false := by
    simpa [halves, isBottom] using possible
  rw [Equalities.runExact] at classes
  rw [State.equalities.inj (Except.ok.inj classes)] at linked
  refine ⟨p, q, r, before, ok, left, restored second, equal, ?_, other, linked, ?_⟩
  · exact (frame first a b (by decide) (by decide)).mpr equal
  · exact Bool.eq_false_iff.mpr fun same => other (((unchanged first second).1.mp same c d).mp linked)

/- The callee copies its `b` into its `a`. The caller has `a = 1` and `b = 2` before the call and after
it, and after it also that the two are equal. -/
theorem calleeEqualitySurvives :
    let a := Identifier.visible "a"
    let b := Identifier.visible "b"
    let f := ScopeToken.text "f"
    let caller : List Action :=
      [.assign a (.constant (.number (.int 1))), .assign b (.constant (.number (.int 2)))]
    let body : List Action := [.assign a (.identifier b)]
    ∃ p r, (congruentEqualities .top).run caller = .ok (.congruentEqualities p) ∧
      ((congruentEqualities p).pushScope f).run body = .ok (.congruentEqualities r) ∧
      Nested body ∧ ¬ p.equalities.Related a b ∧ (r.popScope f).equalities.Related a b ∧
      (r.popScope f).equalities.isBottom = false ∧ (r.popScope f).congruences.isBottom = false ∧
      (r.popScope f).same p = false := by
  intro a b f caller body
  have nested : Nested body := .step ⟨rfl, fun _ same => same ▸ rfl⟩ .done
  exact ⟨_, _, rfl, rfl, nested, by decide +kernel⟩

end State
end Abstraction
