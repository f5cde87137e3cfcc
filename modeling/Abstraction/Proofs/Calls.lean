import Abstraction.Proofs.Reached
import Abstraction.Proofs.Environment.Frame
import Abstraction.Proofs.UpperBounds.Frame

/-! Calls. Entering one hides what the caller knows; the callee then works on visible identifiers and
makes calls of its own, possibly of itself. Whatever it does, leaving gives the caller's state back,
unless the callee has found that no store is possible. -/
namespace Abstraction

def Expr.Visible (e : Expr) : Prop := ∀ id, e.Mentions id → id.isHidden = false

namespace Pentagon

variable {base p q : Pentagon} {on : Identifier → Bool} {id : Identifier} {e : Expr}

structure Keeps (on : Identifier → Bool) (base p : Pentagon) : Prop where
  bounds : base.bounds.Keeps on p.bounds
  intervals : base.intervals.Keeps on p.intervals

theorem Keeps.reduced (keeps : Keeps on base p) : Keeps on base p.reduced := by
  obtain collapsed | ⟨same, _⟩ := reducedCases p
  · rw [collapsed]; exact ⟨nofun, nofun⟩
  · rwa [same]

theorem Keeps.raised (keeps : Keeps on base p) (outside : on id = false) (x y : Identifier) :
    base.intervals.Keeps on (p.raisedIntervals id x y) := by
  unfold raisedIntervals
  split
  · exact keeps.intervals.put outside _
  · exact keeps.intervals

theorem Keeps.lowered (keeps : Keeps on base p) (outside : on id = false) {x : Identifier}
    (source : on x = false) (y : Identifier) :
    base.bounds.Keeps on ((p.bounds.forget id).put id (p.loweredBounds id x y)) := by
  intro after
  have possible : p.bounds.isBottom = false :=
    ((UpperBounds.isBottomPut _ _ _).trans (UpperBounds.isBottomRename p.bounds _)).symm.trans after
  have kept := keeps.bounds possible
  refine kept.placed (UpperBounds.placedForget possible).put outside (fun _ => False.elim)
    fun z gained => ?_
  rcases (memLoweredBounds.mp gained).1 with above | rfl
  · exact kept.above source above
  · exact source

theorem Keeps.assign (keeps : Keeps on base p) (outside : on id = false)
    (others : ∀ k, e.Mentions k → on k = false) (ok : p.assign id e = .ok q) : Keeps on base q := by
  obtain ⟨intervals, assigned, step⟩ := assigned ok
  have after := keeps.intervals.assign outside assigned
  cases step with
  | halves => exact Keeps.reduced ⟨keeps.bounds.assign outside others, after⟩
  | difference x y _ cleared =>
    subst cleared
    have forgotten : Keeps on base ⟨p.bounds.forget id, intervals⟩ :=
      ⟨keeps.bounds.forget outside, after⟩
    exact Keeps.reduced
      ⟨keeps.lowered outside (others x (.inl rfl)) y, forgotten.raised outside x y⟩

theorem Keeps.assume (keeps : Keeps on base p) (others : ∀ k, e.Mentions k → on k = false)
    (ok : p.assume e = .ok q) : Keeps on base q := by
  obtain ⟨intervals, assumed, rfl⟩ := assumed ok
  exact Keeps.reduced ⟨keeps.bounds.assume others, keeps.intervals.assume others assumed⟩

end Pentagon

namespace State
open ArithmeticFault (bindOk yields)

inductive Keeps (on : Identifier → Bool) : State → State → Prop where
  | intervals {base env : Environment Interval} (keeps : base.Keeps on env) :
      Keeps on (.intervals base) (.intervals env)
  | congruences {base env : Environment Congruence} (keeps : base.Keeps on env) :
      Keeps on (.congruences base) (.congruences env)
  | bounds {base b : UpperBounds} (keeps : base.Keeps on b) : Keeps on (.bounds base) (.bounds b)
  | pentagon {base p : Pentagon} (keeps : base.Keeps on p) : Keeps on (.pentagon base) (.pentagon p)

variable {like base s next : State} {on : Identifier → Bool} {id : Identifier} {e : Expr}
  {token : ScopeToken}

namespace Keeps

theorem trans (first : Keeps on base s) (second : Keeps (fun _ => true) s next) :
    Keeps on base next := by
  cases first with
  | intervals keeps => cases second with | intervals keeps' => exact .intervals (keeps.trans keeps')
  | congruences keeps =>
    cases second with | congruences keeps' => exact .congruences (keeps.trans keeps')
  | bounds keeps => cases second with | bounds keeps' => exact .bounds (keeps.trans keeps')
  | pentagon keeps =>
    cases second with
    | pentagon keeps' =>
      exact .pentagon ⟨keeps.bounds.trans keeps'.bounds, keeps.intervals.trans keeps'.intervals⟩

theorem assign (keeps : Keeps on base s) (outside : on id = false)
    (others : ∀ k, e.Mentions k → on k = false) (ok : s.assign id e = .ok next) :
    Keeps on base next := by
  cases keeps with
  | intervals keeps =>
    obtain ⟨env, assigned, ok⟩ := bindOk ok
    cases ok; exact .intervals (keeps.assign outside assigned)
  | congruences keeps =>
    obtain ⟨env, assigned, ok⟩ := bindOk ok
    cases ok; exact .congruences (keeps.assign outside assigned)
  | bounds keeps => cases ok; exact .bounds (keeps.assign outside others)
  | pentagon keeps =>
    obtain ⟨p, assigned, ok⟩ := bindOk ok
    cases ok; exact .pentagon (keeps.assign outside others assigned)

theorem assume (keeps : Keeps on base s) (others : ∀ k, e.Mentions k → on k = false)
    (ok : s.assume e = .ok next) : Keeps on base next := by
  cases keeps with
  | intervals keeps =>
    obtain ⟨env, assumed, ok⟩ := bindOk ok
    cases ok; exact .intervals (keeps.assume others assumed)
  | congruences keeps =>
    obtain ⟨env, assumed, ok⟩ := bindOk ok
    cases ok; exact .congruences (keeps.assume others assumed)
  | bounds keeps => cases ok; exact .bounds (keeps.assume others)
  | pentagon keeps =>
    obtain ⟨p, assumed, ok⟩ := bindOk ok
    cases ok; exact .pentagon (keeps.assume others assumed)

theorem forget (keeps : Keeps on base s) (outside : on id = false) :
    Keeps on base (s.forget id) := by
  cases keeps with
  | intervals keeps => exact .intervals (keeps.forget outside)
  | congruences keeps => exact .congruences (keeps.forget outside)
  | bounds keeps => exact .bounds (keeps.forget outside)
  | pentagon keeps => exact .pentagon ⟨keeps.bounds.forget outside, keeps.intervals.forget outside⟩

theorem forgetIf (keeps : Keeps on base s) {drop : Identifier → Bool}
    (outside : ∀ k, drop k = true → on k = false) : Keeps on base (s.forgetIf drop) := by
  cases keeps with
  | intervals keeps => exact .intervals (keeps.forgetIf outside)
  | congruences keeps => exact .congruences (keeps.forgetIf outside)
  | bounds keeps => exact .bounds (keeps.forgetIf outside)
  | pentagon keeps =>
    exact .pentagon ⟨keeps.bounds.forgetIf outside, keeps.intervals.forgetIf outside⟩

end Keeps

theorem WellFormed.keepsPushScope (formed : WellFormed like s) (token : ScopeToken) :
    Keeps Identifier.isHidden (s.pushScope token) (s.pushScope token) := by
  cases formed with
  | intervals => exact .intervals (Environment.keepsSelf _ _)
  | congruences => exact .congruences (Environment.keepsSelf _ _)
  | bounds => exact .bounds (UpperBounds.keepsPushScope _ token)
  | pentagon =>
    exact .pentagon ⟨UpperBounds.keepsPushScope _ token, Environment.keepsSelf _ _⟩

theorem WellFormed.popScopeKeeps (before : WellFormed like s) (formed : WellFormed like next)
    (scope : token ≠ .none) (keeps : Keeps Identifier.isHidden (s.pushScope token) next) :
    Keeps (fun _ => true) s (next.popScope token) := by
  cases before with
  | intervals =>
    cases keeps with | intervals keeps => exact .intervals (Environment.popScopeKeeps scope keeps)
  | congruences =>
    cases keeps with
    | congruences keeps => exact .congruences (Environment.popScopeKeeps scope keeps)
  | bounds =>
    cases keeps with
    | bounds keeps =>
    cases formed with
    | bounds compact => exact .bounds (UpperBounds.popScopeKeeps scope compact keeps)
  | pentagon =>
    cases keeps with
    | pentagon keeps =>
    cases formed with
    | pentagon consistent =>
      exact .pentagon ⟨UpperBounds.popScopeKeeps scope consistent.compact keeps.bounds,
        Environment.popScopeKeeps scope keeps.intervals⟩

theorem WellFormed.sameOfKeeps (before : WellFormed like s) (formed : WellFormed like next)
    (possible : next.isBottom = false) (keeps : Keeps (fun _ => true) s next) :
    next.same s = true := by
  cases before with
  | intervals _ declared =>
    cases keeps with
    | intervals keeps =>
    cases formed with
    | intervals _ declared' => exact Environment.sameOfKeeps keeps possible declared declared'
  | congruences _ declared =>
    cases keeps with
    | congruences keeps =>
    cases formed with
    | congruences _ declared' => exact Environment.sameOfKeeps keeps possible declared declared'
  | bounds compact declared =>
    cases keeps with
    | bounds keeps =>
    cases formed with
    | bounds compact' declared' =>
      exact UpperBounds.sameOfKeeps keeps possible compact compact' declared declared'
  | pentagon consistent declared =>
    cases keeps with
    | @pentagon _ p keeps =>
    cases formed with
    | pentagon consistent' declared' =>
      -- One half is possible, and the halves are impossible together.
      have half : p.intervals.isBottom = false := by
        rw [State.isBottom, Pentagon.isBottom, consistent'.agree, Bool.and_self] at possible
        exact possible
      refine Bool.and_eq_true_iff.mpr ⟨?_, ?_⟩
      · exact UpperBounds.sameOfKeeps keeps.bounds (consistent'.agree.trans half) consistent.compact
          consistent'.compact declared.bounds declared'.bounds
      · exact Environment.sameOfKeeps keeps.intervals half declared.intervals declared'.intervals

theorem WellFormed.impossible (formed : WellFormed like s) (impossible : s.isBottom = true) :
    s = like.bottom := by
  cases formed with
  | intervals _ declared => exact congrArg State.intervals (declared.impossible impossible)
  | congruences _ declared => exact congrArg State.congruences (declared.impossible impossible)
  | bounds compact => exact congrArg State.bounds (compact.impossible impossible)
  | @pentagon _ p consistent declared =>
    obtain ⟨left, right⟩ := Bool.and_eq_true_iff.mp impossible
    exact congrArg State.pentagon (congrArg₂ Pentagon.mk (consistent.compact.impossible left)
      (declared.intervals.impossible right))

theorem WellFormed.isBottomPopScope (formed : WellFormed like s) (token : ScopeToken) :
    (s.popScope token).isBottom = s.isBottom := by
  cases formed with
  | intervals => exact Environment.isBottomRenameKeys _ _
  | congruences => exact Environment.isBottomRenameKeys _ _
  | bounds => exact UpperBounds.isBottomRename _ _
  | pentagon =>
    exact congrArg₂ and (UpperBounds.isBottomRename _ _) (Environment.isBottomRenameKeys _ _)

def Action.Local : Action → Prop
  | .assign id e => id.isHidden = false ∧ e.Visible
  | .assume e | .step e => e.Visible
  | .forget id => id.isHidden = false
  | .forgetAll ids => ∀ id ∈ ids, id.isHidden = false
  | .enter _ | .leave _ => False

/-- The body of a call: local steps and whole calls, each left by the token it was entered with. -/
inductive Nested : List Action → Prop where
  | done : Nested []
  | step {action : Action} {rest : List Action} (own : action.Local) :
      Nested rest → Nested (action :: rest)
  | call {token : ScopeToken} {body rest : List Action} (scope : token ≠ .none) :
      Nested body → Nested rest → Nested (.enter token :: (body ++ .leave token :: rest))

theorem Keeps.act {action : Action} (keeps : Keeps Identifier.isHidden base s) (own : action.Local)
    (ok : s.act action = .ok next) : Keeps Identifier.isHidden base next := by
  cases action with
  | assign id e => exact keeps.assign own.1 own.2 ok
  | assume e => exact keeps.assume own ok
  | step e => cases ok; exact keeps
  | forget id => cases ok; exact keeps.forget own
  | forgetAll ids => cases ok; exact keeps.forgetIf fun k listed => own k (of_decide_eq_true listed)
  | enter => exact own.elim
  | leave => exact own.elim

theorem runAppend {first second : List Action} (ok : s.run (first ++ second) = .ok next) :
    ∃ middle, s.run first = .ok middle ∧ middle.run second = .ok next := by
  induction first generalizing s with
  | nil => exact ⟨s, rfl, ok⟩
  | cons action rest ih =>
    obtain ⟨after, stepped, ok⟩ := bindOk ok
    obtain ⟨middle, before, last⟩ := ih ok
    exact ⟨middle, by rw [run, stepped]; exact before, last⟩

/- By induction over the calls. The frame of an inner call is the whole state at its entry, so leaving
it restores that state, and with it the frame of the call around. -/
theorem Nested.keeps {start : State} {actions : List Action} (known : IsStart start)
    (nested : Nested actions) (reached : ReachedFrom start s)
    (keeps : Keeps Identifier.isHidden base s) (ok : s.run actions = .ok next) :
    Keeps Identifier.isHidden base next := by
  induction nested generalizing base s next with
  | done => cases ok; exact keeps
  | step own _ ih =>
    obtain ⟨after, stepped, ok⟩ := bindOk ok
    exact ih (reached.act stepped) (keeps.act own stepped) ok
  | @call token body rest scope _ _ inner outer =>
    obtain ⟨entered, stepped, ok⟩ := bindOk ok
    cases stepped
    obtain ⟨after, inside, ok⟩ := runAppend ok
    obtain ⟨left, stepped, ok⟩ := bindOk ok
    cases stepped
    have before := reached.wellFormed known
    have entering : ReachedFrom start (s.pushScope token) := .pushScope token reached
    have ending : ReachedFrom start after := entering.run inside
    have frame := inner entering (before.keepsPushScope token) inside
    have restored := before.popScopeKeeps (ending.wellFormed known) scope frame
    exact outer (.popScope token ending) (keeps.trans restored) ok

/- The caller gets back what it had, or the impossible state where the callee has ended in one. No fact
of the caller is lost or changed, and no local of the callee is left behind. -/
theorem callRestores (start s r : State) (token : ScopeToken) (actions : List Action)
    (known : IsStart start) (reached : ReachedFrom start s) (scope : token ≠ .none)
    (nested : Nested actions) (ok : (s.pushScope token).run actions = .ok r) :
    (r.isBottom = true ∧ r.popScope token = start.bottom) ∨
      (r.isBottom = false ∧ (r.popScope token).same s = true) := by
  have before := reached.wellFormed known
  have entering : ReachedFrom start (s.pushScope token) := .pushScope token reached
  have ending : ReachedFrom start r := entering.run ok
  have left := (ReachedFrom.popScope token ending).wellFormed known
  have known' := (ending.wellFormed known).isBottomPopScope token
  cases possible : r.isBottom with
  | true => exact .inl ⟨rfl, left.impossible (known'.trans possible)⟩
  | false =>
    have frame := nested.keeps known entering (before.keepsPushScope token) ok
    have restored := before.popScopeKeeps (ending.wellFormed known) scope frame
    exact .inr ⟨rfl, before.sameOfKeeps left (known'.trans possible) restored⟩

/- A procedure that calls itself, with locals named as the variables of its caller. The inner call
relates `y` and `x` the other way round than the caller does. -/
theorem callRestoresRecursion :
    let x := Identifier.visible "x"
    let y := Identifier.visible "y"
    let z := Identifier.visible "z"
    let f := ScopeToken.text "f"
    let less (i j : Identifier) := Expr.binary .lt (.identifier i) (.identifier j)
    let caller : List Action := [.assume (less x y), .assign z (.constant (.number (.int 3)))]
    let inner : List Action := [.assume (less y x), .assign y (.identifier x), .forget x]
    let body : List Action :=
      .assign x (.constant (.number (.int 5))) :: .assume (less x y) ::
        .enter f :: (inner ++ [.leave f, .forgetAll [y], .step (less x y)])
    ∃ s r, (pentagon .top).run caller = .ok s ∧ (s.pushScope f).run body = .ok r ∧
      s.knows x = true ∧ s.knows z = true ∧ r.knows x = true ∧ (r.popScope f).same s = true := by
  intro x y z f less caller inner body
  obtain ⟨s, before, bound, stored, check⟩ : ∃ s, (pentagon .top).run caller = .ok s ∧
      s.knows x = true ∧ s.knows z = true ∧ ((s.pushScope f).run body).toOption.any
        (fun r => decide (r.isBottom = false ∧ r.knows x = true)) = true :=
    yields (by decide +kernel)
  obtain ⟨r, ok, possible, shadowed⟩ := yields check
  have visible {i j : Identifier} (left : i.isHidden = false) (right : j.isHidden = false) :
      (less i j).Visible := by
    intro k mentioned
    rcases mentioned with rfl | rfl
    · exact left
    · exact right
  have called : Nested inner :=
    .step (visible rfl rfl) (.step ⟨rfl, fun _ same => same ▸ rfl⟩ (.step rfl .done))
  have nested : Nested body := by
    refine .step ⟨rfl, nofun⟩ (.step (visible rfl rfl) (.call nofun called (.step ?_
      (.step (visible rfl rfl) .done))))
    exact fun k listed => List.mem_singleton.mp listed ▸ rfl
  obtain ⟨impossible, _⟩ | ⟨_, same⟩ :=
    callRestores _ s r f body .pentagon (ReachedFrom.run .start before) nofun nested ok
  · rw [possible] at impossible
    contradiction
  · exact ⟨s, r, before, ok, bound, stored, shadowed, same⟩

end State
end Abstraction
