import Abstraction.Proofs.Pentagon.Bounds
import Abstraction.Proofs.Pentagon.Lattice

/-! The laws of the order of pentagons. The order does not compare half by half: a bound may be recorded
below, proved by the intervals below, or not asked for. What makes it transitive is that each of
these reasons survives in a smaller pentagon. -/
namespace Abstraction.Pentagon

variable {p q r : Pentagon} {x y : Identifier}

structure Reduced (p : Pentagon) : Prop where
  halves : p = bottom ∨ (p.bounds.isBottom = false ∧ p.intervals.isBottom = false)
  occupied : p.intervals.Occupied

theorem leqImpossible (impossible : p.intervals.isBottom = true) (q : Pentagon) :
    p.leq q = true := by
  refine leqExact.mpr ⟨Environment.leqImpossible impossible q.intervals, fun x y _ => .empty ?_⟩
  rw [Environment.get, if_pos impossible]
  rfl

theorem bottomLeq (q : Pentagon) : bottom.leq q = true := leqImpossible rfl q

theorem leqRefl (regular : p.intervals.Regular) : p.leq p = true :=
  leqExact.mpr ⟨Environment.leqRefl regular, fun _ _ => .recorded⟩

theorem leqTop (regular : p.intervals.Regular) : p.leq top = true :=
  leqExact.mpr ⟨Environment.leqTop regular,
    fun _ y bound => (Names.notMemEmpty y bound).elim⟩

theorem provablyBelowShrinks {a b a' b' : Interval} (below : provablyBelow a' b' = true)
    (first : a.leq a' = true) (second : b.leq b' = true) (left : a.isEmpty = false)
    (right : b.isEmpty = false) : provablyBelow a b = true := by
  obtain ⟨_, _, less⟩ := provablyBelowExact.mp below
  cases a with
  | empty => contradiction
  | range lo hi _ =>
  cases b with
  | empty => contradiction
  | range low high _ =>
    simp only [Interval.leq, decide_eq_true_eq] at first second
    exact decide_eq_true (lt_of_le_of_lt first.2 (lt_of_lt_of_le less second.1))

theorem leqTrans (lower : p.intervals.Occupied) (upper : r.intervals.Regular)
    (first : p.leq q = true) (second : q.leq r = true) : p.leq r = true := by
  obtain ⟨within, accepts⟩ := leqExact.mp first
  obtain ⟨within', accepts'⟩ := leqExact.mp second
  cases possible : p.intervals.isBottom with
  | true => exact leqImpossible possible r
  | false =>
  refine leqExact.mpr ⟨Environment.leqTrans lower.regular upper within within', fun x y bound => ?_⟩
  obtain ⟨possible', smaller⟩ := (Environment.leqPointwise possible).mp within
  obtain ⟨possible'', larger⟩ := (Environment.leqPointwise possible').mp within'
  cases accepts' x y bound with
  | recorded bound' =>
    cases accepts x y bound' with
    | recorded bound'' => exact .recorded bound''
    | empty vacant => exact .empty vacant
    | unrestricted whole =>
      -- An identifier that is unrestricted in the middle is so above.
      have order := larger y
      rw [Interval.isWholeExact.mp whole] at order
      refine .unrestricted (Interval.isWholeExact.mpr ?_)
      exact ExactDomain.eqTop (Environment.regularGet upper possible'' y) fun n =>
        SoundDomain.leqSound order (Interval.memWhole n)
    | proved below => exact .proved below
  | empty vacant =>
    have order := smaller x
    cases value : p.intervals.get x with
    | empty => exact .empty (by rw [value]; rfl)
    | range =>
      cases value' : q.intervals.get x with
      | empty => rw [value, value'] at order; contradiction
      | range => rw [value'] at vacant; contradiction
  | unrestricted whole => exact .unrestricted whole
  | proved below =>
    exact .proved (provablyBelowShrinks below (smaller x) (smaller y) (lower.get possible x)
      (lower.get possible y))

theorem bottomJoin (q : Pentagon) : bottom.join q = q := by
  have bounds : (bottom.join q).bounds = q.bounds := joinImpossibleLeft consistentBottom rfl
  calc bottom.join q
      = ⟨(bottom.join q).bounds, (bottom.join q).intervals⟩ := rfl
    _ = ⟨q.bounds, q.intervals⟩ := by rw [bounds]; rfl

theorem joinBottom (reduced : p.Reduced) : p.join bottom = p := by
  rcases reduced.halves with rfl | ⟨possible, possible'⟩
  · exact bottomJoin bottom
  · have bounds : (p.join bottom).bounds = p.bounds :=
      joinImpossibleRight consistentBottom possible rfl
    have intervals : (p.join bottom).intervals = p.intervals :=
      Environment.outerImpossible possible' rfl
    calc p.join bottom
        = ⟨(p.join bottom).bounds, (p.join bottom).intervals⟩ := rfl
      _ = ⟨p.bounds, p.intervals⟩ := by rw [bounds, intervals]

theorem Shared.symm (shared : Shared p q x y) : Shared q p x y := Or.symm shared

theorem Shared.accepts (shared : Shared p q x y) (r : Pentagon) : Accepts p r x y := by
  rcases shared with ⟨bound, _⟩ | ⟨_, bound | below⟩
  · exact .recorded bound
  · exact .recorded bound
  · exact .proved below

theorem leqJoin (left : p.Reduced) (right : q.Reduced) :
    p.leq (p.join q) = true ∧ q.leq (p.join q) = true := by
  rcases left.halves with rfl | ⟨possible, _⟩
  · rw [bottomJoin]
    exact ⟨bottomLeq q, leqRefl right.occupied.regular⟩
  rcases right.halves with rfl | ⟨possible', _⟩
  · rw [joinBottom left]
    exact ⟨leqRefl left.occupied.regular, bottomLeq p⟩
  have order := Environment.leqJoin left.occupied right.occupied
  refine ⟨leqExact.mpr ⟨order.1, fun x y bound => ?_⟩, leqExact.mpr ⟨order.2, fun x y bound => ?_⟩⟩
  · exact ((memGetJoin possible possible').mp bound).accepts _
  · exact ((memGetJoin possible possible').mp bound).symm.accepts _

theorem meetLeq (left : p.intervals.Occupied) (right : q.intervals.Occupied) :
    (p.meet q).leq p = true ∧ (p.meet q).leq q = true := by
  obtain collapsed | ⟨same, impossible | ⟨possible, _⟩⟩ :=
    reducedCases ⟨p.bounds.meet q.bounds, p.intervals.meet q.intervals⟩
  · rw [meet, collapsed]
    exact ⟨bottomLeq p, bottomLeq q⟩
  · rw [meet, same]
    have half := (Bool.and_eq_true_iff.mp impossible).2
    exact ⟨leqImpossible half p, leqImpossible half q⟩
  · rw [meet, same]
    have order := Environment.meetLeq left right
    exact ⟨leqExact.mpr ⟨order.1, fun x y bound =>
        .recorded (UpperBounds.meetKeeps possible (.inl bound))⟩,
      leqExact.mpr ⟨order.2, fun x y bound =>
        .recorded (UpperBounds.meetKeeps possible (.inr bound))⟩⟩

theorem joinLeqWiden (left : p.Reduced) (right : q.Reduced) :
    (p.join q).leq (p.widen q) = true := by
  rcases left.halves with rfl | ⟨possible, possibleIntervals⟩
  · rw [bottomJoin]
    exact leqRefl right.occupied.regular
  rcases right.halves with rfl | ⟨possible', _⟩
  · rw [joinBottom left]
    have bounds : p.bounds.widen .bottom = p.bounds := by
      rw [UpperBounds.widen, if_neg (by simp [possible]), if_pos (by rfl)]
    have intervals : p.intervals.widen .bottom = p.intervals :=
      Environment.outerImpossible possibleIntervals rfl
    have widened : p.widen bottom = p :=
      calc p.widen bottom
          = ⟨p.bounds.widen .bottom, p.intervals.widen .bottom⟩ := rfl
        _ = ⟨p.bounds, p.intervals⟩ := by rw [bounds, intervals]
    rw [widened]
    exact leqRefl left.occupied.regular
  refine leqExact.mpr ⟨Environment.joinLeqWiden left.occupied right.occupied, fun x y bound => ?_⟩
  obtain ⟨recorded, kept⟩ := (UpperBounds.memGetWiden possible possible').mp bound
  exact .recorded ((memGetJoin possible possible').mpr (.inl ⟨recorded, .inl (kept y recorded)⟩))

theorem sameRefl (p : Pentagon) : p.same p = true := by
  have bounds : p.bounds.same p.bounds = true :=
    Bool.and_eq_true_iff.mpr ⟨beq_self_eq_true _, Table.sameOfFind fun k => by
      cases p.bounds.table.find k with
      | none => rfl
      | some above => exact Names.beqExact.mpr fun _ => Iff.rfl⟩
  have intervals : p.intervals.same p.intervals = true :=
    Bool.and_eq_true_iff.mpr ⟨beq_self_eq_true _, Table.sameOfFind fun k => beq_self_eq_true _⟩
  exact Bool.and_eq_true_iff.mpr ⟨bounds, intervals⟩

theorem joinStored (left : p.bounds.isBottom = false) (right : q.bounds.isBottom = false) :
    (p.join q).bounds.Compact ∧ (p.join q).bounds.kind = .value := by
  have shared : p.bounds.join q.bounds = .ofTable .value
      (p.bounds.table.mapValues fun x above => above.inter (q.bounds.get x)) := by
    rw [UpperBounds.join, if_neg (by simp [left]), if_neg (by simp [right])]
  have stored {P : UpperBounds → Prop} (lasting : UpperBounds.Lasting P) : P (p.join q).bounds := by
    rw [join, shared]
    exact lastingRecover lasting (lastingRecover lasting (lasting.built _) _ _) _ _
  refine ⟨stored UpperBounds.compactLasting, (stored UpperBounds.declaredLasting).possible ?_⟩
  rw [isBottomJoin, left]
  rfl

theorem sameJoin (left : p.Reduced) (right : q.Reduced) :
    (p.join q).same (q.join p) = true := by
  rcases left.halves with rfl | ⟨possible, possibleIntervals⟩
  · rw [bottomJoin, joinBottom right]
    exact sameRefl q
  rcases right.halves with rfl | ⟨possible', possibleIntervals'⟩
  · rw [bottomJoin, joinBottom left]
    exact sameRefl p
  -- Whatever the operands store, a join stores its bounds in one way, so equal bounds are the same.
  obtain ⟨compact, kind⟩ := joinStored possible possible'
  obtain ⟨compact', kind'⟩ := joinStored possible' possible
  refine Bool.and_eq_true_iff.mpr ⟨UpperBounds.sameOfEdges compact compact' (kind.trans kind'.symm)
    fun x y => ?_, Environment.sameJoin left.occupied right.occupied possibleIntervals
      possibleIntervals'⟩
  rw [memGetJoin possible possible', memGetJoin possible' possible]
  exact ⟨Shared.symm, Shared.symm⟩

theorem orderLaws (p q r : Pentagon) (first : p.Reduced) (second : q.Reduced) (third : r.Reduced) :
    p.leq p = true ∧ (p.leq q = true → q.leq r = true → p.leq r = true) ∧
    bottom.leq p = true ∧ p.leq top = true ∧
    (p.leq (p.join q) = true ∧ q.leq (p.join q) = true) ∧
    ((p.meet q).leq p = true ∧ (p.meet q).leq q = true) ∧
    (p.join q).leq (p.widen q) = true ∧ (p.join q).same (q.join p) = true :=
  ⟨leqRefl first.occupied.regular, leqTrans first.occupied third.occupied.regular, bottomLeq p,
    leqTop first.occupied.regular, leqJoin first second, meetLeq first.occupied second.occupied,
    joinLeqWiden first second, sameJoin first second⟩

/-- The bound `x < y` is proved by intervals below, recorded in the middle and recorded above beside
`x < z`, which is not asked for; so the first pentagon is below the last. -/
theorem orderLawsChain :
    let x := Identifier.visible "x"
    let y := Identifier.visible "y"
    let z := Identifier.visible "z"
    let p : Pentagon := ⟨.ofTable .value ∅,
      .ofTable (.ofList [(x, .const (.int 0)), (y, .ofBounds (.int 1) (.int 3))])⟩
    let q : Pentagon := ⟨.ofTable .value (.ofList [(x, .single y)]),
      .ofTable (.ofList [(x, .ofBounds (.int 0) (.int 2)), (y, .atLeast (.int 1))])⟩
    let r : Pentagon := ⟨.ofTable .value (.ofList [(x, .ofList [y, z])]),
      .ofTable (.ofList [(y, .atLeast (.int 0))])⟩
    (p.leq q = true ∧ q.leq r = true ∧ p.leq r = true) ∧ (p.join q).same (q.join p) = true ∧
      r.leq q = false := by
  intro x y z p q r
  have reduced (bounds : Table Names) (intervals : Table Interval)
      (possible : (Environment.ofTable intervals).isBottom = false)
      (integral : (⟨.value, intervals⟩ : Environment Interval).Regular) :
      (⟨.ofTable .value bounds, .ofTable intervals⟩ : Pentagon).Reduced :=
    ⟨.inr ⟨rfl, possible⟩, Environment.occupiedOfTable integral⟩
  have first : p.Reduced := reduced _ _ (by decide +kernel) (by decide +kernel)
  have second : q.Reduced := reduced _ _ (by decide +kernel) (by decide +kernel)
  have third : r.Reduced := reduced _ _ (by decide +kernel) (by decide +kernel)
  obtain ⟨_, trans, _, _, _, _, _, same⟩ := orderLaws p q r first second third
  have lower : p.leq q = true := by decide +kernel
  have upper : q.leq r = true := by decide +kernel
  exact ⟨⟨lower, upper, trans lower upper⟩, same, by decide +kernel⟩

end Abstraction.Pentagon
