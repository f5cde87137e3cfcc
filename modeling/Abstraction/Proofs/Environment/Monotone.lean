import Abstraction.Proofs.Congruence.Monotone
import Abstraction.Proofs.Environment.Exact
import Abstraction.Proofs.Interval.Monotone

/-! Transfer functions of environments keep the order. Evaluation follows the expression. For a guard all
rests on the members of the operands of its comparison: a larger environment refutes it only if no
pair of members satisfies it, and keeps everything only if all pairs do, so that every change of
branch goes down. -/
namespace Abstraction

def Verdict.under (negated : Bool) (verdict : Verdict) : Verdict :=
  if negated then verdict.negate else verdict

theorem Verdict.underNegate {negated : Bool} {verdict : Verdict} :
    verdict.negate.under negated = verdict.under (!negated) := by
  cases negated <;> cases verdict <;> rfl

theorem Verdict.underUnknown {negated : Bool} {verdict : Verdict} :
    verdict.under negated = .unknown ↔ verdict = .unknown := by
  cases negated <;> cases verdict <;> simp [under, negate]

theorem Verdict.admitsUnder {negated outcome : Bool} {verdict : Verdict}
    (admits : verdict.Admits outcome) :
    (verdict.under negated).Admits (Bool.xor negated outcome) := by
  cases negated <;> cases outcome <;> cases verdict <;> simp_all [under, negate, Admits]

namespace Environment
open ArithmeticFault (bindOk yields)
open SoundDomain (Included)

variable {V : Type} [ValueDomain V] {a a' b b' env next : Environment V} {v v' w w' : V}
  {e l r : Expr} {op : Operator} {id : Identifier} {negated : Bool}

/-- What assuming a guard does, or that it fails if `negated`, where some store is possible. -/
def settle (env : Environment V) (negated : Bool) (e : Expr) :
    Except ArithmeticFault (Environment V) := do
  match (← env.judge e).under negated with
  | .fails | .contradiction => .ok bottom
  | .holds => .ok env
  | .unknown => env.refine negated e

theorem assumeSettles (possible : env.isBottom = false) : env.assume e = env.settle false e := by
  rw [assume, satisfies, if_neg (by simp [possible]), if_neg (by simp [possible])]
  rfl

theorem settleNot : env.settle negated (.unary .not e) = env.settle (!negated) e := by
  cases judged : env.judge e with
  | error fault => simp [settle, judge, judged, bind, Except.bind]
  | ok verdict =>
    simp [settle, judge, judged, bind, Except.bind, Verdict.underNegate, refine]

variable [Membership Int V]

inductive Compared (env : Environment V) (op : Operator) (l r : Expr) (v w : V) :
    Environment V → Prop where
  | refuted (never : ∀ m ∈ v, ∀ k ∈ w, op.holds m k = false) : Compared env op l r v w bottom
  | certain {m k : Int} (first : m ∈ v) (second : k ∈ w)
      (every : ∀ m ∈ v, ∀ k ∈ w, op.holds m k = true) : Compared env op l r v w env
  | refined {m k : Int} (first : m ∈ v) (second : k ∈ w) (holds : op.holds m k = true) :
      Compared env op l r v w ((env.putOperand l (ValueDomain.refine op v w).1).putOperand r
        (ValueDomain.refine op v w).2)

theorem Compared.assumed (possible : env.isBottom = false) (evalLeft : env.evalExpr l = .ok v)
    (evalRight : env.evalExpr r = .ok w) (outcome : Compared env op l r v w next) :
    Assumed env (.binary op l r) next := by
  cases outcome with
  | refuted => exact .impossible
  | certain => exact .kept
  | refined => exact .refined possible (fun _ => id) evalLeft evalRight

theorem Compared.pair (outcome : Compared env op l r v w next) :
    next.isBottom = true ∨ ∃ m ∈ v, ∃ k ∈ w, op.holds m k = true := by
  cases outcome with
  | refuted => exact .inl rfl
  | certain first second every => exact .inr ⟨_, first, _, second, every _ first _ second⟩
  | refined first second holds => exact .inr ⟨_, first, _, second, holds⟩

variable [SoundDomain V]

structure Below (a b : Environment V) : Prop where
  left : a.Occupied
  right : b.Occupied
  order : a.leq b = true

theorem settleFixed {verdict : Verdict} (below : Below a b)
    (judged : ∀ env : Environment V, env.judge e = .ok verdict)
    (unrefined : ∀ env : Environment V, env.refine negated e = .ok env)
    (ok : a.settle negated e = .ok a') (ok' : b.settle negated e = .ok b') : a'.leq b' = true := by
  simp only [settle, judged, unrefined, bind, Except.bind] at ok ok'
  cases signed : verdict.under negated <;> simp only [signed] at ok ok' <;> cases ok <;> cases ok'
  case holds | unknown => exact below.order
  all_goals exact leqImpossible rfl _

structure MonotoneOn (a b : Environment V) (e : Expr) : Prop where
  value : ∀ v w, a.eval e = .ok v → b.eval e = .ok w → ValueDomain.leq v w = true
  assigned : ∀ id a' b', a.assign id e = .ok a' → b.assign id e = .ok b' → a'.leq b' = true
  assumed : ∀ a' b', a.assume e = .ok a' → b.assume e = .ok b' → a'.leq b' = true

theorem monotoneImpossible [MonotoneDomain V] (impossible : a.isBottom = true)
    (b : Environment V) (e : Expr) : MonotoneOn a b e := by
  constructor
  · intro v w ok _
    rw [eval, if_pos impossible] at ok
    cases ok
    exact MonotoneDomain.leqBottom w
  · intro id a' b' ok _
    rw [assign, if_pos impossible] at ok
    cases ok
    exact leqImpossible impossible b'
  · intro a' b' ok _
    rw [assume, if_pos impossible] at ok
    cases ok
    exact leqImpossible impossible b'

variable [ExactDomain V]

theorem Below.values (below : Below a b) (possible : a.isBottom = false) :
    b.isBottom = false ∧ ∀ k, Included (a.get k) (b.get k) := by
  obtain ⟨possible', order⟩ := (leqPointwise possible).mp below.order
  exact ⟨possible', fun k => ⟨regularGet below.left.regular possible k,
    regularGet below.right.regular possible' k, fun _ => SoundDomain.leqSound (order k)⟩⟩

theorem leqPut (left : a.Regular) (right : b.Occupied) (possible : b.isBottom = false)
    (value : Usable w) (own : ∀ n : Int, n ∈ a.get id → n ∈ w)
    (others : ∀ k ≠ id, ∀ n : Int, n ∈ a.get k → n ∈ b.get k) : a.leq (b.put id w) = true := by
  have after : (b.put id w).isBottom = false := putPossible right possible value.2
  refine leqOfMembers left (regularPut right.regular value.1) after fun k n inside => ?_
  rw [getPut possible after]
  split
  · rename_i same
    subst same
    exact own n inside
  · rename_i other
    exact others k other n inside

theorem Below.put (below : Below a b) (value : Included v w) : Below (a.put id v) (b.put id w) := by
  refine ⟨below.left.put value.left, below.right.put value.right, ?_⟩
  cases possible : a.isBottom with
  | true =>
    rw [Environment.put, if_pos possible]
    exact leqImpossible possible _
  | false =>
  cases after : (a.put id v).isBottom with
  | true => exact leqImpossible after _
  | false =>
    obtain ⟨possible', values⟩ := below.values possible
    have stored := getPut possible after
    have full : ValueDomain.isBottom v = false := by
      have kept := (below.left.put value.left).get after id
      rwa [stored, if_pos rfl] at kept
    refine leqPut (regularPut below.left.regular value.left) below.right possible'
      ⟨value.right, value.possible full⟩ (fun n inside => ?_) fun k other n inside => ?_
    · rw [stored, if_pos rfl] at inside
      exact value.members n inside
    · rw [stored, if_neg other] at inside
      exact (values k).members n inside

theorem Below.within (below : Below a b) (value : SoundDomain.Regular w)
    (included : ∀ n : Int, n ∈ a.get id → n ∈ w) : Below a (b.put id w) := by
  refine ⟨below.left, below.right.put value, ?_⟩
  cases possible : a.isBottom with
  | true => exact leqImpossible possible _
  | false =>
    obtain ⟨possible', values⟩ := below.values possible
    obtain ⟨n, inside⟩ := below.left.member possible id
    have full := SoundDomain.possibleOfMember value (included n inside)
    exact leqPut below.left.regular below.right possible' ⟨value, full⟩ included
      fun k _ => (values k).members

theorem Below.putOperand (below : Below a b) (value : Included v w) :
    Below (a.putOperand e v) (b.putOperand e w) := by
  cases e with
  | identifier id => exact below.put value
  | _ => exact below

theorem Below.operandWithin (below : Below a b) (value : SoundDomain.Regular w)
    (evaluated : a.evalExpr e = .ok v) (included : ∀ n : Int, n ∈ v → n ∈ w) :
    Below a (b.putOperand e w) := by
  cases e with
  | identifier id =>
    cases evaluated
    exact below.within value included
  | _ => exact below

variable [MonotoneDomain V]

theorem evalMono (below : Below a b) (possible : a.isBottom = false) (ok : a.evalExpr e = .ok v)
    (ok' : b.evalExpr e = .ok w) : Included v w := by
  induction e generalizing v w with
  | constant c =>
    cases ok
    cases ok'
    exact ⟨SoundDomain.regularConstant c, SoundDomain.regularConstant c, fun _ => id⟩
  | identifier id =>
    cases ok
    cases ok'
    exact (below.values possible).2 id
  | unary op e ih =>
    obtain ⟨x, inner, ok⟩ := bindOk ok
    obtain ⟨y, inner', ok'⟩ := bindOk ok'
    cases ok
    cases ok'
    have operand := ih inner inner'
    exact ⟨SoundDomain.regularUnary operand.left, SoundDomain.regularUnary operand.right,
      fun _ => MonotoneDomain.unaryMono operand⟩
  | binary op l r left right =>
    obtain ⟨x, evalLeft, ok⟩ := bindOk ok
    obtain ⟨y, evalRight, ok⟩ := bindOk ok
    obtain ⟨x', evalLeft', ok'⟩ := bindOk ok'
    obtain ⟨y', evalRight', ok'⟩ := bindOk ok'
    have first := left evalLeft evalLeft'
    have second := right evalRight evalRight'
    exact ⟨SoundDomain.regularBinary first.left second.left ok,
      SoundDomain.regularBinary first.right second.right ok',
      fun _ => MonotoneDomain.binaryMono first second ok ok'⟩
  | unrecognised =>
    cases ok
    cases ok'
    exact ⟨SoundDomain.regularTop, SoundDomain.regularTop, fun _ => id⟩

theorem refinedCompared (regular : env.Regular) (possible : env.isBottom = false)
    (comparison : op.isComparison = true) (evalLeft : env.evalExpr l = .ok v)
    (evalRight : env.evalExpr r = .ok w) (unknown : ValueDomain.compare op v w = .unknown)
    (ok : env.refine negated (.binary op l r) = .ok next) :
    Compared env (if negated then op.complement else op) l r v w next := by
  have left := regularEval regular possible evalLeft
  have right := regularEval regular possible evalRight
  have signed := Operator.signedComparison comparison negated
  obtain ⟨actual, v', w', rfl, evalLeft', evalRight', rfl⟩ := refineSource comparison possible ok
  cases Except.ok.inj (evalLeft.symm.trans evalLeft')
  cases Except.ok.inj (evalRight.symm.trans evalRight')
  have holdsOf {m k : Int} (known : op.holds m k = !negated) :
      (if negated then op.complement else op).holds m k = true := by
    rw [Operator.signedHolds comparison, known, Bool.xor_not_self]
  generalize (if negated then op.complement else op) = actual at signed holdsOf ⊢
  obtain ⟨below, below'⟩ : Included (ValueDomain.refine actual v w).1 v ∧
      Included (ValueDomain.refine actual v w).2 w := ExactDomain.refineIncluded left right
  split
  · rename_i empty
    refine .refuted fun m first k second => Bool.eq_false_iff.mpr fun holds => ?_
    obtain ⟨keptLeft, keptRight⟩ := SoundDomain.refineSound signed left right first second holds
    rw [SoundDomain.possibleOfMember below.left keptLeft,
      SoundDomain.possibleOfMember below'.left keptRight] at empty
    contradiction
  · rename_i full
    rw [Bool.not_eq_true, Bool.or_eq_false_iff] at full
    obtain ⟨m, first, k, second, outcome⟩ := MonotoneDomain.compareOpen comparison left right
      (below.possible full.1) (below'.possible full.2) unknown (!negated)
    exact .refined first second (holdsOf outcome)

theorem compared (regular : env.Regular) (possible : env.isBottom = false)
    (comparison : op.isComparison = true)
    (ok : env.settle negated (.binary op l r) = .ok next) :
    ∃ v w, env.evalExpr l = .ok v ∧ env.evalExpr r = .ok w ∧
      Compared env (if negated then op.complement else op) l r v w next := by
  obtain ⟨verdict, judged, ok⟩ := bindOk ok
  rw [judge, if_pos comparison, evalPossible possible, evalPossible possible] at judged
  obtain ⟨v, evalLeft, judged⟩ := bindOk judged
  obtain ⟨w, evalRight, judged⟩ := bindOk judged
  cases judged
  have left := regularEval regular possible evalLeft
  have right := regularEval regular possible evalRight
  have sound (m : Int) (first : m ∈ v) (k : Int) (second : k ∈ w) :
      ((ValueDomain.compare op v w).under negated).Admits
        ((if negated then op.complement else op).holds m k) := by
    rw [Operator.signedHolds comparison]
    exact Verdict.admitsUnder (SoundDomain.compareSound comparison left right first second)
  refine ⟨v, w, evalLeft, evalRight, ?_⟩
  split at ok
  · rename_i fails
    cases ok
    rw [fails] at sound
    exact .refuted sound
  · rename_i contradictory
    cases ok
    rw [contradictory] at sound
    exact .refuted fun m first k second => (sound m first k second).elim
  · rename_i holds
    cases ok
    rw [holds] at sound
    have definite : ValueDomain.compare op v w ≠ .unknown := fun unknown => by
      rw [Verdict.underUnknown.mpr unknown] at holds
      contradiction
    have full : ValueDomain.isBottom v = false ∧ ValueDomain.isBottom w = false :=
      ⟨Bool.eq_false_iff.mpr fun empty => definite (MonotoneDomain.compareBottom (.inl empty)),
        Bool.eq_false_iff.mpr fun empty => definite (MonotoneDomain.compareBottom (.inr empty))⟩
    obtain ⟨m, first⟩ := SoundDomain.memberOfPossible left full.1
    obtain ⟨k, second⟩ := SoundDomain.memberOfPossible right full.2
    exact .certain first second sound
  · rename_i unknown
    exact refinedCompared regular possible comparison evalLeft evalRight
      (Verdict.underUnknown.mp unknown) ok

theorem comparedMono (below : Below a b) (possible : a.isBottom = false)
    (comparison : op.isComparison = true) (evalLeft : a.evalExpr l = .ok v)
    (evalRight : a.evalExpr r = .ok w) (first : Included v v') (second : Included w w')
    (outcome : Compared a op l r v w a') (outcome' : Compared b op l r v' w' b') :
    a'.leq b' = true := by
  rcases outcome.pair with impossible | ⟨m, inLeft, k, inRight, holds⟩
  · exact leqImpossible impossible b'
  cases outcome' with
  | refuted never =>
    have fails := never m (first.members m inLeft) k (second.members k inRight)
    rw [holds] at fails
    contradiction
  -- Nothing changes above, and assuming a guard only goes down.
  | certain =>
    have reached := outcome.assumed possible evalLeft evalRight
    exact leqTrans (reached.occupied below.left).regular below.right.regular
      (reached.below below.left.regular) below.order
  | refined =>
    cases outcome with
    | refuted => exact leqImpossible rfl _
    | certain _ _ every =>
      have kept (x : Int) (inLeft : x ∈ v) (y : Int) (inRight : y ∈ w) :=
        SoundDomain.refineSound comparison first.right second.right (first.members x inLeft)
          (second.members y inRight) (every x inLeft y inRight)
      obtain ⟨regular, regular'⟩ : SoundDomain.Regular (ValueDomain.refine op v' w').1 ∧
          SoundDomain.Regular (ValueDomain.refine op v' w').2 :=
        SoundDomain.regularRefine first.right second.right
      have left := below.operandWithin regular evalLeft fun x inside => (kept x inside k inRight).1
      exact (left.operandWithin regular' evalRight fun y inside => (kept m inLeft y inside).2).order
    | refined =>
      obtain ⟨left, right⟩ := MonotoneDomain.refineIncluded comparison first second
      exact ((below.putOperand left).putOperand right).order

theorem settleMono (below : Below a b) (possible : a.isBottom = false)
    (ok : a.settle negated e = .ok a') (ok' : b.settle negated e = .ok b') : a'.leq b' = true := by
  induction e generalizing negated with
  | constant c => cases c <;> exact settleFixed below (fun _ => rfl) (fun _ => rfl) ok ok'
  | unary op e ih =>
    cases op
    case not =>
      rw [settleNot] at ok ok'
      exact ih ok ok'
    all_goals exact settleFixed below (fun _ => rfl) (fun _ => rfl) ok ok'
  | binary op l r =>
    by_cases comparison : op.isComparison = true
    · obtain ⟨v, w, evalLeft, evalRight, outcome⟩ :=
        compared below.left.regular possible comparison ok
      obtain ⟨v', w', evalLeft', evalRight', outcome'⟩ :=
        compared below.right.regular (below.values possible).1 comparison ok'
      exact comparedMono below possible (Operator.signedComparison comparison negated) evalLeft
        evalRight (evalMono below possible evalLeft evalLeft')
        (evalMono below possible evalRight evalRight') outcome outcome'
    · have judged (env : Environment V) : env.judge (.binary op l r) = .ok .unknown :=
        if_neg comparison
      exact settleFixed below judged (fun _ => if_neg comparison) ok ok'
  | _ => exact settleFixed below (fun _ => rfl) (fun _ => rfl) ok ok'

theorem Below.monotoneOn (below : Below a b) (possible : a.isBottom = false) (e : Expr) :
    MonotoneOn a b e := by
  have possible' := (below.values possible).1
  constructor
  · intro v w ok ok'
    rw [evalPossible possible] at ok
    rw [evalPossible possible'] at ok'
    have value := evalMono below possible ok ok'
    exact ExactDomain.leqComplete value.left value.right value.members
  · intro id a' b' ok ok'
    obtain ⟨v, evaluated, rfl⟩ := assignSource possible ok
    obtain ⟨w, evaluated', rfl⟩ := assignSource possible' ok'
    exact (below.put (evalMono below possible evaluated evaluated')).order
  · intro a' b' ok ok'
    rw [assumeSettles possible] at ok
    rw [assumeSettles possible'] at ok'
    exact settleMono below possible ok ok'

theorem Within.monotoneOn (left : a.Within Usable) (right : b.Within Usable)
    (order : a.leq b = true) (e : Expr) : MonotoneOn a b e := by
  cases possible : a.isBottom with
  | true => exact monotoneImpossible possible b e
  | false =>
    have possible' := ((leqPointwise possible).mp order).1
    exact Below.monotoneOn ⟨left.occupied possible, right.occupied possible', order⟩ possible e

theorem transferMonotone :
    (∀ a b : Environment Interval, a.Within (fun v => v.Integral ∧ v.isEmpty = false) →
      b.Within (fun v => v.Integral ∧ v.isEmpty = false) → a.leq b = true →
      ∀ e, MonotoneOn a b e) ∧
    ∀ a b : Environment Congruence, a.Within (fun v => v.isEmpty = false) →
      b.Within (fun v => v.isEmpty = false) → a.leq b = true → ∀ e, MonotoneOn a b e := by
  have usable {env : Environment Congruence} (within : env.Within fun v => v.isEmpty = false) :
      env.Within Usable := within.imp_right fun stored k v found => ⟨trivial, stored k v found⟩
  exact ⟨fun _ _ left right => left.monotoneOn right,
    fun _ _ left right => (usable left).monotoneOn (usable right)⟩

/- The smaller operands decide a comparison, keep a divisor off zero and make a quotient of classes
exact, where the larger ones do not. -/
theorem transferMonotoneBranches :
    let x := Identifier.visible "x"
    let y := Identifier.visible "y"
    let low : Environment Interval :=
      ⟨.value, .ofList [(x, .ofBounds (.int 3) (.int 4)), (y, .ofBounds (.int 5) (.int 9))]⟩
    let high : Environment Interval :=
      ⟨.value, .ofList [(x, .ofBounds (.int 0) (.int 10)), (y, .ofBounds (.int 2) (.int 9))]⟩
    let fine : Environment Congruence := ⟨.value, .ofList [(x, .ofParts 12 8)]⟩
    let coarse : Environment Congruence := ⟨.value, .ofList [(x, .ofParts 6 2)]⟩
    let less := Expr.binary .lt (.identifier x) (.identifier y)
    let quotient := Expr.binary .div (.identifier y) (.identifier x)
    let quarter := Expr.binary .div (.identifier x) (.constant (.number (.int 4)))
    (∃ a', low.assume less = .ok a' ∧ a'.get x = .ofBounds (.int 3) (.int 4) ∧
      ∃ b', high.assume less = .ok b' ∧ b'.get x = .ofBounds (.int 0) (.int 8) ∧
        a'.leq b' = true) ∧
    (∃ v, low.eval quotient = .ok v ∧ v = .ofBounds (.int 1) (.int 3) ∧
      ∃ w, high.eval quotient = .ok w ∧ w = .whole ∧ v.leq w = true) ∧
    ∃ a', fine.assign y quarter = .ok a' ∧ a'.get y = .ofParts 3 2 ∧
      ∃ b', coarse.assign y quarter = .ok b' ∧ b'.get y = .whole ∧ a'.leq b' = true := by
  intro x y low high fine coarse less quotient quarter
  have intervals := transferMonotone.1 low high (by decide +kernel) (by decide +kernel)
    (by decide +kernel)
  have classes := transferMonotone.2 fine coarse (by decide +kernel) (by decide +kernel)
    (by decide +kernel)
  refine ⟨?_, ?_, ?_⟩
  · obtain ⟨a', kept, same⟩ : ∃ a', low.assume less = .ok a' ∧
        a'.get x = .ofBounds (.int 3) (.int 4) := yields (by decide +kernel)
    obtain ⟨b', refined, same'⟩ : ∃ b', high.assume less = .ok b' ∧
        b'.get x = .ofBounds (.int 0) (.int 8) := yields (by decide +kernel)
    exact ⟨a', kept, same, b', refined, same', (intervals less).assumed a' b' kept refined⟩
  · obtain ⟨v, known, same⟩ : ∃ v, low.eval quotient = .ok v ∧
        v = .ofBounds (.int 1) (.int 3) := yields (by decide +kernel)
    obtain ⟨w, unknown, same'⟩ : ∃ w, high.eval quotient = .ok w ∧ w = .whole :=
      yields (by decide +kernel)
    exact ⟨v, known, same, w, unknown, same', (intervals quotient).value v w known unknown⟩
  · obtain ⟨a', exactly, same⟩ : ∃ a', fine.assign y quarter = .ok a' ∧ a'.get y = .ofParts 3 2 :=
      yields (by decide +kernel)
    obtain ⟨b', unknown, same'⟩ : ∃ b', coarse.assign y quarter = .ok b' ∧ b'.get y = .whole :=
      yields (by decide +kernel)
    exact ⟨a', exactly, same, b', unknown, same',
      (classes quarter).assigned y a' b' exactly unknown⟩

end Environment
end Abstraction
