import Abstraction.State.Environment
import Abstraction.Proofs.Domain
import Abstraction.Proofs.Number.Order
import Abstraction.Proofs.Table

/-! Environments against stores, for any domain of values that keeps the laws: evaluation, assignment,
verdicts and assumptions lose no store. A store is in an environment if the value of every
identifier with an entry is in the entry; the impossible environment has none. -/
namespace Abstraction.Environment
open ArithmeticFault (bindOk)

variable {V : Type}

section
variable [ValueDomain V] {env next : Environment V} {e : Expr} {id : Identifier}

theorem evalPossible (possible : env.isBottom = false) : env.eval e = env.evalExpr e := by
  rw [eval, if_neg (by simp [possible])]

theorem assignSource (possible : env.isBottom = false) (ok : env.assign id e = .ok next) :
    ∃ v, env.evalExpr e = .ok v ∧ next = env.put id v := by
  rw [assign, if_neg (by simp [possible]), evalPossible possible] at ok
  obtain ⟨v, value, ok⟩ := bindOk ok
  exact ⟨v, value, (Except.ok.inj ok).symm⟩

theorem refineSource {op : Operator} {l r : Expr} {negated : Bool}
    (comparison : op.isComparison = true) (possible : env.isBottom = false)
    (ok : env.refine negated (.binary op l r) = .ok next) :
    ∃ actual v w, actual = (if negated then op.complement else op) ∧
      env.evalExpr l = .ok v ∧ env.evalExpr r = .ok w ∧
      next = if ValueDomain.isBottom (ValueDomain.refine actual v w).1 ||
          ValueDomain.isBottom (ValueDomain.refine actual v w).2 then bottom
        else (env.putOperand l (ValueDomain.refine actual v w).1).putOperand r
          (ValueDomain.refine actual v w).2 := by
  simp only [refine, if_pos comparison, evalPossible possible] at ok
  obtain ⟨v, evalLeft, ok⟩ := bindOk ok
  obtain ⟨w, evalRight, ok⟩ := bindOk ok
  refine ⟨_, v, w, rfl, evalLeft, evalRight, ?_⟩
  generalize (if negated then op.complement else op) = actual at ok ⊢
  split at ok
  · rename_i empty; rw [if_pos empty]; exact (Except.ok.inj ok).symm
  · rename_i full; rw [if_neg full]; exact (Except.ok.inj ok).symm

/-- What assuming a guard can do: refute it, leave everything, or give the operands of a comparison
in it the values that the comparison leaves them. -/
inductive Assumed (env : Environment V) (e : Expr) : Environment V → Prop where
  | impossible : Assumed env e bottom
  | kept : Assumed env e env
  | refined {actual : Operator} {l r : Expr} {v w : V} (possible : env.isBottom = false)
      (operands : ∀ id, l.Mentions id ∨ r.Mentions id → e.Mentions id)
      (left : env.evalExpr l = .ok v) (right : env.evalExpr r = .ok w) :
      Assumed env e ((env.putOperand l (ValueDomain.refine actual v w).1).putOperand r
        (ValueDomain.refine actual v w).2)

theorem refined (possible : env.isBottom = false) {negated : Bool}
    (ok : env.refine negated e = .ok next) : Assumed env e next := by
  induction e generalizing negated with
  | unary op e ih =>
    cases op
    case not =>
      cases ih ok with
      | impossible => exact .impossible
      | kept => exact .kept
      | refined possible operands left right => exact .refined possible operands left right
    all_goals cases ok; exact .kept
  | binary op l r =>
    by_cases comparison : op.isComparison = true
    · obtain ⟨_, _, _, _, left, right, rfl⟩ := refineSource comparison possible ok
      split
      · exact .impossible
      · exact .refined possible (fun _ => id) left right
    · simp only [refine, if_neg comparison] at ok
      cases ok; exact .kept
  | _ => cases ok; exact .kept

theorem assumed (ok : env.assume e = .ok next) : Assumed env e next := by
  cases possible : env.isBottom with
  | true =>
    rw [assume, if_pos possible] at ok
    cases ok; exact .kept
  | false =>
    rw [assume, if_neg (by simp [possible])] at ok
    obtain ⟨verdict, _, ok⟩ := bindOk ok
    cases verdict with
    | fails => cases ok; exact .impossible
    | contradiction => cases ok; exact .impossible
    | holds => cases ok; exact .kept
    | unknown => exact refined possible ok

end

variable [Membership Int V]

instance : Membership Store (Environment V) :=
  ⟨fun env s => env.isBottom = false ∧ ∀ k v, env.table.find k = some v → s k ∈ v⟩

instance [∀ (n : Int) (v : V), Decidable (n ∈ v)] (s : Store) (env : Environment V) :
    Decidable (s ∈ env) :=
  decidable_of_iff (env.isBottom = false ∧ ∀ entry ∈ env.table.entries, s entry.1 ∈ entry.2)
    ⟨fun h => ⟨h.1, fun k v found => h.2 (k, v) (Table.findExact.mp found)⟩,
      fun h => ⟨h.1, fun (k, v) stored => h.2 k v (Table.findExact.mpr stored)⟩⟩

theorem notMemBottom (s : Store) : s ∉ (bottom : Environment V) := fun inside => by
  have possible := inside.1
  contradiction

variable [ValueDomain V] [SoundDomain V] {env next : Environment V} {s : Store} {e : Expr} {id : Identifier}

def Regular (env : Environment V) : Prop :=
  ∀ k v, env.table.find k = some v → SoundDomain.Regular v

instance [DecidablePred (SoundDomain.Regular : V → Prop)] (env : Environment V) :
    Decidable env.Regular :=
  decidable_of_iff (∀ entry ∈ env.table.entries, SoundDomain.Regular entry.2)
    ⟨fun h k v found => h (k, v) (Table.findExact.mp found),
      fun h (k, v) stored => h k v (Table.findExact.mpr stored)⟩

theorem memGet (inside : s ∈ env) (k : Identifier) : s k ∈ env.get k := by
  simp only [get, inside.1, Bool.false_eq_true, if_false]
  cases found : env.table.find k with
  | none => exact SoundDomain.memTop _
  | some v => exact inside.2 k v found

theorem regularGet (regular : env.Regular) (possible : env.isBottom = false) (k : Identifier) :
    SoundDomain.Regular (env.get k) := by
  simp only [get, possible, Bool.false_eq_true, if_false]
  cases found : env.table.find k with
  | none => exact SoundDomain.regularTop
  | some v => exact regular k v found

theorem regularBottom : (bottom : Environment V).Regular := fun _ _ found => by contradiction

theorem memOfTable {table : Table V} (regular : ∀ k v, table.find k = some v →
    SoundDomain.Regular v) : s ∈ ofTable table ↔ ∀ k v, table.find k = some v → s k ∈ v := by
  constructor
  · intro inside k v found
    unfold ofTable at inside
    split at inside
    · exact (notMemBottom s inside).elim
    · exact inside.2 k v found
  · intro members
    unfold ofTable
    split
    · rename_i impossible
      obtain ⟨k, v, found, empty⟩ := Table.anyValueExact.mp impossible
      exact ((SoundDomain.isBottomExact (regular k v found)).mp empty _ (members k v found)).elim
    · exact ⟨rfl, members⟩

theorem regularOfTable {table : Table V} (regular : ∀ k v, table.find k = some v →
    SoundDomain.Regular v) : (ofTable table).Regular := by
  unfold ofTable
  split
  · exact regularBottom
  · exact regular

theorem regularSet {v : V} (regular : env.Regular) (value : SoundDomain.Regular v) :
    ∀ k w, (env.table.set id v).find k = some w → SoundDomain.Regular w := by
  intro k w found
  rw [Table.findSet] at found
  split at found
  · cases Option.some.inj found; exact value
  · exact regular k w found

theorem memPut {v : V} (regular : env.Regular) (value : SoundDomain.Regular v)
    (possible : env.isBottom = false) :
    s ∈ env.put id v ↔ s id ∈ v ∧ ∀ k ≠ id, ∀ w, env.table.find k = some w → s k ∈ w := by
  rw [put, if_neg (by simp [possible]), memOfTable (regularSet regular value)]
  simp only [Table.findSet]
  constructor
  · intro members
    exact ⟨members id v (if_pos rfl), fun k other w found =>
      members k w (by rw [if_neg other]; exact found)⟩
  · intro known k w found
    obtain ⟨hit, others⟩ := known
    split at found
    · rename_i same
      cases Option.some.inj found
      rw [same]; exact hit
    · rename_i other
      exact others k other w found

theorem regularPut {v : V} (regular : env.Regular) (value : SoundDomain.Regular v) :
    (env.put id v).Regular := by
  unfold put
  split
  · exact regular
  · exact regularOfTable (regularSet regular value)

theorem regularEval (regular : env.Regular) (possible : env.isBottom = false) {v : V}
    (ok : env.evalExpr e = .ok v) : SoundDomain.Regular v := by
  induction e generalizing v with
  | constant c => cases ok; exact SoundDomain.regularConstant c
  | identifier id => cases ok; exact regularGet regular possible id
  | unary op e ih =>
    obtain ⟨w, inner, ok⟩ := bindOk ok
    cases ok
    exact SoundDomain.regularUnary (ih inner)
  | binary op l r left right =>
    obtain ⟨v, first, ok⟩ := bindOk ok
    obtain ⟨w, second, ok⟩ := bindOk ok
    exact SoundDomain.regularBinary (left first) (right second) ok
  | unrecognised => cases ok; exact SoundDomain.regularTop

theorem evalSound (regular : env.Regular) (inside : s ∈ env) {v : V} {n : Int}
    (takes : e.MayTake s n) (ok : env.evalExpr e = .ok v) : n ∈ v := by
  induction e generalizing v n with
  | constant c => cases ok; exact SoundDomain.constantSound takes
  | identifier id => cases ok; cases takes; exact memGet inside id
  | unary op e ih =>
    obtain ⟨m, operand, yields⟩ := takes
    obtain ⟨w, inner, ok⟩ := bindOk ok
    cases ok
    exact SoundDomain.unarySound (regularEval regular inside.1 inner) (ih operand inner) yields
  | binary op l r left right =>
    obtain ⟨m, k, first, second, yields⟩ := takes
    obtain ⟨v, evalLeft, ok⟩ := bindOk ok
    obtain ⟨w, evalRight, ok⟩ := bindOk ok
    exact SoundDomain.binarySound (regularEval regular inside.1 evalLeft)
      (regularEval regular inside.1 evalRight) ok (left first evalLeft) (right second evalRight)
      yields
  | unrecognised => cases ok; exact SoundDomain.memTop n

theorem regularAssign (regular : env.Regular) (ok : env.assign id e = .ok next) :
    next.Regular := by
  cases possible : env.isBottom with
  | true =>
    rw [assign, if_pos possible] at ok
    cases ok; exact regular
  | false =>
    obtain ⟨v, value, rfl⟩ := assignSource possible ok
    exact regularPut regular (regularEval regular possible value)

theorem assignSound (regular : env.Regular) (inside : s ∈ env) {n : Int} (takes : e.MayTake s n)
    (ok : env.assign id e = .ok next) : s.set id n ∈ next := by
  obtain ⟨v, value, rfl⟩ := assignSource inside.1 ok
  rw [memPut regular (regularEval regular inside.1 value) inside.1, Store.setSame]
  refine ⟨evalSound regular inside takes value, ?_⟩
  intro k other w found
  rw [Store.setOther s n other]
  exact inside.2 k w found

theorem judgeSound (regular : env.Regular) (inside : s ∈ env) {outcome : Bool} {verdict : Verdict}
    (may : e.MayBe s outcome) (ok : env.judge e = .ok verdict) : verdict.Admits outcome := by
  induction e generalizing outcome verdict with
  | constant c =>
    cases c with
    | truth b => cases ok; exact Verdict.admitsOf.mpr may
    | _ => cases ok; trivial
  | identifier id => cases ok; trivial
  | unary op e ih =>
    cases op
    case not =>
      obtain ⟨inner, judged, ok⟩ := bindOk ok
      cases ok
      exact Verdict.admitsNegate.mpr (ih may judged)
    all_goals cases ok; trivial
  | binary op l r =>
    simp only [judge] at ok
    split at ok
    · rename_i comparison
      rw [evalPossible inside.1, evalPossible inside.1] at ok
      obtain ⟨v, evalLeft, ok⟩ := bindOk ok
      obtain ⟨w, evalRight, ok⟩ := bindOk ok
      cases ok
      obtain ⟨m, k, first, second, rfl⟩ := may comparison
      exact SoundDomain.compareSound comparison (regularEval regular inside.1 evalLeft)
        (regularEval regular inside.1 evalRight) (evalSound regular inside first evalLeft)
        (evalSound regular inside second evalRight)
    · cases ok; trivial
  | unrecognised => cases ok; trivial

theorem memPutOperand {v : V} {n : Int} (regular : env.Regular) (value : SoundDomain.Regular v)
    (inside : s ∈ env) (takes : e.MayTake s n) (member : n ∈ v) : s ∈ env.putOperand e v := by
  cases e with
  | identifier id =>
    cases takes
    exact (memPut regular value inside.1).mpr ⟨member, fun k _ w found => inside.2 k w found⟩
  | _ => exact inside

theorem regularPutOperand {v : V} (regular : env.Regular) (value : SoundDomain.Regular v) :
    (env.putOperand e v).Regular := by
  cases e with
  | identifier id => exact regularPut regular value
  | _ => exact regular

theorem refineSound (regular : env.Regular) (inside : s ∈ env) {negated : Bool}
    (may : e.MayBe s (!negated)) (ok : env.refine negated e = .ok next) : s ∈ next := by
  induction e generalizing negated with
  | constant c => cases ok; exact inside
  | identifier id => cases ok; exact inside
  | unary op e ih =>
    cases op
    case not => exact ih may ok
    all_goals cases ok; exact inside
  | binary op l r =>
    by_cases comparison : op.isComparison = true
    · obtain ⟨actual, v, w, known, evalLeft, evalRight, rfl⟩ :=
        refineSource comparison inside.1 ok
      obtain ⟨m, k, first, second, outcome⟩ := may comparison
      have holds : actual.isComparison = true ∧ actual.holds m k = true := by
        subst known
        rw [Operator.signedHolds comparison, outcome, Bool.xor_not_self]
        exact ⟨Operator.signedComparison comparison negated, rfl⟩
      have regularLeft := regularEval regular inside.1 evalLeft
      have regularRight := regularEval regular inside.1 evalRight
      obtain ⟨keepLeft, keepRight⟩ := SoundDomain.refineSound holds.1 regularLeft regularRight
        (evalSound regular inside first evalLeft) (evalSound regular inside second evalRight)
        holds.2
      have refined : SoundDomain.Regular (ValueDomain.refine actual v w).1 ∧
          SoundDomain.Regular (ValueDomain.refine actual v w).2 :=
        SoundDomain.regularRefine regularLeft regularRight
      split
      · rename_i empty
        rcases Bool.or_eq_true_iff.mp empty with leftEmpty | rightEmpty
        · exact ((SoundDomain.isBottomExact refined.1).mp leftEmpty m keepLeft).elim
        · exact ((SoundDomain.isBottomExact refined.2).mp rightEmpty k keepRight).elim
      · exact memPutOperand (regularPutOperand regular refined.1) refined.2
          (memPutOperand regular refined.1 inside first keepLeft) second keepRight
    · simp only [refine, if_neg comparison] at ok
      cases ok; exact inside
  | unrecognised => cases ok; exact inside

theorem satisfiesSound (regular : env.Regular) (inside : s ∈ env) {outcome : Bool}
    {verdict : Verdict} (may : e.MayBe s outcome) (ok : env.satisfies e = .ok verdict) :
    verdict.Admits outcome := by
  rw [satisfies, if_neg (by simp [inside.1])] at ok
  exact judgeSound regular inside may ok

theorem assumeSound (regular : env.Regular) (inside : s ∈ env) (may : e.MayBe s true)
    (ok : env.assume e = .ok next) : s ∈ next := by
  rw [assume, if_neg (by simp [inside.1])] at ok
  obtain ⟨verdict, answer, ok⟩ := bindOk ok
  have admits := satisfiesSound regular inside may answer
  cases verdict with
  | fails => contradiction
  | contradiction => exact admits.elim
  | holds => cases ok; exact inside
  | unknown => exact refineSound regular inside may ok

theorem leqSound (order : env.leq next = true) (inside : s ∈ env) : s ∈ next := by
  rw [leq, if_neg (by simp [inside.1])] at order
  split at order <;> try contradiction
  rename_i possible
  have possible : next.isBottom = false := Bool.eq_false_iff.mpr possible
  refine ⟨possible, fun k v found => ?_⟩
  have listed : k ∈ env.table.keysOfBoth next.table :=
    Table.memKeysOfBoth.mpr (.inr (Table.keyOfFind found))
  have below := SoundDomain.leqSound (List.all_eq_true.mp order k listed) (memGet inside k)
  simpa only [get, possible, Bool.false_eq_true, if_false, found, Option.getD_some] using below

end Abstraction.Environment
