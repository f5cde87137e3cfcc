import Abstraction.State.Combine
import Abstraction.Proofs.Environment.Soundness

/-! Environments that operations build keep no impossible value: where one would be stored, the whole
environment is impossible. So a join or a widening is impossible only if both operands are. Beside
it, their kind only tells the impossible environment, which stores nothing, from the others. -/
namespace Abstraction.Environment
open ArithmeticFault (bindOk)

variable {V : Type}

theorem isBottomForget (env : Environment V) (id : Identifier) :
    (env.forget id).isBottom = env.isBottom := by
  unfold forget
  split
  · rfl
  · rename_i known
    rw [Bool.or_eq_true, not_or] at known
    rw [Bool.eq_false_iff.mpr known.1]
    rfl

theorem isBottomRewritten (env : Environment V) (table : Table V) :
    (if env.isBottom then env else ⟨.value, table⟩).isBottom = env.isBottom := by
  split
  · rfl
  · rename_i possible; exact (Bool.eq_false_iff.mpr possible).symm

theorem isBottomForgetIf (env : Environment V) (drop : Identifier → Bool) :
    (env.forgetIf drop).isBottom = env.isBottom := isBottomRewritten env _

theorem isBottomRenameKeys (env : Environment V) (f : Identifier → Option Identifier) :
    (env.renameKeys f).isBottom = env.isBottom := isBottomRewritten env _

def Declared (env : Environment V) : Prop := env = bottom ∨ env.kind = .value

theorem declaredTop : (top : Environment V).Declared := .inr rfl

theorem declaredBottom : (bottom : Environment V).Declared := .inl rfl

variable {a b env next : Environment V} {e : Expr} {id : Identifier}

theorem Declared.possible (declared : env.Declared) (possible : env.isBottom = false) :
    env.kind = .value := by
  rcases declared with rfl | value
  · contradiction
  · exact value

theorem Declared.impossible (declared : env.Declared) (impossible : env.isBottom = true) :
    env = bottom := by
  rcases declared with same | value
  · exact same
  · rw [isBottom, value] at impossible
    contradiction

theorem Declared.rewritten (declared : env.Declared) (table : Table V) :
    (if env.isBottom then env else ⟨.value, table⟩ : Environment V).Declared := by
  split
  · exact declared
  · exact .inr rfl

theorem Declared.forget (declared : env.Declared) (id : Identifier) :
    (env.forget id).Declared := by
  unfold Environment.forget
  split
  · exact declared
  · exact .inr rfl

theorem Declared.forgetIf (declared : env.Declared) (drop : Identifier → Bool) :
    (env.forgetIf drop).Declared := declared.rewritten _

theorem Declared.renameKeys (declared : env.Declared) (f : Identifier → Option Identifier) :
    (env.renameKeys f).Declared := declared.rewritten _

variable [ValueDomain V]

theorem possiblePointwise {f : V → V → V}
    (possible : ∀ k, ValueDomain.isBottom (f (a.get k) (b.get k)) = false) :
    (pointwise f a b).isBottom = false := by
  rw [pointwise, isBottomOfTable, Bool.eq_false_iff]
  intro impossible
  obtain ⟨k, v, found, empty⟩ := Table.anyValueExact.mp impossible
  rw [Table.findTabulate] at found
  split at found <;> try contradiction
  cases Option.some.inj found
  rw [possible k] at empty
  contradiction

theorem declaredOfTable (table : Table V) : (ofTable table).Declared := by
  unfold ofTable
  split
  · exact declaredBottom
  · exact .inr rfl

theorem Declared.put (declared : env.Declared) (id : Identifier) (v : V) :
    (env.put id v).Declared := by
  unfold Environment.put
  split
  · exact declared
  · exact declaredOfTable _

theorem Declared.putOperand (declared : env.Declared) (e : Expr) (v : V) :
    (env.putOperand e v).Declared := by
  cases e with
  | identifier id => exact declared.put id v
  | _ => exact declared

theorem Declared.assign (declared : env.Declared) (ok : env.assign id e = .ok next) :
    next.Declared := by
  cases possible : env.isBottom with
  | true =>
    rw [Environment.assign, if_pos possible] at ok
    cases ok; exact declared
  | false =>
    obtain ⟨v, _, rfl⟩ := assignSource possible ok
    exact declared.put id v

theorem Declared.assume (declared : env.Declared) (ok : env.assume e = .ok next) :
    next.Declared := by
  cases assumed ok with
  | impossible => exact declaredBottom
  | kept => exact declared
  | refined => exact (declared.putOperand _ _).putOperand _ _

theorem Declared.outer (left : a.Declared) (right : b.Declared) (table : Table V) :
    (if a.isBottom then b else if b.isBottom then a else ofTable table).Declared := by
  split
  · exact right
  split
  · exact left
  · exact declaredOfTable table

theorem declaredInner (table : Table V) :
    (if a.isBottom || b.isBottom then bottom else ofTable table).Declared := by
  split
  · exact declaredBottom
  · exact declaredOfTable table

theorem Declared.combine (op : LatticeOp) (left : a.Declared) (right : b.Declared) :
    (a.combine op b).Declared :=
  match op with
  | .join => left.outer right _
  | .meet => declaredInner _
  | .widen => left.outer right _
  | .narrow => declaredInner _

def Full (env : Environment V) : Prop :=
  ∀ k v, env.table.find k = some v → ValueDomain.isBottom v = false

theorem fullOfTable (table : Table V) : (ofTable table).Full := by
  unfold ofTable
  split
  · exact nofun
  · rename_i possible
    intro k v found
    by_contra impossible
    exact possible (Table.anyValueExact.mpr ⟨k, v, found, Bool.not_eq_false _ ▸ impossible⟩)

variable [Membership Int V] [SoundDomain V]

structure Occupied (env : Environment V) : Prop where
  regular : env.Regular
  possible : ∀ k v, env.table.find k = some v → ValueDomain.isBottom v = false

theorem occupiedTop : (top : Environment V).Occupied := ⟨nofun, nofun⟩

theorem occupiedBottom : (bottom : Environment V).Occupied := ⟨nofun, nofun⟩

theorem occupiedOfTable {table : Table V}
    (regular : ∀ k v, table.find k = some v → SoundDomain.Regular v) :
    (ofTable table).Occupied := ⟨regularOfTable regular, fullOfTable table⟩

theorem Occupied.put {v : V} (occupied : env.Occupied) (value : SoundDomain.Regular v) :
    (env.put id v).Occupied := by
  unfold Environment.put
  split
  · exact occupied
  · exact occupiedOfTable (regularSet occupied.regular value)

theorem Occupied.putOperand {v : V} (occupied : env.Occupied) (value : SoundDomain.Regular v) :
    (env.putOperand e v).Occupied := by
  cases e with
  | identifier id => exact occupied.put value
  | _ => exact occupied

theorem Occupied.assign (occupied : env.Occupied) (ok : env.assign id e = .ok next) :
    next.Occupied := by
  cases possible : env.isBottom with
  | true =>
    rw [Environment.assign, if_pos possible] at ok
    cases ok; exact occupied
  | false =>
    obtain ⟨v, value, rfl⟩ := assignSource possible ok
    exact occupied.put (regularEval occupied.regular possible value)

theorem putPossible {v : V} (occupied : env.Occupied) (possible : env.isBottom = false)
    (full : ValueDomain.isBottom v = false) : (env.put id v).isBottom = false := by
  rw [put, if_neg (by simp [possible]), isBottomOfTable, Bool.eq_false_iff]
  intro impossible
  obtain ⟨k, w, found, empty⟩ := Table.anyValueExact.mp impossible
  rw [Table.findSet] at found
  split at found
  · cases Option.some.inj found
    exact Bool.eq_false_iff.mp full empty
  · exact Bool.eq_false_iff.mp (occupied.possible k w found) empty

theorem Assumed.occupied (occupied : env.Occupied) (outcome : Assumed env e next) :
    next.Occupied := by
  cases outcome with
  | impossible => exact occupiedBottom
  | kept => exact occupied
  | @refined actual l r v w possible _ evalLeft evalRight =>
    obtain ⟨left, right⟩ : SoundDomain.Regular (ValueDomain.refine actual v w).1 ∧
        SoundDomain.Regular (ValueDomain.refine actual v w).2 :=
      SoundDomain.regularRefine (regularEval occupied.regular possible evalLeft)
        (regularEval occupied.regular possible evalRight)
    exact (occupied.putOperand left).putOperand right

theorem Occupied.assume (occupied : env.Occupied) (ok : env.assume e = .ok next) :
    next.Occupied := (assumed ok).occupied occupied

theorem Occupied.kept {table : Table V} (occupied : env.Occupied)
    (known : ∀ k v, table.find k = some v → ∃ x, env.table.find x = some v) :
    (⟨.value, table⟩ : Environment V).Occupied := by
  constructor
  · intro k v found
    obtain ⟨x, stored⟩ := known k v found
    exact occupied.regular x v stored
  · intro k v found
    obtain ⟨x, stored⟩ := known k v found
    exact occupied.possible x v stored

theorem Occupied.filter (occupied : env.Occupied) (keep : Identifier → V → Bool) :
    (⟨.value, env.table.filter keep⟩ : Environment V).Occupied := by
  refine occupied.kept fun k v found => ⟨k, ?_⟩
  rw [Table.findFilter, Option.filter_eq_some_iff] at found
  exact found.1

theorem Occupied.forget (occupied : env.Occupied) (id : Identifier) :
    (env.forget id).Occupied := by
  unfold Environment.forget
  split
  · exact occupied
  · exact occupied.filter _

theorem Occupied.forgetIf (occupied : env.Occupied) (drop : Identifier → Bool) :
    (env.forgetIf drop).Occupied := by
  unfold Environment.forgetIf
  split
  · exact occupied
  · exact occupied.filter _

theorem Occupied.renameKeys (occupied : env.Occupied) (f : Identifier → Option Identifier) :
    (env.renameKeys f).Occupied := by
  unfold Environment.renameKeys
  split
  · exact occupied
  · refine occupied.kept fun k v found => ?_
    obtain ⟨x, _, stored⟩ := Table.renameKeysSource found
    exact ⟨x, stored⟩

theorem Occupied.get (occupied : env.Occupied) (possible : env.isBottom = false)
    (k : Identifier) : ValueDomain.isBottom (env.get k) = false := by
  simp only [Environment.get, possible, Bool.false_eq_true, if_false]
  cases found : env.table.find k with
  | some v => exact occupied.possible k v found
  | none => exact SoundDomain.possibleOfMember SoundDomain.regularTop (SoundDomain.memTop 0)

theorem Occupied.member (occupied : env.Occupied) (possible : env.isBottom = false)
    (k : Identifier) : ∃ n : Int, n ∈ env.get k :=
  SoundDomain.memberOfPossible (regularGet occupied.regular possible k) (occupied.get possible k)

section
variable {f : V → V → V} (left : a.Occupied) (right : b.Occupied)
  (regular : ∀ v w, SoundDomain.Regular v → SoundDomain.Regular w → SoundDomain.Regular (f v w))
include left right regular

theorem Occupied.pointwise (possible : a.isBottom = false) (possible' : b.isBottom = false) :
    (pointwise f a b).Occupied := by
  refine occupiedOfTable fun k v found => ?_
  rw [Table.findTabulate] at found
  split at found <;> try contradiction
  cases Option.some.inj found
  exact regular _ _ (regularGet left.regular possible k) (regularGet right.regular possible' k)

theorem Occupied.pointwisePossible (possible : a.isBottom = false) (possible' : b.isBottom = false)
    (grows : ∀ v w, SoundDomain.Regular v → SoundDomain.Regular w → ∀ n : Int, n ∈ v → n ∈ f v w) :
    (Environment.pointwise f a b).isBottom = false := by
  refine possiblePointwise fun k => ?_
  have first := regularGet left.regular possible k
  have second := regularGet right.regular possible' k
  obtain ⟨n, inside⟩ := left.member possible k
  exact SoundDomain.possibleOfMember (regular _ _ first second) (grows _ _ first second n inside)

theorem Occupied.outer :
    (if a.isBottom then b else if b.isBottom then a else Environment.pointwise f a b).Occupied := by
  split
  · exact right
  split
  · exact left
  · exact left.pointwise right regular (Bool.eq_false_iff.mpr ‹_›) (Bool.eq_false_iff.mpr ‹_›)

theorem Occupied.inner :
    (if a.isBottom || b.isBottom then bottom else Environment.pointwise f a b).Occupied := by
  split
  · exact occupiedBottom
  · rename_i possible
    simp only [Bool.or_eq_true, not_or, Bool.not_eq_true] at possible
    exact left.pointwise right regular possible.1 possible.2

theorem Occupied.isBottomOuter
    (grows : ∀ v w, SoundDomain.Regular v → SoundDomain.Regular w → ∀ n : Int, n ∈ v → n ∈ f v w) :
    (if a.isBottom then b else if b.isBottom then a else Environment.pointwise f a b).isBottom =
      (a.isBottom && b.isBottom) := by
  cases possible : a.isBottom with
  | true => rfl
  | false =>
  cases possible' : b.isBottom with
  | true => exact possible
  | false => exact left.pointwisePossible right regular possible possible' grows

end

theorem Occupied.join (left : a.Occupied) (right : b.Occupied) : (a.join b).Occupied :=
  left.outer right fun _ _ => SoundDomain.regularJoin

theorem Occupied.widen (left : a.Occupied) (right : b.Occupied) : (a.widen b).Occupied :=
  left.outer right fun _ _ => SoundDomain.regularWiden

theorem Occupied.meet (left : a.Occupied) (right : b.Occupied) : (a.meet b).Occupied :=
  left.inner right fun _ _ => SoundDomain.regularMeet

theorem Occupied.narrow (left : a.Occupied) (right : b.Occupied) : (a.narrow b).Occupied :=
  left.inner right fun _ _ => SoundDomain.regularNarrow

theorem Occupied.combine (op : LatticeOp) (left : a.Occupied) (right : b.Occupied) :
    (a.combine op b).Occupied :=
  match op with
  | .join => left.join right
  | .meet => left.meet right
  | .widen => left.widen right
  | .narrow => left.narrow right

theorem isBottomJoin (left : a.Occupied) (right : b.Occupied) :
    (a.join b).isBottom = (a.isBottom && b.isBottom) :=
  left.isBottomOuter right (fun _ _ => SoundDomain.regularJoin)
    fun _ _ first second _ inside => SoundDomain.joinSound first second (.inl inside)

theorem isBottomWiden (left : a.Occupied) (right : b.Occupied) :
    (a.widen b).isBottom = (a.isBottom && b.isBottom) :=
  left.isBottomOuter right (fun _ _ => SoundDomain.regularWiden)
    fun _ _ first second _ inside => SoundDomain.widenSound first second (.inl inside)

end Abstraction.Environment
