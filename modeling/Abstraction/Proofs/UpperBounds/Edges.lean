import Abstraction.State.UpperBounds
import Abstraction.Proofs.Table

/-! The bounds that each operation records, one equation per operation. Bounds are seen as the edges
of a relation: `y ∈ b.get x` records that `x` is below `y`. Soundness and order are both derived
from these equations. -/
namespace Abstraction.UpperBounds

variable {a b : UpperBounds} {id x y : Identifier}

theorem possibleOfTable (table : Table Names) : (ofTable .value table).isBottom = false := rfl

theorem isBottomRebuilt (b : UpperBounds) (table : Table Names) :
    (if b.isBottom then b else ofTable .value table).isBottom = b.isBottom := by
  split
  · rfl
  · rename_i possible; exact (Bool.eq_false_iff.mpr possible).symm

theorem isBottomMerged (a b : UpperBounds) (table : Table Names) :
    (if a.isBottom then b else if b.isBottom then a else ofTable .value table).isBottom =
      (a.isBottom && b.isBottom) := by
  cases possible : a.isBottom with
  | true => rfl
  | false =>
  cases b.isBottom with
  | true => exact possible
  | false => rfl

theorem memGetRename {f : Identifier → Option Identifier} (possible : b.isBottom = false)
    (apart : b.table.ApartOn f) :
    y ∈ (b.rename f).get x ↔ ∃ i j, f i = some x ∧ f j = some y ∧ j ∈ b.get i := by
  have renamed : (b.table.mapValues fun _ above => above.rename f).ApartOn f := by
    rwa [Table.ApartOn, Table.keysMapValues]
  rw [rename, if_neg (by simp [possible]), memGetOfTable (by decide), Reach.edgeExact]
  simp only [Table.findRenameKeys renamed, Table.findMapValues, Option.map_eq_some_iff]
  constructor
  · intro known
    obtain ⟨_, ⟨i, first, above, found, rfl⟩, inside⟩ := known
    obtain ⟨j, member, second⟩ := Names.memRename.mp inside
    exact ⟨i, j, first, second, Reach.edgeExact.mpr ⟨above, found, member⟩⟩
  · intro known
    obtain ⟨i, j, first, second, edge⟩ := known
    obtain ⟨above, found, member⟩ := Reach.edgeExact.mp edge
    exact ⟨_, ⟨i, first, above, found, rfl⟩, Names.memRename.mpr ⟨j, member, second⟩⟩

theorem isBottomRename (b : UpperBounds) (f : Identifier → Option Identifier) :
    (b.rename f).isBottom = b.isBottom := isBottomRebuilt b _

theorem keptExact {drop : Identifier → Bool} {i k : Identifier} :
    (if drop i then none else some i) = some k ↔ drop i = false ∧ i = k := by
  cases drop i <;> simp

theorem apartForget (drop : Identifier → Bool) :
    Table.Apart fun i => if drop i then none else some i :=
  fun _ _ _ first second => (keptExact.mp first).2.trans (keptExact.mp second).2.symm

theorem memGetForgetIf {drop : Identifier → Bool} (possible : b.isBottom = false) :
    y ∈ (b.forgetIf drop).get x ↔ drop x = false ∧ drop y = false ∧ y ∈ b.get x := by
  rw [forgetIf, memGetRename possible ((apartForget drop).on b.table)]
  simp only [keptExact]
  constructor
  · intro known
    obtain ⟨i, j, ⟨keepLeft, rfl⟩, ⟨keepRight, rfl⟩, edge⟩ := known
    exact ⟨keepLeft, keepRight, edge⟩
  · intro known
    obtain ⟨keepLeft, keepRight, edge⟩ := known
    exact ⟨x, y, ⟨keepLeft, rfl⟩, ⟨keepRight, rfl⟩, edge⟩

theorem memGetForget (possible : b.isBottom = false) :
    y ∈ (b.forget id).get x ↔ x ≠ id ∧ y ≠ id ∧ y ∈ b.get x := by
  rw [forget, memGetForgetIf possible]
  simp

theorem edgeAddBounds {table : Table Names} {lower : List Identifier} {gained : Names} :
    Reach.Edge (addBounds table lower gained) x y ↔
      Reach.Edge table x y ∨ (x ∈ lower ∧ y ∈ gained) := by
  unfold addBounds
  induction lower generalizing table with
  | nil => simp
  | cons head rest ih =>
    rw [List.foldl_cons, ih, Reach.edgeSet, List.mem_cons]
    by_cases same : x = head
    · subst same
      rw [if_pos rfl, Names.memUnion]
      change (Reach.Edge table x y ∨ y ∈ gained) ∨ _ ↔ _
      simp only [true_or, true_and]
      exact ⟨fun h => h.elim id fun h => Or.inr h.2, Or.inl⟩
    · simp [same]

theorem memGetAddAbove {lower : Names} (possible : b.isBottom = false) :
    y ∈ (b.addAbove lower id).get x ↔ y ∈ b.get x ∨ (x ≠ id ∧ y = id ∧ x ∈ lower) := by
  rw [addAbove, if_neg (by simp [possible]), memGetOfTable (by decide), edgeAddBounds]
  change y ∈ b.get x ∨ (x ∈ lower.erase id ∧ y ∈ Names.single id) ↔ _
  rw [Names.memErase, Names.memSingle]
  exact or_congr_right ⟨fun h => ⟨h.1.2, h.2, h.1.1⟩, fun h => ⟨⟨h.2.2, h.1⟩, h.2.1⟩⟩

theorem isBottomAddAbove (b : UpperBounds) (lower : Names) (id : Identifier) :
    (b.addAbove lower id).isBottom = b.isBottom := isBottomRebuilt b _

theorem isBottomPut (b : UpperBounds) (id : Identifier) (above : Names) :
    (b.put id above).isBottom = b.isBottom := isBottomRebuilt b _

/-- All facts about `id` are replaced: it is put above the identifiers of `lower` and below those of
`upper`, and every other bound stays. -/
structure Placed (b : UpperBounds) (id : Identifier) (lower upper : Identifier → Prop)
    (next : UpperBounds) : Prop where
  possible : next.isBottom = false
  edges : ∀ x y, y ∈ next.get x ↔
    (x ≠ id ∧ y ≠ id ∧ y ∈ b.get x) ∨ (x ≠ id ∧ y = id ∧ lower x) ∨ (x = id ∧ upper y)

def nowhere (_ : Identifier) : Prop := False

theorem placedForget (possible : b.isBottom = false) :
    Placed b id nowhere nowhere (b.forget id) :=
  ⟨(isBottomRename b _).trans possible,
    fun x y => by rw [memGetForget possible]; simp [nowhere]⟩

theorem Placed.addAbove {upper : Identifier → Prop} {next : UpperBounds} {lower : Names}
    (placed : Placed b id nowhere upper next) :
    Placed b id (· ∈ lower) upper (next.addAbove lower id) := by
  refine ⟨(isBottomAddAbove _ _ _).trans placed.possible, fun x y => ?_⟩
  rw [memGetAddAbove placed.possible, placed.edges]
  simp only [nowhere, and_false, false_or]
  constructor
  · intro known
    rcases known with (kept | up) | gained
    · exact Or.inl kept
    · exact Or.inr (Or.inr up)
    · exact Or.inr (Or.inl gained)
  · intro known
    rcases known with kept | gained | up
    · exact Or.inl (Or.inl kept)
    · exact Or.inr gained
    · exact Or.inl (Or.inr up)

theorem Placed.put {lower upper : Identifier → Prop} {next : UpperBounds} {above : Names}
    (placed : Placed b id lower upper next) :
    Placed b id lower (· ∈ above) (next.put id above) := by
  refine ⟨(isBottomPut _ _ _).trans placed.possible, fun x y => ?_⟩
  rw [memGetPut placed.possible]
  by_cases same : x = id
  · simp [same]
  · rw [if_neg same, placed.edges]
    simp [same]

theorem Placed.congr {lower upper lower' upper' : Identifier → Prop} {next : UpperBounds}
    (placed : Placed b id lower upper next) (low : ∀ x, lower x ↔ lower' x)
    (high : ∀ x, upper x ↔ upper' x) : Placed b id lower' upper' next := by
  refine ⟨placed.possible, fun x y => ?_⟩
  rw [placed.edges, low, high]

inductive Placement (b : UpperBounds) (id : Identifier) :
    Expr → (Identifier → Prop) → (Identifier → Prop) → Prop where
  | copied {y : Identifier} (other : y ≠ id) :
      Placement b id (.identifier y) (y ∈ b.get ·) (fun z => z ∈ b.get y ∧ z ≠ id)
  | raised {c : Int} (positive : 0 < c) :
      Placement b id (.binary .add (.identifier id) (.constant (.number (.int c))))
        (id ∈ b.get ·) nowhere
  | lowered {c : Int} (positive : 0 < c) :
      Placement b id (.binary .sub (.identifier id) (.constant (.number (.int c))))
        nowhere (· ∈ b.get id)
  | above {y : Identifier} {c : Int} (positive : 0 < c) (other : y ≠ id) :
      Placement b id (.binary .add (.identifier y) (.constant (.number (.int c))))
        (fun x => y ∈ b.get x ∨ x = y) nowhere
  | beneath {y : Identifier} {c : Int} (positive : 0 < c) (other : y ≠ id) :
      Placement b id (.binary .sub (.identifier y) (.constant (.number (.int c))))
        nowhere (fun z => (z ∈ b.get y ∨ z = y) ∧ z ≠ id)
  | unknown (e : Expr) : Placement b id e nowhere nowhere

theorem assignOwn : b.assign id (.identifier id) = b := by
  rw [assign, if_pos (by simp)]

theorem assignDifference {m n : Identifier} :
    b.assign id (.binary .sub (.identifier m) (.identifier n)) = b.forget id := by
  cases possible : b.isBottom with
  | true => simp [assign, forget, forgetIf, rename, possible]
  | false => simp [assign, Expr.shift, Expr.integer, possible]

theorem assignPlaced (possible : b.isBottom = false) {e : Expr} (other : e ≠ .identifier id) :
    ∃ lower upper, Placement b id e lower upper ∧ Placed b id lower upper (b.assign id e) := by
  have cleared : Placed b id nowhere nowhere (b.forget id) := placedForget possible
  rw [assign, if_neg (by simp [possible, other])]
  dsimp only
  split
  · rename_i y
    refine ⟨_, _, .copied fun same => other (by rw [same]), ?_⟩
    exact cleared.addAbove.put.congr (fun _ => memBelow) fun _ => Names.memErase
  · cases found : e.shift with
    | none => exact ⟨_, _, .unknown e, cleared⟩
    | some shift =>
      obtain ⟨source, rising⟩ := shift
      obtain ⟨c, positive, rfl⟩ := Expr.shiftExact.mp found
      dsimp only
      by_cases own : source = id
      · subst own
        rw [if_pos rfl]
        cases rising with
        | true => exact ⟨_, _, .raised positive, cleared.addAbove.congr (fun _ => memBelow)
            fun _ => Iff.rfl⟩
        | false => exact ⟨_, _, .lowered positive, cleared.put⟩
      · rw [if_neg own]
        cases rising with
        | true =>
          refine ⟨_, _, .above positive own, cleared.addAbove.congr (fun x => ?_) fun _ => Iff.rfl⟩
          rw [Names.memInsert, memBelow]
        | false =>
          refine ⟨_, _, .beneath positive own, cleared.put.congr (fun _ => Iff.rfl) fun z => ?_⟩
          rw [Names.memErase, Names.memInsert]

/-- What assuming a guard can do: nothing, refute it, or add every bound that follows from the
order it states. -/
inductive Assumed (b : UpperBounds) : Expr → UpperBounds → Prop where
  | unordered {e : Expr} (shape : e.strictOrder = none) : Assumed b e b
  | cyclic {e : Expr} {lower upper : Identifier} (shape : e.strictOrder = some (lower, upper))
      (cycle : lower = upper ∨ lower ∈ b.get upper) : Assumed b e bottom
  | added {e : Expr} {lower upper : Identifier} {next : UpperBounds}
      (shape : e.strictOrder = some (lower, upper)) (distinct : lower ≠ upper)
      (fresh : lower ∉ b.get upper) (possible : next.isBottom = false)
      (edges : ∀ x y, y ∈ next.get x ↔ y ∈ b.get x ∨
        ((lower ∈ b.get x ∨ x = lower) ∧ (y ∈ b.get upper ∨ y = upper))) : Assumed b e next

theorem assumed (possible : b.isBottom = false) (e : Expr) : Assumed b e (b.assume e) := by
  rw [assume, if_neg (by simp [possible])]
  cases shape : e.strictOrder with
  | none => exact .unordered shape
  | some pair =>
    obtain ⟨lower, upper⟩ := pair
    dsimp only
    split
    · rename_i cycle
      exact .cyclic shape cycle
    · rename_i acyclic
      obtain ⟨distinct, fresh⟩ := not_or.mp acyclic
      refine .added shape distinct fresh (possibleOfTable _) fun x y => ?_
      rw [memGetOfTable (by decide), edgeAddBounds]
      change y ∈ b.get x ∨ (x ∈ (b.below lower).insert lower ∧ y ∈ (b.get upper).insert upper) ↔ _
      rw [Names.memInsert, Names.memInsert, memBelow]

theorem memGetJoin (left : a.isBottom = false) (right : b.isBottom = false) :
    y ∈ (a.join b).get x ↔ y ∈ a.get x ∧ y ∈ b.get x := by
  rw [join, if_neg (by simp [left]), if_neg (by simp [right]), memGetOfTable (by decide),
    Reach.edgeExact]
  simp only [Table.findMapValues, Option.map_eq_some_iff]
  constructor
  · intro known
    obtain ⟨_, ⟨above, found, rfl⟩, inside⟩ := known
    obtain ⟨first, second⟩ := Names.memInter.mp inside
    exact ⟨Reach.edgeExact.mpr ⟨above, found, first⟩, second⟩
  · intro known
    obtain ⟨first, second⟩ := known
    obtain ⟨above, found, member⟩ := Reach.edgeExact.mp first
    exact ⟨_, ⟨above, found, rfl⟩, Names.memInter.mpr ⟨member, second⟩⟩

theorem isBottomJoin (a b : UpperBounds) : (a.join b).isBottom = (a.isBottom && b.isBottom) :=
  isBottomMerged a b _

theorem isBottomWiden (a b : UpperBounds) : (a.widen b).isBottom = (a.isBottom && b.isBottom) :=
  isBottomMerged a b _

theorem memGetWiden (left : a.isBottom = false) (right : b.isBottom = false) :
    y ∈ (a.widen b).get x ↔ y ∈ a.get x ∧ ∀ z ∈ a.get x, z ∈ b.get x := by
  rw [widen, if_neg (by simp [left]), if_neg (by simp [right]), memGetOfTable (by decide),
    Reach.edgeExact]
  simp only [Table.findFilter, Option.filter_eq_some_iff, Names.subsetExact]
  constructor
  · intro known
    obtain ⟨above, ⟨found, kept⟩, inside⟩ := known
    refine ⟨Reach.edgeExact.mpr ⟨above, found, inside⟩, fun z member => kept z ?_⟩
    obtain ⟨other, again, member⟩ := Reach.edgeExact.mp member
    rwa [Option.some.inj (found.symm.trans again)]
  · intro known
    obtain ⟨edge, kept⟩ := known
    obtain ⟨above, found, inside⟩ := Reach.edgeExact.mp edge
    exact ⟨above, ⟨found, fun z member => kept z (Reach.edgeExact.mpr ⟨above, found, member⟩)⟩,
      inside⟩

theorem leqExact : a.leq b = true ↔ a.isBottom = true ∨
    (b.isBottom = false ∧ ∀ x y, y ∈ b.get x → y ∈ a.get x) := by
  unfold leq
  split
  · rename_i impossible
    exact iff_of_true rfl (.inl impossible)
  rename_i possible
  split
  · rename_i impossible
    simp [possible, impossible]
  rename_i possible'
  rw [List.all_eq_true]
  constructor
  · intro all
    refine .inr ⟨Bool.eq_false_iff.mpr possible', fun x y bound => ?_⟩
    obtain ⟨above, found, member⟩ := Reach.edgeExact.mp bound
    exact Names.subsetExact.mp (all (x, above) (Table.findExact.mp found)) y member
  · intro known entry stored
    refine Names.subsetExact.mpr fun y member => ?_
    exact (known.resolve_left possible).2 entry.1 y
      (Reach.edgeExact.mpr ⟨entry.2, Table.findExact.mpr stored, member⟩)

end Abstraction.UpperBounds
