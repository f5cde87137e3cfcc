import Abstraction.State.Reach
import Abstraction.Program.Shape
import Abstraction.Verdict

/-! Strict upper bounds: for each identifier a set of identifiers known to be greater. Empty sets are
not stored, and the impossible state stores nothing. Operations keep the relation transitive, so
that a cycle shows as soon as it closes. -/
namespace Abstraction

structure UpperBounds where
  kind : Kind
  table : Table Names

namespace UpperBounds

def ofTable (kind : Kind) (table : Table Names) : UpperBounds :=
  if kind = .bottom then ⟨.bottom, ∅⟩
  else ⟨kind, table.filter fun _ above => !above.isEmpty⟩

def top : UpperBounds := ⟨.value, ∅⟩

def bottom : UpperBounds := ⟨.bottom, ∅⟩

def isTop (b : UpperBounds) : Bool := b.kind == .value && b.table.isEmpty

def isBottom (b : UpperBounds) : Bool := b.kind == .bottom

def get (b : UpperBounds) (id : Identifier) : Names := Reach.successors b.table id

theorem memGetOfTable {kind : Kind} {table : Table Names} (possible : kind ≠ .bottom)
    {x y : Identifier} : y ∈ (ofTable kind table).get x ↔ Reach.Edge table x y := by
  rw [ofTable, if_neg possible]
  change Reach.Edge (table.filter fun _ above => !above.isEmpty) x y ↔ _
  rw [Reach.edgeExact, Reach.edgeExact]
  simp only [Table.findFilter, Option.filter_eq_some_iff]
  constructor
  · rintro ⟨above, ⟨found, _⟩, inside⟩
    exact ⟨above, found, inside⟩
  · rintro ⟨above, found, inside⟩
    refine ⟨above, ⟨found, ?_⟩, inside⟩
    cases empty : above.isEmpty with
    | false => rfl
    | true => exact absurd inside (Names.isEmptyExact.mp empty y)

def keys (b : UpperBounds) : List Identifier := b.table.keys

def put (b : UpperBounds) (id : Identifier) (above : Names) : UpperBounds :=
  if b.isBottom then b else ofTable .value (b.table.set id above)

theorem memGetPut {b : UpperBounds} (possible : b.isBottom = false) {id x y : Identifier}
    {above : Names} : y ∈ (b.put id above).get x ↔ if x = id then y ∈ above else y ∈ b.get x := by
  rw [put, if_neg (by simp [possible]), memGetOfTable (by decide), Reach.edgeSet]
  exact Iff.rfl

def knows (b : UpperBounds) (id : Identifier) : Bool :=
  b.table.contains id || b.table.anyValue fun above => decide (id ∈ above)

def same (a b : UpperBounds) : Bool := a.kind == b.kind && a.table.same b.table

def leq (a b : UpperBounds) : Bool :=
  if a.isBottom then true
  else if b.isBottom then false
  else b.table.entries.all fun (x, above) => above.subset (a.get x)

def join (a b : UpperBounds) : UpperBounds :=
  if a.isBottom then b
  else if b.isBottom then a
  else ofTable .value (a.table.mapValues fun x above => above.inter (b.get x))

def meet (a b : UpperBounds) : UpperBounds :=
  if a.isBottom || b.isBottom then bottom
  else
    match Reach.close (Table.tabulate (a.table.keysOfBoth b.table) (Table.keysOfBothDistinct _ _)
      fun x => (a.get x).union (b.get x)) with
    | some closed => ofTable .value closed
    | none => bottom

def widen (a b : UpperBounds) : UpperBounds :=
  if a.isBottom then b
  else if b.isBottom then a
  else ofTable .value (a.table.filter fun x above => above.subset (b.get x))

def narrow (a b : UpperBounds) : UpperBounds :=
  if a.isBottom || b.isBottom then bottom
  else if a.isTop then b
  else a

def rename (b : UpperBounds) (f : Identifier → Option Identifier) : UpperBounds :=
  if b.isBottom then b
  else ofTable .value ((b.table.mapValues fun _ above => above.rename f).renameKeys f)

def forgetIf (b : UpperBounds) (drop : Identifier → Bool) : UpperBounds :=
  b.rename fun id => if drop id then none else some id

def forget (b : UpperBounds) (id : Identifier) : UpperBounds :=
  b.forgetIf fun i => decide (i = id)

def pushScope (b : UpperBounds) (token : ScopeToken) : UpperBounds :=
  b.rename fun id => some (id.hide token)

def popScope (b : UpperBounds) (token : ScopeToken) : UpperBounds :=
  b.rename fun id => id.leave token

def below (b : UpperBounds) (id : Identifier) : Names :=
  Names.ofList ((b.table.filter fun _ above => decide (id ∈ above)).keys)

theorem memBelow {b : UpperBounds} {x id : Identifier} : x ∈ b.below id ↔ id ∈ b.get x := by
  rw [below, Names.memOfList, get, Reach.successors]
  simp only [Table.keys, List.mem_map, Prod.exists, exists_and_right, exists_eq_right,
    ← Table.findExact, Table.findFilter, Option.filter_eq_some_iff, decide_eq_true_eq]
  cases found : b.table.find x with
  | none => simp [Names.notMemEmpty]
  | some above => simp

def addBounds (table : Table Names) (lower : List Identifier) (gained : Names) : Table Names :=
  lower.foldl (fun t x => t.set x ((Reach.successors t x).union gained)) table

def addAbove (b : UpperBounds) (lower : Names) (upper : Identifier) : UpperBounds :=
  if b.isBottom then b
  else ofTable .value (addBounds b.table (lower.erase upper).members (Names.single upper))

def assign (b : UpperBounds) (id : Identifier) (e : Expr) : UpperBounds :=
  if b.isBottom || e == .identifier id then b
  else
    let cleared := b.forget id
    match e with
    | .identifier y => (cleared.addAbove (b.below y) id).put id ((b.get y).erase id)
    | _ =>
      match e.shift with
      | none => cleared
      | some ⟨source, rising⟩ =>
          if source = id then
            if rising then cleared.addAbove (b.below id) id else cleared.put id (b.get id)
          else if rising then cleared.addAbove ((b.below source).insert source) id
          else cleared.put id (((b.get source).insert source).erase id)

def assume (b : UpperBounds) (e : Expr) : UpperBounds :=
  if b.isBottom then b
  else
    match e.strictOrder with
    | none => b
    | some (lower, upper) =>
        if lower = upper ∨ lower ∈ b.get upper then bottom
        else
          ofTable .value (addBounds b.table ((b.below lower).insert lower).members
            ((b.get upper).insert upper))

/-- Whether `x` is less than `y`, or at most `y`: the recorded bounds know no difference. -/
def orderVerdict (b : UpperBounds) (x y : Identifier) : Verdict :=
  if y ∈ b.get x then .holds else if x ∈ b.get y then .fails else .unknown

def equalVerdict (b : UpperBounds) (x y : Identifier) : Verdict :=
  if y ∈ b.get x ∨ x ∈ b.get y then .fails else .unknown

def compare (b : UpperBounds) (op : Operator) (x y : Identifier) : Verdict :=
  match op with
  | .lt | .le => b.orderVerdict x y
  | .gt | .ge => b.orderVerdict y x
  | .eq => b.equalVerdict x y
  | .ne => (b.equalVerdict x y).negate
  | _ => .unknown

def satisfies (b : UpperBounds) (e : Expr) : Verdict :=
  if b.isBottom then .contradiction
  else
    match e.comparison with
    | none => .unknown
    | some c =>
        let verdict := b.compare c.op c.left c.right
        if c.negated then verdict.negate else verdict

def renderNames (s : Names) : String :=
  if s.isEmpty then topText else "\x7b" ++ ", ".intercalate s.texts ++ "\x7d"

def renderBounds (b : UpperBounds) (id : Identifier) : String :=
  if b.isBottom then bottomText else renderNames (b.get id)

def render (b : UpperBounds) : String :=
  if b.isBottom then bottomText
  else if b.isTop then topText
  else
    let entries := b.table.sorted.map fun (x, above) => x.render ++ ": " ++ renderNames above
    "\x7b" ++ ", ".intercalate entries ++ "\x7d"

def describe (b : UpperBounds) : String := "StrictUpperBounds(" ++ b.render ++ ")"

end UpperBounds
end Abstraction
