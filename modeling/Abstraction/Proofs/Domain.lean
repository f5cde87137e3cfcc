import Abstraction.Value.Domain
import Abstraction.Proofs.Concrete

/-! The laws under which a domain of values makes sound environments: each operation is set against
the integers that its values stand for. The laws may be restricted to the values that a domain
computes, which its operations then have to keep. -/
namespace Abstraction

class SoundDomain (V : Type) [ValueDomain V] [Membership Int V] where
  Regular : V → Prop
  memTop (n : Int) : n ∈ (ValueDomain.top : V)
  regularTop : Regular ValueDomain.top
  isBottomExact {v : V} (regular : Regular v) :
    ValueDomain.isBottom v = true ↔ ∀ n : Int, n ∉ v
  leqSound {v w : V} (order : ValueDomain.leq v w = true) {n : Int} (inside : n ∈ v) : n ∈ w
  joinSound {v w : V} (left : Regular v) (right : Regular w) {n : Int} (inside : n ∈ v ∨ n ∈ w) :
    n ∈ ValueDomain.join v w
  widenSound {v w : V} (left : Regular v) (right : Regular w) {n : Int} (inside : n ∈ v ∨ n ∈ w) :
    n ∈ ValueDomain.widen v w
  regularJoin {v w : V} (left : Regular v) (right : Regular w) : Regular (ValueDomain.join v w)
  regularMeet {v w : V} (left : Regular v) (right : Regular w) : Regular (ValueDomain.meet v w)
  regularWiden {v w : V} (left : Regular v) (right : Regular w) : Regular (ValueDomain.widen v w)
  regularNarrow {v w : V} (left : Regular v) (right : Regular w) :
    Regular (ValueDomain.narrow v w)
  constantSound {c : Constant} {n : Int} (known : ∀ m, c.integer = some m → n = m) :
    n ∈ (ValueDomain.evalConstant c : V)
  regularConstant (c : Constant) : Regular (ValueDomain.evalConstant c)
  unarySound {op : Operator} {v : V} (regular : Regular v) {m n : Int} (inside : m ∈ v)
    (yields : op.YieldsOf m n) : n ∈ ValueDomain.evalUnary op v
  regularUnary {op : Operator} {v : V} (regular : Regular v) : Regular (ValueDomain.evalUnary op v)
  binarySound {op : Operator} {v w r : V} (left : Regular v) (right : Regular w)
    (ok : ValueDomain.evalBinary op v w = .ok r) {m k n : Int} (first : m ∈ v) (second : k ∈ w)
    (yields : op.Yields m k n) : n ∈ r
  regularBinary {op : Operator} {v w r : V} (left : Regular v) (right : Regular w)
    (ok : ValueDomain.evalBinary op v w = .ok r) : Regular r
  compareSound {op : Operator} (comparison : op.isComparison = true) {v w : V} (left : Regular v)
    (right : Regular w) {m k : Int} (first : m ∈ v) (second : k ∈ w) :
    (ValueDomain.compare op v w).Admits (op.holds m k)
  refineSound {op : Operator} (comparison : op.isComparison = true) {v w : V} (left : Regular v)
    (right : Regular w) {m k : Int} (first : m ∈ v) (second : k ∈ w)
    (holds : op.holds m k = true) :
    m ∈ (ValueDomain.refine op v w).1 ∧ k ∈ (ValueDomain.refine op v w).2
  regularRefine {op : Operator} {v w : V} (left : Regular v) (right : Regular w) :
    Regular (ValueDomain.refine op v w).1 ∧ Regular (ValueDomain.refine op v w).2

theorem SoundDomain.possibleOfMember {V : Type} [ValueDomain V] [Membership Int V] [SoundDomain V]
    {v : V} {n : Int} (regular : Regular v) (inside : n ∈ v) : ValueDomain.isBottom v = false :=
  Bool.eq_false_iff.mpr fun empty => (isBottomExact regular).mp empty n inside

theorem SoundDomain.memberOfPossible {V : Type} [ValueDomain V] [Membership Int V] [SoundDomain V]
    {v : V} (regular : Regular v) (possible : ValueDomain.isBottom v = false) :
    ∃ n : Int, n ∈ v := by
  by_contra memberless
  rw [(isBottomExact regular).mpr (not_exists.mp memberless)] at possible
  contradiction

/-- The laws of a domain whose regular values are known by their members: the order is inclusion, the
meet is the intersection, the join has no more than any upper bound, narrowing stays between its
operands and refinement below them. -/
class ExactDomain (V : Type) [ValueDomain V] [Membership Int V] [SoundDomain V] : Prop where
  ext {v w : V} (left : SoundDomain.Regular v) (right : SoundDomain.Regular w)
    (same : ∀ n : Int, n ∈ v ↔ n ∈ w) : v = w
  leqComplete {v w : V} (left : SoundDomain.Regular v) (right : SoundDomain.Regular w)
    (included : ∀ n : Int, n ∈ v → n ∈ w) : ValueDomain.leq v w = true
  memMeet {v w : V} (left : SoundDomain.Regular v) (right : SoundDomain.Regular w) {n : Int} :
    n ∈ ValueDomain.meet v w ↔ n ∈ v ∧ n ∈ w
  joinLeast {u v w : V} (upper : SoundDomain.Regular u) (left : SoundDomain.Regular v)
    (right : SoundDomain.Regular w) (first : ∀ n : Int, n ∈ v → n ∈ u)
    (second : ∀ n : Int, n ∈ w → n ∈ u) {n : Int} (inside : n ∈ ValueDomain.join v w) : n ∈ u
  narrowAbove {v w : V} (left : SoundDomain.Regular v) (right : SoundDomain.Regular w) {n : Int}
    (first : n ∈ v) (second : n ∈ w) : n ∈ ValueDomain.narrow v w
  narrowBelow {v w : V} (left : SoundDomain.Regular v) (right : SoundDomain.Regular w)
    (included : ∀ n : Int, n ∈ w → n ∈ v) {n : Int} (inside : n ∈ ValueDomain.narrow v w) : n ∈ v
  refineBelow {op : Operator} {v w : V} (left : SoundDomain.Regular v)
    (right : SoundDomain.Regular w) {n : Int} :
    (n ∈ (ValueDomain.refine op v w).1 → n ∈ v) ∧ (n ∈ (ValueDomain.refine op v w).2 → n ∈ w)

namespace ExactDomain
open SoundDomain (Regular)

variable {V : Type} [ValueDomain V] [Membership Int V] [SoundDomain V] [ExactDomain V] {v w : V}

theorem leqRefl (regular : Regular v) : ValueDomain.leq v v = true :=
  leqComplete regular regular fun _ => id

theorem eqTop (regular : Regular v) (members : ∀ n : Int, n ∈ v) : v = ValueDomain.top :=
  ext regular SoundDomain.regularTop fun n => iff_of_true (members n) (SoundDomain.memTop n)

theorem joinComm (left : Regular v) (right : Regular w) :
    ValueDomain.join v w = ValueDomain.join w v := by
  have included {v w : V} (left : Regular v) (right : Regular w) (n : Int)
      (inside : n ∈ ValueDomain.join v w) : n ∈ ValueDomain.join w v :=
    joinLeast (SoundDomain.regularJoin right left) left right
      (fun _ member => SoundDomain.joinSound right left (.inr member))
      (fun _ member => SoundDomain.joinSound right left (.inl member)) inside
  exact ext (SoundDomain.regularJoin left right) (SoundDomain.regularJoin right left)
    fun n => ⟨included left right n, included right left n⟩

theorem joinAssoc {u : V} (first : Regular u) (second : Regular v) (third : Regular w) :
    ValueDomain.join (ValueDomain.join u v) w = ValueDomain.join u (ValueDomain.join v w) := by
  have inner := SoundDomain.regularJoin first second
  have outer := SoundDomain.regularJoin second third
  have left := SoundDomain.regularJoin inner third
  have right := SoundDomain.regularJoin first outer
  refine ext left right fun n => ⟨fun inside => ?_, fun inside => ?_⟩
  · refine joinLeast right inner third (fun n inside => ?_) (fun n inside => ?_) inside
    · exact joinLeast right first second
        (fun _ member => SoundDomain.joinSound first outer (.inl member))
        (fun _ member => SoundDomain.joinSound first outer
          (.inr (SoundDomain.joinSound second third (.inl member)))) inside
    · exact SoundDomain.joinSound first outer (.inr (SoundDomain.joinSound second third (.inr inside)))
  · refine joinLeast left first outer (fun n inside => ?_) (fun n inside => ?_) inside
    · exact SoundDomain.joinSound inner third (.inl (SoundDomain.joinSound first second (.inl inside)))
    · exact joinLeast left second third
        (fun _ member => SoundDomain.joinSound inner third
          (.inl (SoundDomain.joinSound first second (.inr member))))
        (fun _ member => SoundDomain.joinSound inner third (.inr member)) inside

end ExactDomain

structure SoundDomain.Included {V : Type} [ValueDomain V] [Membership Int V] [SoundDomain V]
    (v w : V) : Prop where
  left : Regular v
  right : Regular w
  members : ∀ n : Int, n ∈ v → n ∈ w

theorem SoundDomain.Included.possible {V : Type} [ValueDomain V] [Membership Int V] [SoundDomain V]
    {v w : V} (below : Included v w) (possible : ValueDomain.isBottom v = false) :
    ValueDomain.isBottom w = false := by
  refine Bool.eq_false_iff.mpr fun empty => Bool.eq_false_iff.mp possible ?_
  exact (isBottomExact below.left).mpr fun n inside =>
    (isBottomExact below.right).mp empty n (below.members n inside)

theorem ExactDomain.refineIncluded {V : Type} [ValueDomain V] [Membership Int V] [SoundDomain V]
    [ExactDomain V] {op : Operator} {v w : V} (left : SoundDomain.Regular v)
    (right : SoundDomain.Regular w) :
    SoundDomain.Included (ValueDomain.refine op v w).1 v ∧
      SoundDomain.Included (ValueDomain.refine op v w).2 w :=
  ⟨⟨(SoundDomain.regularRefine left right).1, left, fun _ => (refineBelow left right).1⟩,
    (SoundDomain.regularRefine left right).2, right, fun _ => (refineBelow left right).2⟩

/-- The laws of a domain whose operations keep inclusion. A comparison is undecided exactly over an
impossible operand, or where some members satisfy it and some do not. -/
class MonotoneDomain (V : Type) [ValueDomain V] [Membership Int V] [SoundDomain V] : Prop where
  leqBottom (v : V) : ValueDomain.leq ValueDomain.bottom v = true
  unaryMono {op : Operator} {v v' : V} (below : SoundDomain.Included v v') {n : Int}
    (inside : n ∈ ValueDomain.evalUnary op v) : n ∈ ValueDomain.evalUnary op v'
  binaryMono {op : Operator} {v v' w w' r r' : V} (first : SoundDomain.Included v v')
    (second : SoundDomain.Included w w') (ok : ValueDomain.evalBinary op v w = .ok r)
    (ok' : ValueDomain.evalBinary op v' w' = .ok r') {n : Int} (inside : n ∈ r) : n ∈ r'
  compareBottom {op : Operator} {v w : V}
    (impossible : ValueDomain.isBottom v = true ∨ ValueDomain.isBottom w = true) :
    ValueDomain.compare op v w = .unknown
  compareOpen {op : Operator} {v w : V} (comparison : op.isComparison = true)
    (left : SoundDomain.Regular v) (right : SoundDomain.Regular w)
    (full : ValueDomain.isBottom v = false) (full' : ValueDomain.isBottom w = false)
    (unknown : ValueDomain.compare op v w = .unknown) (outcome : Bool) :
    ∃ m ∈ v, ∃ k ∈ w, op.holds m k = outcome
  refineMono {op : Operator} {v v' w w' : V} {n : Int} (comparison : op.isComparison = true)
    (first : SoundDomain.Included v v') (second : SoundDomain.Included w w') :
    (n ∈ (ValueDomain.refine op v w).1 → n ∈ (ValueDomain.refine op v' w').1) ∧
      (n ∈ (ValueDomain.refine op v w).2 → n ∈ (ValueDomain.refine op v' w').2)

theorem MonotoneDomain.refineIncluded {V : Type} [ValueDomain V] [Membership Int V] [SoundDomain V]
    [MonotoneDomain V] {op : Operator} {v v' w w' : V} (comparison : op.isComparison = true)
    (first : SoundDomain.Included v v') (second : SoundDomain.Included w w') :
    SoundDomain.Included (ValueDomain.refine op v w).1 (ValueDomain.refine op v' w').1 ∧
      SoundDomain.Included (ValueDomain.refine op v w).2 (ValueDomain.refine op v' w').2 :=
  ⟨⟨(SoundDomain.regularRefine first.left second.left).1,
      (SoundDomain.regularRefine first.right second.right).1,
      fun _ => (refineMono comparison first second).1⟩,
    (SoundDomain.regularRefine first.left second.left).2,
    (SoundDomain.regularRefine first.right second.right).2,
    fun _ => (refineMono comparison first second).2⟩

end Abstraction
