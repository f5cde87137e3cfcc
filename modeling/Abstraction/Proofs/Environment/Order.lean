import Abstraction.Proofs.Environment.Soundness

/-! The order of environments, for any domain of values that is known by its members. It is the inclusion
of the value of every identifier, also of those without an entry. Assuming a guard only goes down
in it, even where one identifier is refined twice. -/
namespace Abstraction.Environment
open ArithmeticFault (bindOk)

variable {V : Type} [ValueDomain V] {a b base env next : Environment V} {e : Expr}
  {id k : Identifier} {v : V}

theorem getUnlisted (possible : env.isBottom = false) (absent : k ∉ env.table.keys) :
    env.get k = ValueDomain.top := by
  have missing : env.table.find k = none := Table.lookupNone.mpr absent
  rw [get, if_neg (by simp [possible]), missing]
  rfl

theorem leqImpossible (impossible : a.isBottom = true) (b : Environment V) : a.leq b = true := by
  rw [leq, if_pos impossible]

theorem leqOfValues (possible : b.isBottom = false)
    (order : ∀ k, ValueDomain.leq (a.get k) (b.get k) = true) : a.leq b = true := by
  unfold leq
  split
  · rfl
  · rw [if_neg (by simp [possible])]
    exact List.all_eq_true.mpr fun k _ => order k

theorem getPointwiseTop {f : V → V → V} (top : f ValueDomain.top ValueDomain.top = ValueDomain.top)
    (left : a.isBottom = false) (right : b.isBottom = false)
    (after : (pointwise f a b).isBottom = false) (k : Identifier) :
    (pointwise f a b).get k = f (a.get k) (b.get k) := by
  rw [pointwise] at after ⊢
  rw [getOfTable after, Table.findTabulate]
  split
  · rfl
  · rename_i absent
    rw [Table.memKeysOfBoth, not_or] at absent
    rw [getUnlisted left absent.1, getUnlisted right absent.2, top]
    rfl

variable [Membership Int V] [SoundDomain V] [ExactDomain V]

theorem leqPointwise (possible : a.isBottom = false) :
    a.leq b = true ↔ b.isBottom = false ∧ ∀ k, ValueDomain.leq (a.get k) (b.get k) = true := by
  refine ⟨fun order => ?_, fun order => leqOfValues order.1 order.2⟩
  rw [leq, if_neg (by simp [possible])] at order
  split at order <;> try contradiction
  rename_i upper
  have possible' : b.isBottom = false := Bool.eq_false_iff.mpr upper
  refine ⟨possible', fun k => ?_⟩
  by_cases inside : k ∈ a.table.keysOfBoth b.table
  · exact List.all_eq_true.mp order k inside
  · rw [Table.memKeysOfBoth, not_or] at inside
    rw [getUnlisted possible inside.1, getUnlisted possible' inside.2]
    exact ExactDomain.leqRefl SoundDomain.regularTop

theorem leqOfMembers (left : a.Regular) (right : b.Regular) (possible : b.isBottom = false)
    (included : ∀ k (n : Int), n ∈ a.get k → n ∈ b.get k) : a.leq b = true := by
  cases possible' : a.isBottom with
  | true => exact leqImpossible possible' b
  | false =>
    refine (leqPointwise possible').mpr ⟨possible, fun k => ?_⟩
    exact ExactDomain.leqComplete (regularGet left possible' k) (regularGet right possible k)
      (included k)

theorem leqRefl (regular : env.Regular) : env.leq env = true := by
  cases possible : env.isBottom with
  | true => exact leqImpossible possible env
  | false => exact leqOfMembers regular regular possible fun _ _ => id

theorem putBelow (regular : env.Regular) (upper : base.Regular) (value : SoundDomain.Regular v)
    (below : env.leq base = true) (included : ∀ n : Int, n ∈ v → n ∈ base.get id) :
    (env.put id v).leq base = true := by
  cases possible : env.isBottom with
  | true => rwa [put, if_pos possible]
  | false =>
  cases after : (env.put id v).isBottom with
  | true => exact leqImpossible after base
  | false =>
    obtain ⟨possible', order⟩ := (leqPointwise possible).mp below
    refine leqOfMembers (regularPut regular value) upper possible' fun k n inside => ?_
    rw [getPut possible after] at inside
    split at inside
    · rename_i same
      subst same
      exact included n inside
    · exact SoundDomain.leqSound (order k) inside

theorem putOperandBelow (regular : env.Regular) (upper : base.Regular)
    (value : SoundDomain.Regular v) (below : env.leq base = true) {w : V}
    (evaluated : base.evalExpr e = .ok w) (included : ∀ n : Int, n ∈ v → n ∈ w) :
    (env.putOperand e v).leq base = true := by
  cases e with
  | identifier id =>
    cases evaluated
    exact putBelow regular upper value below included
  | _ => exact below

theorem Assumed.below (regular : env.Regular) (outcome : Assumed env e next) :
    next.leq env = true := by
  cases outcome with
  | impossible => exact leqImpossible rfl env
  | kept => exact leqRefl regular
  | @refined actual l r v w possible _ evalLeft evalRight =>
    have left := regularEval regular possible evalLeft
    have right := regularEval regular possible evalRight
    obtain ⟨first, second⟩ : SoundDomain.Regular (ValueDomain.refine actual v w).1 ∧
        SoundDomain.Regular (ValueDomain.refine actual v w).2 :=
      SoundDomain.regularRefine left right
    refine putOperandBelow (regularPutOperand regular first) regular second ?_ evalRight
      fun n => (ExactDomain.refineBelow left right).2
    exact putOperandBelow regular regular first (leqRefl regular) evalLeft
      fun n => (ExactDomain.refineBelow left right).1

theorem assumeBelow (regular : env.Regular) (ok : env.assume e = .ok next) :
    next.leq env = true := (assumed ok).below regular

end Abstraction.Environment
