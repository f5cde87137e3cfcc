import Abstraction.Proofs.Environment.Invariant
import Abstraction.Proofs.Environment.Order

/-! Lattice operations on environments, for any domain of values that is known by its members. They work
on the values of all identifiers, also of those without an entry, so what an operation does to the
members of two values it does to the stores and to the order of two environments. -/
namespace Abstraction.Environment

variable {V : Type} {a b c env : Environment V} {f : V → V → V} {s : Store}

theorem outerImpossible {next : Environment V} (possible : a.isBottom = false)
    (impossible : b.isBottom = true) :
    (if a.isBottom then b else if b.isBottom then a else next) = a := by
  rw [if_neg (by simp [possible]), if_pos impossible]

variable [ValueDomain V] [Membership Int V] [SoundDomain V]

theorem memExact : s ∈ env ↔ env.isBottom = false ∧ ∀ k, s k ∈ env.get k := by
  constructor
  · intro inside
    exact ⟨inside.1, memGet inside⟩
  · intro known
    obtain ⟨possible, members⟩ := known
    refine ⟨possible, fun k v found => ?_⟩
    have value := members k
    rwa [get, if_neg (by simp [possible]), found] at value

/-- An operation on values that can be made one on environments: an identifier without an entry on
either side needs none in the result. -/
structure Lifts (f : V → V → V) : Prop where
  regular {v w : V} (left : SoundDomain.Regular v) (right : SoundDomain.Regular w) :
    SoundDomain.Regular (f v w)
  top : f ValueDomain.top ValueDomain.top = ValueDomain.top

section
variable (lifts : Lifts f)
include lifts

theorem getPointwise (left : a.isBottom = false) (right : b.isBottom = false)
    (after : (pointwise f a b).isBottom = false) (k : Identifier) :
    (pointwise f a b).get k = f (a.get k) (b.get k) :=
  getPointwiseTop lifts.top left right after k

theorem memPointwise (left : a.Regular) (right : b.Regular) (possible : a.isBottom = false)
    (possible' : b.isBottom = false) :
    s ∈ pointwise f a b ↔ ∀ k, s k ∈ f (a.get k) (b.get k) := by
  constructor
  · intro inside k
    have value := memGet inside k
    rwa [getPointwise lifts possible possible' inside.1] at value
  · intro members
    have after : (pointwise f a b).isBottom = false := possiblePointwise fun k =>
      SoundDomain.possibleOfMember
        (lifts.regular (regularGet left possible k) (regularGet right possible' k)) (members k)
    refine memExact.mpr ⟨after, fun k => ?_⟩
    rw [getPointwise lifts possible possible' after]
    exact members k

theorem outerSound (left : a.Regular) (right : b.Regular)
    (grows : ∀ v w : V, SoundDomain.Regular v → SoundDomain.Regular w →
      ∀ n : Int, n ∈ v ∨ n ∈ w → n ∈ f v w) (inside : s ∈ a ∨ s ∈ b) :
    s ∈ (if a.isBottom then b else if b.isBottom then a else pointwise f a b) := by
  split
  · rename_i impossible
    exact inside.resolve_left fun member => by simp [member.1] at impossible
  rename_i possible
  split
  · rename_i impossible
    exact inside.resolve_right fun member => by simp [member.1] at impossible
  rename_i possible'
  rw [Bool.not_eq_true] at possible possible'
  refine (memPointwise lifts left right possible possible').mpr fun k => ?_
  exact grows _ _ (regularGet left possible k) (regularGet right possible' k) (s k)
    (inside.imp (memGet · k) (memGet · k))

theorem getOuter (left : a.isBottom = false) (right : b.isBottom = false)
    (after : (if a.isBottom then b else if b.isBottom then a else pointwise f a b).isBottom = false)
    (k : Identifier) :
    (if a.isBottom then b else if b.isBottom then a else pointwise f a b).get k =
      f (a.get k) (b.get k) := by
  rw [if_neg (by simp [left]), if_neg (by simp [right])] at after ⊢
  exact getPointwise lifts left right after k

theorem getInner
    (after : (if a.isBottom || b.isBottom then bottom else pointwise f a b).isBottom = false) :
    a.isBottom = false ∧ b.isBottom = false ∧ ∀ k,
      (if a.isBottom || b.isBottom then bottom else pointwise f a b).get k =
        f (a.get k) (b.get k) := by
  split at after <;> try contradiction
  rename_i possible
  rw [if_neg possible]
  simp only [Bool.or_eq_true, not_or, Bool.not_eq_true] at possible
  exact ⟨possible.1, possible.2, getPointwise lifts possible.1 possible.2 after⟩

end

variable [ExactDomain V]

theorem liftsOfMembers
    (regular : ∀ {v w : V}, SoundDomain.Regular v → SoundDomain.Regular w →
      SoundDomain.Regular (f v w))
    (members : ∀ n : Int, n ∈ f ValueDomain.top ValueDomain.top) : Lifts f :=
  ⟨regular, ExactDomain.eqTop (regular SoundDomain.regularTop SoundDomain.regularTop) members⟩

theorem liftsJoin : Lifts (ValueDomain.join : V → V → V) :=
  liftsOfMembers SoundDomain.regularJoin fun n =>
    SoundDomain.joinSound SoundDomain.regularTop SoundDomain.regularTop (.inl (SoundDomain.memTop n))

theorem liftsWiden : Lifts (ValueDomain.widen : V → V → V) :=
  liftsOfMembers SoundDomain.regularWiden fun n =>
    SoundDomain.widenSound SoundDomain.regularTop SoundDomain.regularTop (.inl (SoundDomain.memTop n))

theorem liftsMeet : Lifts (ValueDomain.meet : V → V → V) :=
  liftsOfMembers SoundDomain.regularMeet fun n =>
    (ExactDomain.memMeet SoundDomain.regularTop SoundDomain.regularTop).mpr
      ⟨SoundDomain.memTop n, SoundDomain.memTop n⟩

theorem liftsNarrow : Lifts (ValueDomain.narrow : V → V → V) :=
  liftsOfMembers SoundDomain.regularNarrow fun n =>
    ExactDomain.narrowAbove SoundDomain.regularTop SoundDomain.regularTop (SoundDomain.memTop n)
      (SoundDomain.memTop n)

theorem joinSound (left : a.Regular) (right : b.Regular) (inside : s ∈ a ∨ s ∈ b) :
    s ∈ a.join b :=
  outerSound liftsJoin left right
    (fun _ _ first second _ member => SoundDomain.joinSound first second member) inside

theorem widenSound (left : a.Regular) (right : b.Regular) (inside : s ∈ a ∨ s ∈ b) :
    s ∈ a.widen b :=
  outerSound liftsWiden left right
    (fun _ _ first second _ member => SoundDomain.widenSound first second member) inside

theorem memMeet (left : a.Regular) (right : b.Regular) : s ∈ a.meet b ↔ s ∈ a ∧ s ∈ b := by
  unfold meet
  split
  · rename_i impossible
    refine iff_of_false (notMemBottom s) fun both => ?_
    simp [both.1.1, both.2.1] at impossible
  · rename_i possible
    simp only [Bool.or_eq_true, not_or, Bool.not_eq_true] at possible
    rw [memPointwise liftsMeet left right possible.1 possible.2, memExact, memExact]
    simp only [ExactDomain.memMeet (regularGet left possible.1 _) (regularGet right possible.2 _)]
    constructor
    · intro members
      exact ⟨⟨possible.1, fun k => (members k).1⟩, possible.2, fun k => (members k).2⟩
    · intro both k
      exact ⟨both.1.2 k, both.2.2 k⟩

theorem leqTrans (lower : a.Regular) (upper : c.Regular) (first : a.leq b = true)
    (second : b.leq c = true) : a.leq c = true := by
  cases possible : a.isBottom with
  | true => exact leqImpossible possible c
  | false =>
    obtain ⟨possible', first⟩ := (leqPointwise possible).mp first
    obtain ⟨possible'', second⟩ := (leqPointwise possible').mp second
    exact leqOfMembers lower upper possible'' fun k n inside =>
      SoundDomain.leqSound (second k) (SoundDomain.leqSound (first k) inside)

theorem leqTop (regular : env.Regular) : env.leq top = true :=
  leqOfMembers regular nofun rfl fun _ n _ => SoundDomain.memTop n

variable (left : a.Occupied) (right : b.Occupied)
include left right

theorem getJoin (possible : a.isBottom = false) (possible' : b.isBottom = false) (k : Identifier) :
    (a.join b).get k = ValueDomain.join (a.get k) (b.get k) :=
  getOuter liftsJoin possible possible' (by rw [← join, isBottomJoin left right, possible]; rfl) k

theorem getWiden (possible : a.isBottom = false) (possible' : b.isBottom = false) (k : Identifier) :
    (a.widen b).get k = ValueDomain.widen (a.get k) (b.get k) :=
  getOuter liftsWiden possible possible' (by rw [← widen, isBottomWiden left right, possible]; rfl)
    k

theorem leqJoin : a.leq (a.join b) = true ∧ b.leq (a.join b) = true := by
  cases possible : a.isBottom with
  | true =>
    rw [join, if_pos possible]
    exact ⟨leqImpossible possible b, leqRefl right.regular⟩
  | false =>
  cases possible' : b.isBottom with
  | true =>
    rw [join, outerImpossible possible possible']
    exact ⟨leqRefl left.regular, leqImpossible possible' a⟩
  | false =>
    have after : (a.join b).isBottom = false := by rw [isBottomJoin left right, possible]; rfl
    have members (k : Identifier) (n : Int) (inside : n ∈ a.get k ∨ n ∈ b.get k) :
        n ∈ (a.join b).get k := by
      rw [getJoin left right possible possible']
      exact SoundDomain.joinSound (regularGet left.regular possible k)
        (regularGet right.regular possible' k) inside
    have regular := (left.join right).regular
    exact ⟨leqOfMembers left.regular regular after fun k n inside => members k n (.inl inside),
      leqOfMembers right.regular regular after fun k n inside => members k n (.inr inside)⟩

theorem meetLeq : (a.meet b).leq a = true ∧ (a.meet b).leq b = true := by
  cases after : (a.meet b).isBottom with
  | true => exact ⟨leqImpossible after a, leqImpossible after b⟩
  | false =>
    obtain ⟨possible, possible', values⟩ := getInner liftsMeet after
    have members (k : Identifier) (n : Int) (inside : n ∈ (a.meet b).get k) :
        n ∈ a.get k ∧ n ∈ b.get k := by
      rw [meet, values k] at inside
      exact (ExactDomain.memMeet (regularGet left.regular possible k)
        (regularGet right.regular possible' k)).mp inside
    have regular := (left.meet right).regular
    exact ⟨leqOfMembers regular left.regular possible fun k n inside => (members k n inside).1,
      leqOfMembers regular right.regular possible' fun k n inside => (members k n inside).2⟩

theorem joinLeqWiden : (a.join b).leq (a.widen b) = true := by
  cases possible : a.isBottom with
  | true =>
    rw [join, widen, if_pos possible, if_pos possible]
    exact leqRefl right.regular
  | false =>
  cases possible' : b.isBottom with
  | true =>
    rw [join, widen, outerImpossible possible possible', outerImpossible possible possible']
    exact leqRefl left.regular
  | false =>
    have after : (a.widen b).isBottom = false := by rw [isBottomWiden left right, possible]; rfl
    refine leqOfMembers (left.join right).regular (left.widen right).regular after
      fun k n inside => ?_
    have first := regularGet left.regular possible k
    have second := regularGet right.regular possible' k
    rw [getJoin left right possible possible'] at inside
    rw [getWiden left right possible possible']
    exact ExactDomain.joinLeast (SoundDomain.regularWiden first second) first second
      (fun _ member => SoundDomain.widenSound first second (.inl member))
      (fun _ member => SoundDomain.widenSound first second (.inr member)) inside

theorem narrowLeq (order : b.leq a = true) : (a.narrow b).leq a = true := by
  cases after : (a.narrow b).isBottom with
  | true => exact leqImpossible after a
  | false =>
    obtain ⟨possible, possible', values⟩ := getInner liftsNarrow after
    obtain ⟨_, order⟩ := (leqPointwise possible').mp order
    refine leqOfMembers (left.narrow right).regular left.regular possible fun k n inside => ?_
    rw [narrow, values k] at inside
    exact ExactDomain.narrowBelow (regularGet left.regular possible k)
      (regularGet right.regular possible' k) (fun _ => SoundDomain.leqSound (order k)) inside

theorem narrowPossible (possible' : b.isBottom = false) (order : b.leq a = true) :
    (a.narrow b).isBottom = false := by
  obtain ⟨possible, order⟩ := (leqPointwise possible').mp order
  rw [narrow, if_neg (by simp [possible, possible'])]
  refine possiblePointwise fun k => ?_
  have first := regularGet left.regular possible k
  have second := regularGet right.regular possible' k
  -- Every value of the smaller environment has a member, which the narrowed value keeps.
  obtain ⟨n, inside⟩ := right.member possible' k
  exact SoundDomain.possibleOfMember (SoundDomain.regularNarrow first second)
    (ExactDomain.narrowAbove first second (SoundDomain.leqSound (order k) inside) inside)

theorem leqNarrow (order : b.leq a = true) : b.leq (a.narrow b) = true := by
  cases possible' : b.isBottom with
  | true => exact leqImpossible possible' _
  | false =>
    have after := narrowPossible left right possible' order
    obtain ⟨possible, _, values⟩ := getInner liftsNarrow after
    obtain ⟨_, order⟩ := (leqPointwise possible').mp order
    refine leqOfMembers right.regular (left.narrow right).regular after fun k n inside => ?_
    rw [narrow, values k]
    exact ExactDomain.narrowAbove (regularGet left.regular possible k)
      (regularGet right.regular possible' k) (SoundDomain.leqSound (order k) inside) inside

theorem sameJoin [BEq V] [ReflBEq V] (possible : a.isBottom = false)
    (possible' : b.isBottom = false) : (a.join b).same (b.join a) = true := by
  have after : (a.join b).isBottom = false := by rw [isBottomJoin left right, possible]; rfl
  have after' : (b.join a).isBottom = false := by rw [isBottomJoin right left, possible']; rfl
  rw [join, if_neg (by simp [possible]), if_neg (by simp [possible']), pointwise] at after ⊢
  rw [join, if_neg (by simp [possible']), if_neg (by simp [possible]), pointwise] at after' ⊢
  rw [keptOfTable after, keptOfTable after']
  refine Bool.and_eq_true_iff.mpr ⟨rfl, Table.sameOfFind fun k => beq_of_eq ?_⟩
  have listed : k ∈ a.table.keysOfBoth b.table ↔ k ∈ b.table.keysOfBoth a.table := by
    rw [Table.memKeysOfBoth, Table.memKeysOfBoth, or_comm]
  rw [Table.findTabulate, Table.findTabulate,
    ExactDomain.joinComm (regularGet left.regular possible k) (regularGet right.regular possible' k)]
  exact if_congr listed rfl rfl

end Abstraction.Environment
