import Abstraction.Proofs.Interval.Guard

/-! When interval arithmetic fails: exactly where one of the pairs of ends that an operator combines is an
infinity with an integer beyond the doubles. Nothing is divided by zero, and no opposite infinities
are added, because the ends of an interval keep to their sides. -/
namespace Abstraction

def ArithmeticFault.OverflowsIff {α : Type} (x : Except ArithmeticFault α) (condition : Prop) : Prop :=
  ∀ fault, x = .error fault ↔ fault = .tooLarge ∧ condition

open ArithmeticFault (OverflowsIff)

namespace ArithmeticFault

variable {α β : Type} {x : Except ArithmeticFault α} {f : α → Except ArithmeticFault β} {c d : Prop}

theorem neverOverflows (v : α) : OverflowsIff (.ok v) False := by
  intro fault
  simp

theorem OverflowsIff.congr (known : OverflowsIff x c) (same : c ↔ d) : OverflowsIff x d := by
  intro fault
  rw [known, same]

theorem OverflowsIff.bind (first : OverflowsIff x c) (rest : ∀ v, x = .ok v → OverflowsIff (f v) d) :
    OverflowsIff (x >>= f) (c ∨ d) := by
  intro fault
  cases result : x with
  | error other =>
    obtain ⟨rfl, known⟩ := (first other).mp result
    change Except.error .tooLarge = .error fault ↔ _
    simp [known, eq_comm]
  | ok v =>
    have unmet : ¬ c := by
      intro known
      rw [(first .tooLarge).mpr ⟨rfl, known⟩] at result
      contradiction
    change f v = .error fault ↔ _
    rw [rest v result fault, or_iff_right unmet]

end ArithmeticFault

namespace Number
open ArithmeticFault (neverOverflows)

variable {a b : Number} {n : Int}

def Exceeds (a b : Number) : Prop :=
  ∃ n : Int, integerLimit ≤ n.natAbs ∧
    ((a.isInfinite = true ∧ b = .int n) ∨ (a = .int n ∧ b.isInfinite = true))

theorem integerLimitExact : integerLimit = 2 ^ 1024 - 2 ^ 970 := by decide +kernel

theorem Exceeds.symm (known : a.Exceeds b) : b.Exceeds a := by
  obtain ⟨n, large, sides⟩ := known
  exact ⟨n, large, sides.symm.imp And.symm And.symm⟩

theorem exceedsSymm : a.Exceeds b ↔ b.Exceeds a := ⟨Exceeds.symm, Exceeds.symm⟩

theorem exceedsInt (infinite : a.isInfinite = true) :
    a.Exceeds (.int n) ↔ integerLimit ≤ n.natAbs := by
  constructor
  · intro known
    obtain ⟨m, large, ⟨_, same⟩ | ⟨_, otherInfinite⟩⟩ := known
    · cases same
      exact large
    · contradiction
  · intro large
    exact ⟨n, large, .inl ⟨infinite, rfl⟩⟩

theorem notExceeds (alike : a.isInfinite = b.isInfinite) : ¬ a.Exceeds b := by
  intro known
  obtain ⟨n, _, ⟨infinite, rfl⟩ | ⟨rfl, infinite⟩⟩ := known
  · rw [alike] at infinite
    contradiction
  · rw [← alike] at infinite
    contradiction

theorem besideInfinityOverflows (infinite : a.isInfinite = true) (n : Int) (result : Number) :
    OverflowsIff (besideInfinity n result) (a.Exceeds (.int n)) := by
  intro fault
  rw [exceedsInt infinite, besideInfinity, fits]
  split
  · rename_i small
    rw [decide_eq_true_eq, ← not_le] at small
    simp [small]
  · rename_i large
    rw [decide_eq_true_eq, not_lt] at large
    simp [large, eq_comm]

theorem addOverflows (left : a.Integral) (right : b.Integral)
    (sides : (a ≠ .posInf ∧ b ≠ .posInf) ∨ (a ≠ .negInf ∧ b ≠ .negInf)) :
    OverflowsIff (a.add b) (a.Exceeds b) := by
  cases a <;> cases b <;> simp only [Integral] at left right
  case negInf.posInf | posInf.negInf => simp at sides
  case int.int | negInf.negInf | posInf.posInf =>
    exact (neverOverflows _).congr (iff_of_false id (notExceeds rfl))
  case negInf.int n | posInf.int n => exact besideInfinityOverflows rfl n _
  case int.negInf n | int.posInf n => exact (besideInfinityOverflows rfl n _).congr exceedsSymm

theorem isInfiniteNeg (a : Number) : a.neg.isInfinite = a.isInfinite := by cases a <;> rfl

theorem Exceeds.neg (known : a.Exceeds b) : a.Exceeds b.neg := by
  obtain ⟨n, large, ⟨infinite, rfl⟩ | ⟨rfl, infinite⟩⟩ := known
  · exact ⟨-n, by rwa [Int.natAbs_neg], .inl ⟨infinite, rfl⟩⟩
  · exact ⟨n, large, .inr ⟨rfl, by rwa [isInfiniteNeg]⟩⟩

theorem exceedsNeg (integral : b.Integral) : a.Exceeds b.neg ↔ a.Exceeds b := by
  refine ⟨fun known => ?_, Exceeds.neg⟩
  rw [← negNeg b integral]
  exact known.neg

theorem subOverflows (left : a.Integral) (right : b.Integral)
    (sides : (a ≠ .posInf ∧ b ≠ .negInf) ∨ (a ≠ .negInf ∧ b ≠ .posInf)) :
    OverflowsIff (a.sub b) (a.Exceeds b) := by
  -- Negation exchanges the infinities, and so the sides.
  have exchanged : (a ≠ .posInf ∧ b.neg ≠ .posInf) ∨ (a ≠ .negInf ∧ b.neg ≠ .negInf) := by
    cases b <;> simp_all [Number.neg]
  exact (addOverflows left (integralNeg right) exchanged).congr (exceedsNeg right)

theorem mulOverflows (left : a.Integral) (right : b.Integral) :
    OverflowsIff (a.mul b) (a.Exceeds b) := by
  cases a <;> cases b <;> simp only [Integral] at left right
  case negInf.int n | posInf.int n => exact besideInfinityOverflows rfl n _
  case int.negInf n | int.posInf n => exact (besideInfinityOverflows rfl n _).congr exceedsSymm
  all_goals exact (neverOverflows _).congr (iff_of_false id (notExceeds rfl))

theorem floorDivOverflows (left : a.Integral) (right : b.Integral) (nonzero : b ≠ .int 0) :
    OverflowsIff (a.floorDiv b) False := by
  unfold floorDiv
  split
  · exact neverOverflows _
  split
  · exact neverOverflows _
  split
  · exact neverOverflows _
  · cases a <;> cases b <;> simp only [Integral] at left right
    case int.int =>
      have divisor : ¬ _ = (0 : Int) := fun zero => nonzero (congrArg Number.int zero)
      simp only [if_neg divisor]
      exact neverOverflows _
    all_goals exact neverOverflows _

theorem moveExact (integral : a.Integral) :
    a.sub (.int 1) = .ok a.pred ∧ a.add (.int 1) = .ok a.succ := by
  have down : fits (-1) = true := by decide +kernel
  have up : fits 1 = true := by decide +kernel
  cases a with
  | double x => exact integral.elim
  | int n => exact ⟨rfl, rfl⟩
  | negInf => exact ⟨if_pos down, if_pos up⟩
  | posInf => exact ⟨if_pos down, if_pos up⟩

end Number

def Operator.endPairs (op : Operator) (a b c d : Number) : List (Number × Number) :=
  match op with
  | .add => [(a, c), (b, d)]
  | .sub => [(a, d), (b, c)]
  | .mul => [(a, c), (a, d), (b, c), (b, d)]
  | _ => []

namespace Interval
open ArithmeticFault (neverOverflows)

variable {a b r : Interval} {op : Operator} {lo hi low high : Number} {p : Proper lo hi}
  {q : Proper low high}

def Overflows (op : Operator) (a b : Interval) : Prop :=
  ∃ lo hi p low high q, a = .range lo hi p ∧ b = .range low high q ∧
    ∃ pair ∈ op.endPairs lo hi low high, pair.1.Exceeds pair.2

theorem overflowsRange : Overflows op (.range lo hi p) (.range low high q) ↔
    ∃ pair ∈ op.endPairs lo hi low high, pair.1.Exceeds pair.2 := by
  constructor
  · intro known
    obtain ⟨_, _, _, _, _, _, first, second, exceeds⟩ := known
    cases first
    cases second
    exact exceeds
  · intro exceeds
    exact ⟨lo, hi, p, low, high, q, rfl, rfl, exceeds⟩

theorem addOverflows (left : (range lo hi p).Integral) (right : (range low high q).Integral) :
    OverflowsIff ((range lo hi p).add (range low high q))
      (Overflows .add (range lo hi p) (range low high q)) := by
  have lower := Number.addOverflows left.1 right.1 (.inl ⟨p.2.1, q.2.1⟩)
  have upper := Number.addOverflows left.2 right.2 (.inr ⟨p.2.2, q.2.2⟩)
  refine (lower.bind fun _ _ => upper.bind fun _ _ => neverOverflows _).congr ?_
  simp [overflowsRange, Operator.endPairs]

theorem subOverflows (left : (range lo hi p).Integral) (right : (range low high q).Integral) :
    OverflowsIff ((range lo hi p).sub (range low high q))
      (Overflows .sub (range lo hi p) (range low high q)) := by
  have lower := Number.subOverflows left.1 right.2 (.inl ⟨p.2.1, q.2.2⟩)
  have upper := Number.subOverflows left.2 right.1 (.inr ⟨p.2.2, q.2.1⟩)
  refine (lower.bind fun _ _ => upper.bind fun _ _ => neverOverflows _).congr ?_
  simp [overflowsRange, Operator.endPairs]

theorem zeroEnds (integral : (range lo hi p).Integral) (zero : (range lo hi p).constValue = some 0) :
    lo = .int 0 ∧ hi = .int 0 := by
  simp only [constValue] at zero
  split at zero
  · rename_i same
    subst same
    cases lo <;> simp_all [Number.truncate, Integral, Number.Integral]
  · contradiction

theorem zeroNotExceeds {c : Number} : ¬ (Number.int 0).Exceeds c := by
  intro known
  obtain ⟨n, large, ⟨infinite, _⟩ | ⟨same, _⟩⟩ := known
  · contradiction
  · cases same
    have positive : 0 < Number.integerLimit := by decide +kernel
    exact absurd large (not_le.mpr positive)

theorem mulOverflows (left : (range lo hi p).Integral) (right : (range low high q).Integral) :
    OverflowsIff ((range lo hi p).mul (range low high q))
      (Overflows .mul (range lo hi p) (range low high q)) := by
  simp only [mul]
  split
  · rename_i zero
    refine (neverOverflows _).congr (iff_of_false id ?_)
    rw [overflowsRange]
    rcases zero with zero | zero
    · obtain ⟨rfl, rfl⟩ := zeroEnds left zero
      simp [Operator.endPairs, zeroNotExceeds]
    · obtain ⟨rfl, rfl⟩ := zeroEnds right zero
      simp [Operator.endPairs, Number.exceedsSymm (b := .int 0), zeroNotExceeds]
  · have first := Number.mulOverflows left.1 right.1
    have second := Number.mulOverflows left.1 right.2
    have third := Number.mulOverflows left.2 right.1
    have fourth := Number.mulOverflows left.2 right.2
    refine (first.bind fun _ _ => second.bind fun _ _ => third.bind fun _ _ => fourth.bind
      fun _ _ => neverOverflows _).congr ?_
    simp [overflowsRange, Operator.endPairs]

theorem divOverflows (left : (range lo hi p).Integral) (right : (range low high q).Integral) :
    OverflowsIff ((range lo hi p).div (range low high q)) False := by
  simp only [div]
  split
  · exact neverOverflows _
  split
  · exact neverOverflows _
  · rename_i _ outside
    have away : ¬ (low ≤ .int 0 ∧ .int 0 ≤ high) := fun inside => outside (decide_eq_true inside)
    have lower : low ≠ .int 0 := fun zero => away ⟨zero ▸ Number.leRefl _, zero ▸ q.1⟩
    have upper : high ≠ .int 0 := fun zero => away ⟨zero ▸ q.1, zero ▸ Number.leRefl _⟩
    have first := Number.floorDivOverflows left.1 right.1 lower
    have second := Number.floorDivOverflows left.1 right.2 upper
    have third := Number.floorDivOverflows left.2 right.1 lower
    have fourth := Number.floorDivOverflows left.2 right.2 upper
    refine (first.bind fun _ _ => second.bind fun _ _ => third.bind fun _ _ => fourth.bind
      fun _ _ => neverOverflows _).congr ?_
    simp

theorem evalBinaryEmpty (eitherEmpty : a = .empty ∨ b = .empty) : evalBinary op a b = .ok .empty := by
  rcases eitherEmpty with rfl | rfl
  · cases op <;> rfl
  · cases op <;> cases a <;> rfl

theorem evalBinaryOverflows (op : Operator) (left : a.Integral) (right : b.Integral) :
    OverflowsIff (evalBinary op a b) (Overflows op a b) := by
  have never (eitherEmpty : a = .empty ∨ b = .empty) : OverflowsIff (evalBinary op a b) (Overflows op a b) := by
    rw [evalBinaryEmpty eitherEmpty]
    refine (neverOverflows _).congr (iff_of_false id fun known => ?_)
    obtain ⟨_, _, _, _, _, _, first, second, _⟩ := known
    rcases eitherEmpty with rfl | rfl <;> contradiction
  cases a with
  | empty => exact never (.inl rfl)
  | range lo hi p =>
  cases b with
  | empty => exact never (.inr rfl)
  | range low high q =>
    have silent (noPairs : op.endPairs lo hi low high = []) :
        False ↔ Overflows op (range lo hi p) (range low high q) := by
      rw [overflowsRange, noPairs]
      simp
    cases op
    case add => exact addOverflows left right
    case sub => exact subOverflows left right
    case mul => exact mulOverflows left right
    case div => exact (divOverflows left right).congr (silent rfl)
    all_goals exact (neverOverflows _).congr (silent rfl)

theorem eitherAnswers {c d : Prop} [Decidable c] [Decidable d] {v w : Verdict}
    (first : v ≠ .contradiction) (second : w ≠ .contradiction) :
    (if c then v else if d then w else .unknown) ≠ .contradiction := by
  split
  · exact first
  split
  · exact second
  · nofun

theorem compareAnswers (op : Operator) (a b : Interval) : compare op a b ≠ .contradiction := by
  have equal : equalVerdict a b ≠ .contradiction := eitherAnswers nofun nofun
  unfold compare
  split
  · split
    case h_1 | h_2 | h_3 | h_4 => exact eitherAnswers nofun nofun
    case h_5 => exact equal
    case h_6 =>
      intro negated
      exact equal (Verdict.negateContradiction.mp negated)
    case h_7 => nofun
  · nofun

/- The infinities and the integers stay among themselves, so there is nothing indeterminate either. The
operations beside arithmetic compare ends, exchange them or move them by one, and so have no
failure to report. -/
theorem overflowExact (op : Operator) (a b : Interval) (left : a.Integral) (right : b.Integral) :
    (∀ fault, evalBinary op a b = .error fault ↔ fault = .tooLarge ∧ Overflows op a b) ∧
    (∀ r, evalBinary op a b = .ok r → r.Integral) ∧
    Number.integerLimit = 2 ^ 1024 - 2 ^ 970 ∧
    ((a.join b).Integral ∧ (a.meet b).Integral ∧ (a.widen b).Integral ∧ (a.narrow b).Integral) ∧
    (evalUnary op a).Integral ∧ compare op a b ≠ .contradiction ∧
    ((refine op a b).1.Integral ∧ (refine op a b).2.Integral) ∧
    ∀ n : Number, n.Integral → n.sub (.int 1) = .ok n.pred ∧ n.add (.int 1) = .ok n.succ := by
  exact ⟨evalBinaryOverflows op left right,
    fun r ok => (evalBinaryEncloses left right ok).integral, Number.integerLimitExact,
    ⟨integralJoin left right, integralMeet left right, integralWiden left right,
      integralNarrow left right⟩,
    integralEvalUnary left, compareAnswers op a b, integralRefine left right,
    fun n => Number.moveExact⟩

/- The least integer that no double can take, beside minus infinity: their sum fails, and their quotient
does not. Zero times any interval with such an end is zero. -/
theorem overflowExactLimit :
    let large := Number.int Number.integerLimit
    let low := atMost (.int 0)
    let point := Interval.range large large ⟨Number.leRefl _, Number.noConfusion, Number.noConfusion⟩
    let zero := Interval.range (.int 0) (.int 0) (by decide)
    let wide := Interval.range .negInf large ⟨Number.negInfLe _, Number.noConfusion, Number.noConfusion⟩
    evalBinary .add low point = .error .tooLarge ∧
      (∀ fault, evalBinary .div low point ≠ .error fault) ∧
      (∀ fault, evalBinary .mul zero wide ≠ .error fault) ∧
      ∃ fault, evalBinary .mul wide wide = .error fault := by
  intro large low point zero wide
  have limited : low.Integral := by decide
  obtain ⟨sum, _⟩ := overflowExact .add low point limited ⟨trivial, trivial⟩
  obtain ⟨quotient, _⟩ := overflowExact .div low point limited ⟨trivial, trivial⟩
  obtain ⟨product, _⟩ := overflowExact .mul zero wide ⟨trivial, trivial⟩ ⟨trivial, trivial⟩
  obtain ⟨square, _⟩ := overflowExact .mul wide wide ⟨trivial, trivial⟩ ⟨trivial, trivial⟩
  have exceeds : Number.negInf.Exceeds large := (Number.exceedsInt rfl).mpr (Nat.le_refl _)
  refine ⟨(sum _).mpr ⟨rfl, ?_⟩, fun fault failed => ?_, fun fault failed => ?_,
    .tooLarge, (square _).mpr ⟨rfl, ?_⟩⟩
  · exact overflowsRange.mpr ⟨_, List.mem_cons_self, exceeds⟩
  · obtain ⟨_, _, _, _, _, _, _, _, _, unlisted, _⟩ := (quotient fault).mp failed |>.2
    contradiction
  · have known := ((product fault).mp failed).2
    obtain ⟨pair, listed, exceeds⟩ := overflowsRange.mp known
    simp only [Operator.endPairs, List.mem_cons, List.not_mem_nil, or_false] at listed
    rcases listed with rfl | rfl | rfl | rfl <;> exact zeroNotExceeds exceeds
  · exact overflowsRange.mpr ⟨_, List.mem_cons_of_mem _ List.mem_cons_self, exceeds⟩

end Interval
end Abstraction
