import Mathlib.Data.Int.GCD
import Abstraction.Proofs.Congruence.Arithmetic

/-! The lattice of congruence classes is that of their members, and arithmetic on classes is as exact as
a class can be: sums, differences and negations have no member that the operands do not yield, a
product is the least class over the products, and over a constant divisor of the modulus quotients
and remainders are those of the members. -/
namespace Abstraction.Congruence
open Residue (dividesExact fdivCancel)

variable {a b c : Congruence} {m k : Nat} {r s d n : Int}

def Class (modulus residue : Int) : Kind → Int → Prop
  | .bottom, _ => False
  | .top, _ => True
  | .value, n => ∃ k, n = residue + k * modulus

theorem memDeclare {m : Int} {kind : Kind} : n ∈ declare m r kind ↔ Class m r kind n := by
  cases kind with
  | bottom => exact iff_of_false (notMemEmpty n) id
  | top => exact iff_of_true (memWhole n) trivial
  | value =>
    rw [declare, memOfParts]
    constructor
    · intro divides
      obtain ⟨k, multiple⟩ := divides
      exact ⟨k, by linear_combination multiple⟩
    · intro known
      obtain ⟨k, rfl⟩ := known
      exact ⟨k, by ring⟩

structure ClassLattice (a b c : Congruence) : Prop where
  equal : a = b ↔ ∀ n, n ∈ a ↔ n ∈ b
  order : a.leq b = true ↔ ∀ n, n ∈ a → n ∈ b
  common : ∀ n, n ∈ a.meet b ↔ n ∈ a ∧ n ∈ b
  disjoint : (a.meet b).isEmpty = true ↔ ∀ n, ¬ (n ∈ a ∧ n ∈ b)
  upper : ∀ n, n ∈ a ∨ n ∈ b → n ∈ a.join b
  least : (∀ n, n ∈ a → n ∈ c) → (∀ n, n ∈ b → n ∈ c) → ∀ n, n ∈ a.join b → n ∈ c
  commutes : a.join b = b.join a
  associates : (a.join b).join c = a.join (b.join c)

theorem classLattice (a b c : Congruence) : ClassLattice a b c where
  equal := ⟨fun same _ => same ▸ Iff.rfl, ext⟩
  order := leqExact
  common _ := memMeet
  disjoint := by simp only [isEmptyExact, memMeet]
  upper _ := joinSound
  least first second _ := joinLeast first second
  commutes := ExactDomain.joinComm trivial trivial
  associates := ExactDomain.joinAssoc trivial trivial trivial

theorem classesExact :
    (∀ m r kind n, n ∈ declare m r kind ↔ Class m r kind n) ∧
    (∀ m r kind m' r' kind', declare m r kind = declare m' r' kind' ↔
      ∀ n, Class m r kind n ↔ Class m' r' kind' n) ∧
    ∀ a b c : Congruence, ClassLattice a b c := by
  refine ⟨fun _ _ _ _ => memDeclare, fun m r kind m' r' kind' => ?_, classLattice⟩
  have members := (classLattice (declare m r kind) (declare m' r' kind') whole).equal
  simpa only [memDeclare] using members

theorem classesExactOdd :
    let a := declare 4 1 .value
    let b := declare (-6) (-3) .value
    b = declare 6 3 .value ∧ a.join b = declare 2 1 .value ∧
      ∀ n, n ∈ a.join b → Class 2 1 .value n := by
  intro a b
  obtain ⟨members, equal, lattice⟩ := classesExact
  have odd : ∀ n, n ∈ a.join b → n ∈ declare 2 1 .value :=
    (lattice a b (declare 2 1 .value)).least ((lattice a _ whole).order.mp (by decide))
      ((lattice b _ whole).order.mp (by decide))
  refine ⟨(equal (-6) (-3) .value 6 3 .value).mpr fun n => ⟨fun known => ?_, fun known => ?_⟩,
    by decide, fun n inside => (members 2 1 .value n).mp (odd n inside)⟩
  · obtain ⟨k, rfl⟩ := known
    exact ⟨-k - 1, by ring⟩
  · obtain ⟨k, rfl⟩ := known
    exact ⟨-k - 1, by ring⟩

theorem stepMember {reduced : Reduced m r} (i : Int) : r + m * i ∈ coset m r reduced :=
  memCoset.mpr ⟨i, by ring⟩

theorem gcdCombines (divides : ((Nat.gcd m k : Nat) : Int) ∣ n) : ∃ i j, n = m * i + k * j := by
  obtain ⟨l, multiple⟩ := divides
  have combined := Nat.gcd_eq_gcd_ab m k
  exact ⟨Nat.gcdA m k * l, Nat.gcdB m k * l, by linear_combination multiple + l * combined⟩

theorem addExact : n ∈ a.add b ↔ ∃ x ∈ a, ∃ y ∈ b, n = x + y := by
  constructor
  · intro inside
    match a, b with
    | .coset m r _, .coset k s _ =>
      rw [add, memOfParts] at inside
      obtain ⟨i, j, same⟩ := gcdCombines inside
      exact ⟨r + m * i, stepMember i, s + k * j, stepMember j, by linear_combination same⟩
  · intro known
    obtain ⟨x, first, y, second, rfl⟩ := known
    exact addSound first second

theorem subExact : n ∈ a.sub b ↔ ∃ x ∈ a, ∃ y ∈ b, n = x - y := by
  constructor
  · intro inside
    match a, b with
    | .coset m r _, .coset k s _ =>
      rw [sub, memOfParts] at inside
      obtain ⟨i, j, same⟩ := gcdCombines inside
      exact ⟨r + m * i, stepMember i, s + k * -j, stepMember (-j), by linear_combination same⟩
  · intro known
    obtain ⟨x, first, y, second, rfl⟩ := known
    exact subSound first second

theorem negateExact : n ∈ a.negate ↔ ∃ x ∈ a, n = -x := by
  constructor
  · intro inside
    match a with
    | .coset m r _ =>
      rw [negate, memOfParts] at inside
      refine ⟨-n, memCoset.mpr ?_, (Int.neg_neg n).symm⟩
      obtain ⟨i, multiple⟩ := inside
      exact ⟨-i, by linear_combination -multiple⟩
  · intro known
    obtain ⟨x, inside, rfl⟩ := known
    exact negateSound inside

/- The four products of the residues and of their successors in the classes differ by the three
numbers whose common divisor is the modulus of the product. -/
theorem mulLeast (every : ∀ x ∈ a, ∀ y ∈ b, x * y ∈ c) (inside : n ∈ a.mul b) : n ∈ c := by
  match a, b with
  | .coset m r _, .coset k s _ =>
    have corner (i j : Int) : (r + m * i) * (s + k * j) ∈ c :=
      every _ (stepMember i) _ (stepMember j)
    match c with
    | .empty => exact (notMemEmpty _ (corner 0 0)).elim
    | .coset l t _ =>
      simp only [memCoset] at corner
      have base : (l : Int) ∣ r * s - t := by simpa using corner 0 0
      have byLeft : (l : Int) ∣ m * s := by
        have difference : m * s = (r + m * 1) * (s + k * 0) - t - ((r + m * 0) * (s + k * 0) - t) := by
          ring
        exact difference ▸ dvd_sub (corner 1 0) (corner 0 0)
      have byRight : (l : Int) ∣ k * r := by
        have difference : k * r = (r + m * 0) * (s + k * 1) - t - ((r + m * 0) * (s + k * 0) - t) := by
          ring
        exact difference ▸ dvd_sub (corner 0 1) (corner 0 0)
      have both : (l : Int) ∣ m * k := by
        have difference : (m * k : Int) =
            (r + m * 1) * (s + k * 1) - t - ((r + m * 1) * (s + k * 0) - t) - k * r := by ring
        exact difference ▸ dvd_sub (dvd_sub (corner 1 1) (corner 1 0)) byRight
      rw [mul, memOfParts] at inside
      have period := (Int.dvd_coe_gcd both (Int.dvd_coe_gcd byLeft byRight)).trans inside
      exact memCoset.mpr (by simpa using dvd_add period base)

theorem mulWhole (k : Int) : whole.mul (const k) = ofParts k 0 := by
  refine ext fun n => ⟨mulLeast fun x _ y only => ?_, fun divides => ?_⟩
  · rw [memConst.mp only, memOfParts, Int.sub_zero]
    exact Int.dvd_mul_left x k
  · rw [memOfParts, Int.sub_zero] at divides
    obtain ⟨i, rfl⟩ := divides
    rw [Int.mul_comm]
    exact mulSound (memWhole i) (memConst.mpr rfl)

theorem constReduced (d : Int) : Reduced 0 d := .inl rfl

theorem constCoset (d : Int) : const d = coset 0 d (constReduced d) := by
  refine ext fun n => ?_
  rw [memConst, memCoset, Int.natCast_zero, Int.zero_dvd, sub_eq_zero]

theorem divExact {reduced : Reduced m r} (nonzero : d ≠ 0) (period : d ∣ m) (residue : d ∣ r) :
    n ∈ (coset m r reduced).div (const d) ↔ ∃ x ∈ coset m r reduced, n = x.fdiv d := by
  have exactly : (Residue.divides d m && Residue.divides d r) = true :=
    Bool.and_eq_true_iff.mpr ⟨dividesExact.mpr period, dividesExact.mpr residue⟩
  constructor
  · intro inside
    rw [constCoset, div, if_neg (not_not.mpr rfl), if_neg nonzero, if_pos exactly,
      memOfParts, ← mul_dvd_mul_iff_right nonzero, sub_mul, fdivCancel period,
      fdivCancel residue] at inside
    exact ⟨n * d, memCoset.mpr inside, (Int.mul_fdiv_cancel n nonzero).symm⟩
  · intro known
    obtain ⟨x, inside, rfl⟩ := known
    exact divSound inside (memConst.mpr rfl) nonzero

theorem remExact {reduced : Reduced m r} (nonzero : d ≠ 0) (period : d ∣ m) :
    n ∈ (coset m r reduced).rem (const d) ↔ ∃ x ∈ coset m r reduced, n = x.fmod d := by
  constructor
  · intro inside
    rw [constCoset, rem, if_neg (not_not.mpr rfl), if_neg nonzero, if_pos (dividesExact.mpr period),
      memConst] at inside
    exact ⟨r, residueMember, inside⟩
  · intro known
    obtain ⟨x, inside, rfl⟩ := known
    exact remSound inside (memConst.mpr rfl) nonzero

structure OptimalOn (a b : Congruence) : Prop where
  sums : ∀ n, n ∈ evalBinary .add a b ↔ ∃ x ∈ a, ∃ y ∈ b, n = x + y
  differences : ∀ n, n ∈ evalBinary .sub a b ↔ ∃ x ∈ a, ∃ y ∈ b, n = x - y
  negations : ∀ n, n ∈ evalUnary .negate a ↔ ∃ x ∈ a, n = -x
  products : ∀ x ∈ a, ∀ y ∈ b, x * y ∈ evalBinary .mul a b
  leastProduct : ∀ c : Congruence, (∀ x ∈ a, ∀ y ∈ b, x * y ∈ c) →
    (evalBinary .mul a b).leq c = true
  quotients : ∀ d ≠ 0, ∀ x ∈ a, x.fdiv d ∈ evalBinary .div a (const d)
  remainders : ∀ d ≠ 0, ∀ x ∈ a, x.fmod d ∈ evalBinary .rem a (const d)
  exactQuotients : ∀ m r reduced, a = coset m r reduced → ∀ d ≠ 0, d ∣ (m : Int) → d ∣ r →
    ∀ n, n ∈ evalBinary .div a (const d) ↔ ∃ x ∈ a, n = x.fdiv d
  exactRemainders : ∀ m r reduced, a = coset m r reduced → ∀ d ≠ 0, d ∣ (m : Int) →
    ∀ n, n ∈ evalBinary .rem a (const d) ↔ ∃ x ∈ a, n = x.fmod d

theorem optimalOn (a b : Congruence) : OptimalOn a b where
  sums _ := addExact
  differences _ := subExact
  negations _ := negateExact
  products _ first _ second := mulSound first second
  leastProduct _ every := leqExact.mpr fun _ => mulLeast every
  quotients _ nonzero _ inside := divSound inside (memConst.mpr rfl) nonzero
  remainders _ nonzero _ inside := remSound inside (memConst.mpr rfl) nonzero
  exactQuotients _ _ _ same _ nonzero period residue _ := by
    subst same
    exact divExact nonzero period residue
  exactRemainders _ _ _ same _ nonzero period _ := by
    subst same
    exact remExact nonzero period

theorem arithmeticOptimal :
    (∀ a b : Congruence, OptimalOn a b) ∧
    (∀ k, evalBinary .mul whole (const k) = ofParts k 0) ∧
    evalBinary .mul whole (const 0) = const 0 :=
  ⟨optimalOn, mulWhole, mulWhole 0⟩

theorem arithmeticOptimalNegative :
    let a := ofParts 12 8
    evalBinary .div a (const (-4)) = ofParts 3 1 ∧
      (∀ n, n ∈ ofParts 3 1 ↔ ∃ x ∈ a, n = x.fdiv (-4)) ∧
      (evalBinary .mul a (ofParts 6 3)).leq (ofParts 4 0) = true := by
  intro a
  obtain ⟨optimal, _⟩ := arithmeticOptimal
  have quotients := (optimal a whole).exactQuotients 12 8 (.inr (by decide)) rfl (-4) (by decide)
    (by decide) (by decide)
  refine ⟨by decide, quotients, (optimal a (ofParts 6 3)).leastProduct _ fun x first y _ => ?_⟩
  rw [memOfParts] at first ⊢
  have fourth : (4 : Int) ∣ x := (dvd_sub_left (by decide)).mp (dvd_trans (by decide) first)
  exact (dvd_sub_left (by decide)).mpr (fourth.mul_right y)

end Abstraction.Congruence
