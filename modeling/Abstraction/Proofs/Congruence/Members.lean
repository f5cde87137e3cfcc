import Abstraction.Value.Congruence.Basic
import Abstraction.Proofs.Residue

/-! The integers in a congruence class, and what the lattice operations do to them. A class is known by
its members: the order is inclusion, the meet is the intersection, and the join has no member that
some upper bound lacks. -/
namespace Abstraction.Congruence
open Residue (congruentExact dividesExact)

instance : Membership Int Congruence := ⟨fun a n => a.contains n = true⟩

instance (n : Int) (a : Congruence) : Decidable (n ∈ a) :=
  inferInstanceAs (Decidable (a.contains n = true))

variable {a b c : Congruence} {m k : Nat} {r s n : Int}

theorem notMemEmpty (n : Int) : n ∉ Congruence.empty := Bool.false_ne_true

theorem memCoset {reduced : Reduced m r} : n ∈ coset m r reduced ↔ (m : Int) ∣ n - r :=
  congruentExact

theorem memOfParts {m : Int} : n ∈ ofParts m r ↔ m ∣ n - r := by
  have step := Int.mul_ediv_add_emod r m.natAbs
  have same : n - r % m.natAbs = n - r + m.natAbs * (r / m.natAbs) := by linear_combination -step
  rw [ofParts, memCoset, same, dvd_add_left (Int.dvd_mul_right _ _), Int.natAbs_dvd]

theorem memWhole (n : Int) : n ∈ whole := memCoset.mpr (one_dvd _)

theorem memConst : n ∈ const r ↔ n = r := by
  rw [const, memOfParts, Int.zero_dvd, sub_eq_zero]

theorem cosetOfMember (inside : n ∈ a) : ∃ m r reduced, a = coset m r reduced ∧ (m : Int) ∣ n - r := by
  cases a with
  | empty => exact (notMemEmpty n inside).elim
  | coset m r reduced => exact ⟨m, r, reduced, rfl, memCoset.mp inside⟩

theorem gcdDividesLeft (k : Nat) (divides : (m : Int) ∣ n) : ((Nat.gcd m k : Nat) : Int) ∣ n :=
  (Int.natCast_dvd_natCast.mpr (Nat.gcd_dvd_left m k)).trans divides

theorem gcdDividesRight (m : Nat) (divides : (k : Int) ∣ n) : ((Nat.gcd m k : Nat) : Int) ∣ n :=
  (Int.natCast_dvd_natCast.mpr (Nat.gcd_dvd_right m k)).trans divides

theorem residueMember {reduced : Reduced m r} : r ∈ coset m r reduced := by
  rw [memCoset, sub_self]
  exact Int.dvd_zero _

theorem isEmptyExact : a.isEmpty = true ↔ ∀ n, n ∉ a := by
  cases a with
  | empty => exact iff_of_true rfl notMemEmpty
  | coset m r reduced => exact iff_of_false Bool.false_ne_true fun absent => absent r residueMember

theorem leqExact : a.leq b = true ↔ ∀ n, n ∈ a → n ∈ b := by
  cases a with
  | empty => exact iff_of_true rfl fun n inside => (notMemEmpty n inside).elim
  | coset m r left =>
  cases b with
  | empty =>
    exact iff_of_false Bool.false_ne_true fun included => notMemEmpty r (included r residueMember)
  | coset k s right =>
    simp only [leq, Bool.and_eq_true, dividesExact, congruentExact, memCoset]
    constructor
    · intro order n inside
      have sum := dvd_add (order.1.trans inside) order.2
      rwa [sub_add_sub_cancel] at sum
    · intro included
      -- The residue and its successor in the class are both members of the other one.
      have first := included r (by rw [sub_self]; exact Int.dvd_zero _)
      have second := included (r + m) (by rw [add_sub_cancel_left])
      have period := dvd_sub second first
      exact ⟨by rwa [sub_sub_sub_cancel_right, add_sub_cancel_left] at period, first⟩

theorem residueUnique (left : Reduced m r) (right : Reduced m s) (same : (m : Int) ∣ r - s) :
    r = s := by
  rcases left with rfl | low
  · rw [Int.natCast_zero, Int.zero_dvd] at same
    omega
  rcases right with rfl | high
  · omega
  · exact Int.sub_eq_zero.mp (Int.eq_zero_of_dvd_of_natAbs_lt_natAbs same (by omega))

theorem ext (same : ∀ n, n ∈ a ↔ n ∈ b) : a = b := by
  have below := leqExact.mpr fun n => (same n).mp
  have above := leqExact.mpr fun n => (same n).mpr
  cases a with
  | empty =>
    cases b with
    | empty => rfl
    | coset => contradiction
  | coset m r left =>
  cases b with
  | empty => contradiction
  | coset k s right =>
    simp only [leq, Bool.and_eq_true, dividesExact, congruentExact, Int.natCast_dvd_natCast]
      at below above
    obtain rfl := Nat.dvd_antisymm above.1 below.1
    obtain rfl := residueUnique left right below.2
    rfl

theorem memJoin {left : Reduced m r} {right : Reduced k s} :
    n ∈ (coset m r left).join (coset k s right) ↔
      ((Nat.gcd (Nat.gcd m k) (r - s).natAbs : Nat) : Int) ∣ n - s := by
  rw [join, memOfParts]

theorem joinSound (inside : n ∈ a ∨ n ∈ b) : n ∈ a.join b := by
  cases a with
  | empty => exact inside.resolve_left (notMemEmpty n)
  | coset m r left =>
  cases b with
  | empty => exact inside.resolve_right (notMemEmpty n)
  | coset k s right =>
    rw [memCoset, memCoset] at inside
    rw [memJoin]
    rcases inside with inside | inside
    · have apart := gcdDividesRight (Nat.gcd m k) (Int.natAbs_dvd_self (a := r - s))
      have sum := dvd_add (gcdDividesLeft _ (gcdDividesLeft k inside)) apart
      rwa [sub_add_sub_cancel] at sum
    · exact gcdDividesLeft _ (gcdDividesRight m inside)

theorem joinLeast (first : ∀ n, n ∈ a → n ∈ c) (second : ∀ n, n ∈ b → n ∈ c)
    (inside : n ∈ a.join b) : n ∈ c := by
  cases a with
  | empty => exact second n inside
  | coset m r left =>
  cases b with
  | empty => exact first n inside
  | coset k s right =>
  cases c with
  | empty => exact (notMemEmpty r (first r residueMember)).elim
  | coset l t upper =>
    have below := leqExact.mpr first
    have above := leqExact.mpr second
    simp only [leq, Bool.and_eq_true, dividesExact, congruentExact, Int.natCast_dvd_natCast]
      at below above
    have apart := dvd_sub below.2 above.2
    rw [sub_sub_sub_cancel_right] at apart
    rw [memJoin] at inside
    have period := Nat.dvd_gcd (Nat.dvd_gcd below.1 above.1) (Int.natCast_dvd.mp apart)
    have sum := dvd_add ((Int.natCast_dvd_natCast.mpr period).trans inside) above.2
    rw [sub_add_sub_cancel] at sum
    exact memCoset.mpr sum

theorem residuesAgree (first : (m : Int) ∣ n - r) (second : (k : Int) ∣ n - s) :
    ((Nat.gcd m k : Nat) : Int) ∣ r - s := by
  have difference := dvd_sub (gcdDividesRight m second) (gcdDividesLeft k first)
  rwa [sub_sub_sub_cancel_left] at difference

theorem memMeet : n ∈ a.meet b ↔ n ∈ a ∧ n ∈ b := by
  cases a with
  | empty => exact iff_of_false (notMemEmpty n) fun both => notMemEmpty n both.1
  | coset m r left =>
  cases b with
  | empty => exact iff_of_false (notMemEmpty n) fun both => notMemEmpty n both.2
  | coset k s right =>
    rw [meet]
    split
    · rename_i agree
      rw [congruentExact] at agree
      split
      · rename_i zero
        subst zero
        rw [Nat.gcd_zero_left] at agree
        refine ⟨fun inside => ⟨inside, ?_⟩, And.left⟩
        rw [memCoset, Int.natCast_zero, Int.zero_dvd, sub_eq_zero] at inside
        rwa [inside, memCoset]
      split
      · rename_i _ zero
        subst zero
        rw [Nat.gcd_zero_right] at agree
        refine ⟨fun inside => ⟨?_, inside⟩, And.right⟩
        rw [memCoset, Int.natCast_zero, Int.zero_dvd, sub_eq_zero] at inside
        rw [inside, memCoset]
        exact (dvd_sub_comm).mp agree
      · have solvable : (Residue.bezout m k).divisor ∣ s - r := by
          obtain ⟨first, second⟩ := Residue.bezoutDivides m k
          exact (Int.dvd_coe_gcd first second).trans (dvd_sub_comm.mp agree)
        have toLeft := Residue.solveLeft m r k s
        have toRight := Residue.solveRight solvable
        rw [memOfParts, memCoset, memCoset, Int.natCast_dvd, Nat.lcm_dvd_iff, ← Int.natCast_dvd,
          ← Int.natCast_dvd]
        refine and_congr ?_ ?_
        · rw [← dvd_add_left toLeft, sub_add_sub_cancel]
        · rw [← dvd_add_left toRight, sub_add_sub_cancel]
    · rename_i disagree
      rw [congruentExact] at disagree
      refine iff_of_false (notMemEmpty n) fun both => disagree ?_
      exact residuesAgree (memCoset.mp both.1) (memCoset.mp both.2)

theorem narrowCosets {left : Reduced m r} {right : Reduced k s} :
    (coset m r left).narrow (coset k s right) =
      if (coset m r left).isWhole then coset k s right else coset m r left := rfl

theorem narrowAbove (first : n ∈ a) (second : n ∈ b) : n ∈ a.narrow b := by
  obtain ⟨m, r, _, rfl, _⟩ := cosetOfMember first
  obtain ⟨k, s, _, rfl, _⟩ := cosetOfMember second
  rw [narrowCosets]
  split <;> assumption

theorem narrowBelow (included : ∀ n, n ∈ b → n ∈ a) (inside : n ∈ a.narrow b) : n ∈ a := by
  cases a with
  | empty => exact inside
  | coset m r left =>
  cases b with
  | empty => exact (notMemEmpty n inside).elim
  | coset k s right =>
    rw [narrowCosets] at inside
    split at inside
    · exact included n inside
    · exact inside

end Abstraction.Congruence
