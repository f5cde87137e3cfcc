import Abstraction.Program.Identifier

/-! Finite sets of identifiers. A set is seen through its members only: two sets with the same
members are the same under `==`, whatever order they came in. -/
namespace Abstraction

structure Names where
  members : List Identifier
  distinct : members.Nodup

namespace Names

instance : Membership Identifier Names := ⟨fun s x => x ∈ s.members⟩
instance (x : Identifier) (s : Names) : Decidable (x ∈ s) :=
  inferInstanceAs (Decidable (x ∈ s.members))

def empty : Names := ⟨[], List.nodup_nil⟩

instance : EmptyCollection Names := ⟨empty⟩
instance : Inhabited Names := ⟨empty⟩

theorem notMemEmpty (x : Identifier) : x ∉ (∅ : Names) := List.not_mem_nil

def isEmpty (s : Names) : Bool := s.members.isEmpty

theorem isEmptyExact {s : Names} : s.isEmpty = true ↔ ∀ x, x ∉ s := by
  obtain ⟨members, distinct⟩ := s
  change members.isEmpty = true ↔ ∀ x, x ∉ members
  cases members with
  | nil => simp
  | cons a rest => simp only [List.isEmpty_cons, Bool.false_eq_true, false_iff]
                   intro absent
                   exact absent a List.mem_cons_self

def insert (s : Names) (x : Identifier) : Names :=
  if fresh : x ∈ s.members then s
  else ⟨s.members ++ [x], by
    refine List.nodup_append.mpr ⟨s.distinct, by simp, ?_⟩
    intro a inside b only
    rw [List.mem_singleton.mp only]
    rintro rfl
    exact fresh inside⟩

theorem memInsert {s : Names} {x y : Identifier} : y ∈ s.insert x ↔ y ∈ s ∨ y = x := by
  unfold insert
  split
  · rename_i present
    constructor
    · exact Or.inl
    · rintro (h | rfl)
      · exact h
      · exact present
  · change y ∈ s.members ++ [x] ↔ y ∈ s.members ∨ y = x
    simp

def insertAll (s : Names) (xs : List Identifier) : Names := xs.foldl insert s

theorem memInsertAll {s : Names} {xs : List Identifier} {y : Identifier} :
    y ∈ s.insertAll xs ↔ y ∈ s ∨ y ∈ xs := by
  unfold insertAll
  induction xs generalizing s with
  | nil => simp
  | cons x xs ih => rw [List.foldl_cons, ih, memInsert, List.mem_cons, or_assoc]

def ofList (xs : List Identifier) : Names := insertAll ∅ xs

theorem memOfList {xs : List Identifier} {y : Identifier} : y ∈ ofList xs ↔ y ∈ xs := by
  simp [ofList, memInsertAll, notMemEmpty]

def single (x : Identifier) : Names := ofList [x]

theorem memSingle {x y : Identifier} : y ∈ single x ↔ y = x := by
  simp [single, memOfList]

def union (s t : Names) : Names := s.insertAll t.members

theorem memUnion {s t : Names} {y : Identifier} : y ∈ s.union t ↔ y ∈ s ∨ y ∈ t :=
  memInsertAll

def filter (s : Names) (keep : Identifier → Bool) : Names :=
  ⟨s.members.filter keep, List.Pairwise.filter keep s.distinct⟩

theorem memFilter {s : Names} {keep : Identifier → Bool} {y : Identifier} :
    y ∈ s.filter keep ↔ y ∈ s ∧ keep y = true :=
  List.mem_filter

def inter (s t : Names) : Names := s.filter fun x => decide (x ∈ t)

theorem memInter {s t : Names} {y : Identifier} : y ∈ s.inter t ↔ y ∈ s ∧ y ∈ t := by
  simp [inter, memFilter]

def erase (s : Names) (x : Identifier) : Names := s.filter fun y => decide (y ≠ x)

theorem memErase {s : Names} {x y : Identifier} : y ∈ s.erase x ↔ y ∈ s ∧ y ≠ x := by
  simp [erase, memFilter]

def rename (s : Names) (f : Identifier → Option Identifier) : Names :=
  ofList (s.members.filterMap f)

theorem memRename {s : Names} {f : Identifier → Option Identifier} {y : Identifier} :
    y ∈ s.rename f ↔ ∃ x ∈ s, f x = some y := by
  rw [rename, memOfList, List.mem_filterMap]
  exact Iff.rfl

def subset (s t : Names) : Bool := s.members.all fun x => decide (x ∈ t)

theorem subsetExact {s t : Names} : s.subset t = true ↔ ∀ x ∈ s, x ∈ t := by
  rw [subset, List.all_eq_true]
  simp only [decide_eq_true_eq]
  exact Iff.rfl

instance : BEq Names := ⟨fun s t => s.subset t && t.subset s⟩

theorem beqExact {s t : Names} : (s == t) = true ↔ ∀ x, x ∈ s ↔ x ∈ t := by
  change (s.subset t && t.subset s) = true ↔ _
  rw [Bool.and_eq_true, subsetExact, subsetExact]
  exact ⟨fun h x => ⟨h.1 x, h.2 x⟩, fun h => ⟨fun x => (h x).mp, fun x => (h x).mpr⟩⟩

def hasTwo (s : Names) : Bool := decide (2 ≤ s.members.length)

theorem hasTwoExact {s : Names} : s.hasTwo = true ↔ ∃ a ∈ s, ∃ b ∈ s, a ≠ b := by
  obtain ⟨members, distinct⟩ := s
  simp only [hasTwo, decide_eq_true_eq]
  change 2 ≤ members.length ↔ ∃ a ∈ members, ∃ b ∈ members, a ≠ b
  match members, distinct with
  | [], _ => simp
  | [a], _ => simp
  | a :: b :: rest, distinct =>
    have apart : a ≠ b := by
      intro same
      exact (List.nodup_cons.mp distinct).1 (by simp [same])
    simp only [List.length_cons]
    exact ⟨fun _ => ⟨a, by simp, b, by simp, apart⟩, fun _ => by omega⟩

def sortTexts (texts : List String) : List String :=
  texts.mergeSort fun a b => decide (a ≤ b)

def texts (s : Names) : List String := sortTexts (s.members.map Identifier.render)

end Names
end Abstraction
