import Abstraction.Program.Identifier

/-! Tables from identifiers to values, in the order in which the keys arrived; a key set again keeps
its place. Apart from the order of their texts, tables are seen through `find` only. -/
namespace Abstraction

structure Table (α : Type) where
  entries : List (Identifier × α)
  distinct : (entries.map Prod.fst).Nodup

namespace Table

variable {α β : Type}

def lookup (key : Identifier) : List (Identifier × α) → Option α
  | [] => none
  | (k, v) :: rest => if k = key then some v else lookup key rest

theorem lookupNone {key : Identifier} {entries : List (Identifier × α)} :
    lookup key entries = none ↔ key ∉ entries.map Prod.fst := by
  induction entries with
  | nil => simp [lookup]
  | cons entry rest ih =>
    obtain ⟨k, v⟩ := entry
    simp only [lookup, List.map_cons, List.mem_cons, not_or]
    split
    · rename_i same; simp [same]
    · rename_i other; simp [ih, Ne.symm other]

theorem lookupSome {key : Identifier} {entries : List (Identifier × α)}
    (distinct : (entries.map Prod.fst).Nodup) {v : α} :
    lookup key entries = some v ↔ (key, v) ∈ entries := by
  induction entries with
  | nil => simp [lookup]
  | cons entry rest ih =>
    obtain ⟨k, w⟩ := entry
    obtain ⟨fresh, distinct⟩ := List.nodup_cons.mp distinct
    simp only [lookup, List.mem_cons, Prod.mk.injEq]
    split
    · rename_i same
      subst same
      constructor
      · intro h; exact Or.inl ⟨rfl, (Option.some.inj h).symm⟩
      · rintro (⟨_, rfl⟩ | inside)
        · rfl
        · exact absurd (List.mem_map.mpr ⟨(k, v), inside, rfl⟩) fresh
    · rename_i other
      rw [ih distinct]
      simp [Ne.symm other]

def find (t : Table α) (key : Identifier) : Option α := lookup key t.entries

theorem findExact {t : Table α} {key : Identifier} {v : α} :
    t.find key = some v ↔ (key, v) ∈ t.entries :=
  lookupSome t.distinct

def keys (t : Table α) : List Identifier := t.entries.map Prod.fst

theorem keyOfFind {t : Table α} {k : Identifier} {v : α} (found : t.find k = some v) : k ∈ t.keys :=
  List.mem_map.mpr ⟨(k, v), findExact.mp found, rfl⟩

def contains (t : Table α) (key : Identifier) : Bool := decide (key ∈ t.keys)

theorem containsExact {t : Table α} {key : Identifier} :
    t.contains key = true ↔ ∃ v, t.find key = some v := by
  rw [contains, decide_eq_true_eq]
  constructor
  · intro inside
    cases found : t.find key with
    | none => exact absurd inside (lookupNone.mp found)
    | some v => exact ⟨v, rfl⟩
  · rintro ⟨v, found⟩
    exact List.mem_map.mpr ⟨_, findExact.mp found, rfl⟩

def empty : Table α := ⟨[], List.nodup_nil⟩

instance : EmptyCollection (Table α) := ⟨empty⟩

theorem findEmpty (key : Identifier) : (∅ : Table α).find key = none := rfl

def isEmpty (t : Table α) : Bool := t.entries.isEmpty

def put (key : Identifier) (v : α) : List (Identifier × α) → List (Identifier × α)
  | [] => [(key, v)]
  | (k, w) :: rest => if k = key then (k, v) :: rest else (k, w) :: put key v rest

theorem memPutKeys {key k : Identifier} {v : α} {entries : List (Identifier × α)} :
    k ∈ (put key v entries).map Prod.fst ↔ k = key ∨ k ∈ entries.map Prod.fst := by
  induction entries with
  | nil => simp [put]
  | cons entry rest ih =>
    obtain ⟨j, w⟩ := entry
    simp only [put]
    split
    · rename_i same; subst same; simp
    · simp only [List.map_cons, List.mem_cons, ih]
      exact or_left_comm

theorem putDistinct {key : Identifier} {v : α} {entries : List (Identifier × α)}
    (distinct : (entries.map Prod.fst).Nodup) : ((put key v entries).map Prod.fst).Nodup := by
  induction entries with
  | nil => simp [put]
  | cons entry rest ih =>
    obtain ⟨j, w⟩ := entry
    obtain ⟨fresh, unique⟩ := List.nodup_cons.mp distinct
    simp only [put]
    split
    · exact List.nodup_cons.mpr ⟨fresh, unique⟩
    · rename_i other
      refine List.nodup_cons.mpr ⟨?_, ih unique⟩
      rw [memPutKeys]
      rintro (same | inside)
      · exact other same
      · exact fresh inside

theorem lookupPut {key k : Identifier} {v : α} {entries : List (Identifier × α)} :
    lookup k (put key v entries) = if k = key then some v else lookup k entries := by
  induction entries with
  | nil => simp only [put, lookup]; split <;> split <;> simp_all
  | cons entry rest ih =>
    obtain ⟨j, w⟩ := entry
    by_cases same : j = key
    · subst same
      by_cases hit : k = j
      · subst hit; simp [put, lookup]
      · simp [put, lookup, hit, Ne.symm hit]
    · by_cases hit : j = k
      · subst hit; simp [put, lookup, same]
      · simp [put, lookup, same, hit, ih]

def set (t : Table α) (key : Identifier) (v : α) : Table α :=
  ⟨put key v t.entries, putDistinct t.distinct⟩

theorem findSet {t : Table α} {key k : Identifier} {v : α} :
    (t.set key v).find k = if k = key then some v else t.find k :=
  lookupPut

theorem putKeys {key : Identifier} {v : α} {entries : List (Identifier × α)}
    (listed : key ∈ entries.map Prod.fst) :
    (put key v entries).map Prod.fst = entries.map Prod.fst := by
  induction entries with
  | nil => contradiction
  | cons entry rest ih =>
    obtain ⟨j, w⟩ := entry
    simp only [put]
    split
    · rfl
    · rename_i other
      have later : key ∈ rest.map Prod.fst := (List.mem_cons.mp listed).resolve_left (Ne.symm other)
      rw [List.map_cons, List.map_cons, ih later]

theorem keysSet {t : Table α} {key : Identifier} {v : α} (listed : key ∈ t.keys) :
    (t.set key v).keys = t.keys :=
  putKeys listed

def ofList (entries : List (Identifier × α)) : Table α :=
  entries.foldl (fun t entry => t.set entry.1 entry.2) ∅

def filter (t : Table α) (keep : Identifier → α → Bool) : Table α :=
  ⟨t.entries.filter fun entry => keep entry.1 entry.2,
    (List.Sublist.map Prod.fst List.filter_sublist).nodup t.distinct⟩

theorem findFilter {t : Table α} {keep : Identifier → α → Bool} {k : Identifier} :
    (t.filter keep).find k = (t.find k).filter (keep k) := by
  apply Option.ext
  intro v
  rw [findExact, Option.filter_eq_some_iff, findExact]
  exact List.mem_filter

def mapValues (t : Table α) (f : Identifier → α → β) : Table β :=
  ⟨t.entries.map fun entry => (entry.1, f entry.1 entry.2), by
    have same : (t.entries.map fun entry => (entry.1, f entry.1 entry.2)).map Prod.fst
        = t.entries.map Prod.fst := by simp
    rw [same]; exact t.distinct⟩

theorem lookupMapValues {f : Identifier → α → β} {k : Identifier}
    {entries : List (Identifier × α)} :
    lookup k (entries.map fun entry => (entry.1, f entry.1 entry.2)) =
      (lookup k entries).map (f k) := by
  induction entries with
  | nil => rfl
  | cons entry rest ih =>
    obtain ⟨j, w⟩ := entry
    simp only [List.map_cons, lookup]
    split
    · rename_i same; subst same; rfl
    · exact ih

theorem findMapValues {t : Table α} {f : Identifier → α → β} {k : Identifier} :
    (t.mapValues f).find k = (t.find k).map (f k) :=
  lookupMapValues

/-- A key renamed to nothing loses its entry; of two renamed alike the later value stays. -/
def renameKeys (t : Table α) (f : Identifier → Option Identifier) : Table α :=
  ofList (t.entries.filterMap fun entry => (f entry.1).map fun key => (key, entry.2))

def keysOfBoth (s : Table α) (t : Table β) : List Identifier :=
  s.keys ++ t.keys.filter fun k => !s.contains k

theorem keysOfBothDistinct (s : Table α) (t : Table β) : (keysOfBoth s t).Nodup := by
  refine List.nodup_append.mpr ⟨s.distinct, List.Pairwise.filter _ t.distinct, ?_⟩
  intro a left b right same
  subst same
  have absent := (List.mem_filter.mp right).2
  simp [contains, left] at absent

def tabulate (keys : List Identifier) (distinct : keys.Nodup) (f : Identifier → α) : Table α :=
  ⟨keys.map fun k => (k, f k), by
    have same : (keys.map fun k => (k, f k)).map Prod.fst = keys := by simp [Function.comp_def]
    rw [same]; exact distinct⟩

theorem findTabulate {keys : List Identifier} {distinct : keys.Nodup} {f : Identifier → α}
    {k : Identifier} :
    (tabulate keys distinct f).find k = if k ∈ keys then some (f k) else none := by
  apply Option.ext
  intro v
  rw [findExact]
  change (k, v) ∈ keys.map (fun k => (k, f k)) ↔ _
  simp only [List.mem_map, Prod.mk.injEq]
  split
  · rename_i inside
    constructor
    · rintro ⟨_, _, rfl, rfl⟩; rfl
    · intro h; exact ⟨k, inside, rfl, Option.some.inj h⟩
  · rename_i outside
    constructor
    · rintro ⟨_, inside, rfl, _⟩; exact absurd inside outside
    · intro h; contradiction

def anyValue (t : Table α) (p : α → Bool) : Bool := t.entries.any fun entry => p entry.2

theorem anyValueExact {t : Table α} {p : α → Bool} :
    t.anyValue p = true ↔ ∃ k v, t.find k = some v ∧ p v = true := by
  simp only [anyValue, List.any_eq_true, findExact, Prod.exists]

def same [BEq α] (s t : Table α) : Bool :=
  s.keys.all (fun k => t.contains k) && t.keys.all (fun k => s.find k == t.find k)

def sorted (t : Table α) : List (Identifier × α) :=
  t.entries.mergeSort fun a b => decide (a.1.render ≤ b.1.render)

end Table
end Abstraction
