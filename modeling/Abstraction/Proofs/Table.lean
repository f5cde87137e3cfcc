import Mathlib.Data.List.Nodup
import Abstraction.Table

/-! Keys of tables, tables built entry by entry, and tables with renamed keys. Renaming keeps every
entry as long as no two keys become one. -/
namespace Abstraction.Table

variable {α : Type}

theorem findOfKey {t : Table α} {k : Identifier} (listed : k ∈ t.keys) : ∃ v, t.find k = some v :=
  containsExact.mp (decide_eq_true listed)

theorem memKeysOfBoth {s t : Table α} {k : Identifier} :
    k ∈ s.keysOfBoth t ↔ k ∈ s.keys ∨ k ∈ t.keys := by
  rw [keysOfBoth, List.mem_append, List.mem_filter]
  by_cases first : k ∈ s.keys <;> simp [contains, first]

theorem keysMapValues {β : Type} {t : Table α} {f : Identifier → α → β} :
    (t.mapValues f).keys = t.keys := by
  simp [keys, mapValues]

theorem sameOfFind [BEq α] {s t : Table α} (same : ∀ k, (s.find k == t.find k) = true) :
    s.same t = true := by
  refine Bool.and_eq_true_iff.mpr ⟨List.all_eq_true.mpr fun k inside => ?_,
    List.all_eq_true.mpr fun k _ => same k⟩
  obtain ⟨v, found⟩ := findOfKey inside
  have equal := same k
  rw [found] at equal
  cases other : t.find k with
  | none => rw [other] at equal; contradiction
  | some w => exact containsExact.mpr ⟨w, other⟩

theorem findFold {t : Table α} {entries : List (Identifier × α)}
    (distinct : (entries.map Prod.fst).Nodup) {k : Identifier} {v : α} :
    (entries.foldl (fun t entry => t.set entry.1 entry.2) t).find k = some v ↔
      (k, v) ∈ entries ∨ (k ∉ entries.map Prod.fst ∧ t.find k = some v) := by
  induction entries generalizing t with
  | nil => simp
  | cons entry rest ih =>
    obtain ⟨j, w⟩ := entry
    obtain ⟨fresh, distinct⟩ := List.nodup_cons.mp distinct
    rw [List.foldl_cons, ih distinct, findSet]
    simp only [List.mem_cons, Prod.mk.injEq, List.map_cons, not_or]
    by_cases same : k = j
    · subst same
      have gone : (k, v) ∉ rest := fun inside => fresh (List.mem_map.mpr ⟨_, inside, rfl⟩)
      have absent : k ∉ List.map Prod.fst rest := fresh
      simp [gone, absent, eq_comm]
    · simp [same]

theorem findOfList {entries : List (Identifier × α)} (distinct : (entries.map Prod.fst).Nodup)
    {k : Identifier} {v : α} : (ofList entries).find k = some v ↔ (k, v) ∈ entries := by
  rw [ofList, findFold distinct]
  simp [findEmpty]

theorem foldSource {t : Table α} {entries : List (Identifier × α)} {k : Identifier} {v : α}
    (found : (entries.foldl (fun t entry => t.set entry.1 entry.2) t).find k = some v) :
    (k, v) ∈ entries ∨ t.find k = some v := by
  induction entries generalizing t with
  | nil => exact .inr found
  | cons entry rest ih =>
    rcases ih found with inside | earlier
    · exact .inl (List.mem_cons_of_mem entry inside)
    · rw [findSet] at earlier
      split at earlier
      · rename_i same
        cases Option.some.inj earlier
        exact .inl (by rw [same]; exact List.mem_cons_self)
      · exact .inr earlier

theorem renameKeysSource {t : Table α} {f : Identifier → Option Identifier} {k : Identifier} {v : α}
    (found : (t.renameKeys f).find k = some v) : ∃ x, f x = some k ∧ t.find x = some v := by
  rcases foldSource found with inside | absent
  · obtain ⟨⟨x, w⟩, stored, renamed⟩ := List.mem_filterMap.mp inside
    obtain ⟨j, target, same⟩ := Option.map_eq_some_iff.mp renamed
    cases same
    exact ⟨x, target, findExact.mpr stored⟩
  · contradiction

def Apart (f : Identifier → Option Identifier) : Prop :=
  ∀ x y k, f x = some k → f y = some k → x = y

def ApartOn (t : Table α) (f : Identifier → Option Identifier) : Prop :=
  ∀ x ∈ t.keys, ∀ y ∈ t.keys, ∀ k, f x = some k → f y = some k → x = y

theorem Apart.on {f : Identifier → Option Identifier} (apart : Apart f) (t : Table α) :
    t.ApartOn f := fun x _ y _ => apart x y

theorem hideApart (token : ScopeToken) : Apart fun i => some (i.hide token) :=
  fun _ _ _ first second => Identifier.hideInjective (Option.some.inj (first.trans second.symm))

theorem findRenameKeys {t : Table α} {f : Identifier → Option Identifier} (apart : t.ApartOn f)
    {k : Identifier} {v : α} :
    (t.renameKeys f).find k = some v ↔ ∃ x, f x = some k ∧ t.find x = some v := by
  have keys : (t.entries.filterMap fun entry => (f entry.1).map fun key => (key, entry.2)).map
      Prod.fst = t.keys.filterMap f := by
    rw [keys, List.map_filterMap, List.filterMap_map]
    congr 1
    funext entry
    cases found : f entry.1 <;> simp [found]
  have distinct : (t.keys.filterMap f).Nodup := by
    refine List.Pairwise.filterMap f ?_ (List.Pairwise.and_mem.mp t.distinct)
    intro x y known j left i right same
    subst same
    exact known.2.2 (apart x known.1 y known.2.1 j left right)
  refine ⟨renameKeysSource, fun known => ?_⟩
  obtain ⟨x, renamed, found⟩ := known
  rw [renameKeys, findOfList (by rw [keys]; exact distinct), List.mem_filterMap]
  exact ⟨(x, v), findExact.mp found, by simp [renamed]⟩

end Abstraction.Table
