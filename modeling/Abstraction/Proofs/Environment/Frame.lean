import Abstraction.Proofs.Environment.Invariant

/-! What operations on an environment leave alone. The identifiers that an operation mentions are the
only ones whose entries it changes, and leaving a scope brings back what entering it has hidden. -/
namespace Abstraction.Environment

variable {V : Type} {base env next : Environment V} {on : Identifier → Bool}

structure Kept (on : Identifier → Bool) (base next : Environment V) : Prop where
  possible : base.isBottom = false
  entries : ∀ k, on k = true → next.table.find k = base.table.find k

def Keeps (on : Identifier → Bool) (base next : Environment V) : Prop :=
  next.isBottom = false → Kept on base next

theorem keepsSelf (on : Identifier → Bool) (env : Environment V) : Keeps on env env :=
  fun possible => ⟨possible, fun _ _ => rfl⟩

theorem Keeps.trans (first : Keeps on base env) (second : Keeps (fun _ => true) env next) :
    Keeps on base next := by
  intro possible
  have later := second possible
  have earlier := first later.possible
  exact ⟨earlier.possible, fun k inside =>
    (later.entries k rfl).trans (earlier.entries k inside)⟩

theorem Keeps.filter (keeps : Keeps on base env) {keep : Identifier → V → Bool}
    (possible : env.isBottom = false) (spared : ∀ k v, on k = true → keep k v = true) :
    Keeps on base ⟨.value, env.table.filter keep⟩ := by
  intro _
  have kept := keeps possible
  refine ⟨kept.possible, fun k inside => ?_⟩
  rw [← kept.entries k inside, Table.findFilter]
  cases env.table.find k with
  | none => rfl
  | some v => exact Option.filter_some_pos (spared k v inside)

theorem Keeps.forget (keeps : Keeps on base env) {id : Identifier} (outside : on id = false) :
    Keeps on base (env.forget id) := by
  unfold Environment.forget
  split
  · exact keeps
  · rename_i known
    rw [Bool.or_eq_true, not_or] at known
    refine keeps.filter (Bool.eq_false_iff.mpr known.1) fun k _ inside => decide_eq_true ?_
    exact ne_of_apply_ne on (by simp [inside, outside])

theorem Keeps.forgetIf (keeps : Keeps on base env) {drop : Identifier → Bool}
    (outside : ∀ k, drop k = true → on k = false) : Keeps on base (env.forgetIf drop) := by
  unfold Environment.forgetIf
  split
  · exact keeps
  · rename_i possible
    refine keeps.filter (Bool.eq_false_iff.mpr possible) fun k _ inside => ?_
    cases dropped : drop k with
    | false => rfl
    | true => rw [outside k dropped] at inside; contradiction

section Steps
variable [ValueDomain V] {id : Identifier} {e : Expr}

theorem Keeps.put (keeps : Keeps on base env) (outside : on id = false) (v : V) :
    Keeps on base (env.put id v) := by
  unfold Environment.put
  split
  · exact keeps
  · rename_i known
    intro possible
    have kept := keeps (Bool.eq_false_iff.mpr known)
    refine ⟨kept.possible, fun k inside => ?_⟩
    have other : k ≠ id := ne_of_apply_ne on (by simp [inside, outside])
    rw [keptOfTable possible]
    exact (Table.findSet.trans (if_neg other)).trans (kept.entries k inside)

theorem Keeps.putOperand (keeps : Keeps on base env) (outside : ∀ id, e.Mentions id → on id = false)
    (v : V) : Keeps on base (env.putOperand e v) := by
  cases e with
  | identifier id => exact keeps.put (outside id rfl) v
  | _ => exact keeps

theorem Keeps.assign (keeps : Keeps on base env) (outside : on id = false)
    (ok : env.assign id e = .ok next) : Keeps on base next := by
  cases possible : env.isBottom with
  | true =>
    rw [Environment.assign, if_pos possible] at ok
    cases ok; exact keeps
  | false =>
    obtain ⟨v, _, rfl⟩ := assignSource possible ok
    exact keeps.put outside v

theorem Keeps.assume (keeps : Keeps on base env) (outside : ∀ id, e.Mentions id → on id = false)
    (ok : env.assume e = .ok next) : Keeps on base next := by
  cases assumed ok with
  | impossible => exact fun possible => by contradiction
  | kept => exact keeps
  | refined _ operands =>
    have first := keeps.putOperand fun id mentioned => outside id (operands id (.inl mentioned))
    exact (first _).putOperand (fun id mentioned => outside id (operands id (.inr mentioned))) _

end Steps

section Scopes
variable {token : ScopeToken}

theorem findPushScope (possible : env.isBottom = false) {k : Identifier} {v : V} :
    (env.pushScope token).table.find k = some v ↔
      ∃ i, i.hide token = k ∧ env.table.find i = some v := by
  rw [pushScope, renameKeys, if_neg (by simp [possible]),
    Table.findRenameKeys ((Table.hideApart token).on _)]
  simp only [Option.some.injEq]

/- Whatever is hidden comes from the caller and is hidden under the token, so that leaving restores it
to where it was. Visible entries are locals of the call and vanish. -/
theorem restored {x k : Identifier} {v : V} (scope : token ≠ .none)
    (keeps : Keeps Identifier.isHidden (env.pushScope token) next) (possible : next.isBottom = false)
    (found : next.table.find x = some v) (left : x.leave token = some k) :
    x = k.hide token ∧ env.table.find k = some v := by
  have kept := keeps possible
  have before : env.isBottom = false := (isBottomRenameKeys env _).symm.trans kept.possible
  cases hidden : x.isHidden with
  | false =>
    rw [Identifier.leaveVisible scope hidden] at left
    contradiction
  | true =>
    rw [kept.entries x hidden] at found
    obtain ⟨i, rfl, stored⟩ := (findPushScope before).mp found
    rw [Identifier.leaveHide] at left
    cases left
    exact ⟨rfl, stored⟩

theorem popScopeKeeps (scope : token ≠ .none)
    (keeps : Keeps Identifier.isHidden (env.pushScope token) next) :
    Keeps (fun _ => true) env (next.popScope token) := by
  intro after
  have possible : next.isBottom = false := (isBottomRenameKeys next _).symm.trans after
  have kept := keeps possible
  have before : env.isBottom = false := (isBottomRenameKeys env _).symm.trans kept.possible
  have source {x k : Identifier} (listed : x ∈ next.table.keys) (left : x.leave token = some k) :
      x = k.hide token := by
    obtain ⟨v, found⟩ := Table.findOfKey listed
    exact (restored scope keeps possible found left).1
  have apart : next.table.ApartOn fun id => id.leave token :=
    fun x listed y listed' k left left' => (source listed left).trans (source listed' left').symm
  refine ⟨before, fun k _ => Option.ext fun v => ?_⟩
  rw [popScope, renameKeys, if_neg (by simp [possible]), Table.findRenameKeys apart]
  constructor
  · intro known
    obtain ⟨x, left, found⟩ := known
    exact (restored scope keeps possible found left).2
  · intro stored
    refine ⟨k.hide token, Identifier.leaveHide token k, ?_⟩
    rw [kept.entries _ (Identifier.hiddenHide token k)]
    exact (findPushScope before).mpr ⟨k, rfl, stored⟩

theorem sameOfKeeps [BEq V] [ReflBEq V] (keeps : Keeps (fun _ => true) env next)
    (possible : next.isBottom = false) (declared : env.Declared) (declared' : next.Declared) :
    next.same env = true := by
  have kept := keeps possible
  refine Bool.and_eq_true_iff.mpr ⟨?_, Table.sameOfFind fun k => ?_⟩
  · rw [declared.possible kept.possible, declared'.possible possible]
    rfl
  · rw [kept.entries k rfl]
    exact BEq.rfl

end Scopes
end Abstraction.Environment
