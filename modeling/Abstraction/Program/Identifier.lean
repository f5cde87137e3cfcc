/-! Program variables and the scopes they are hidden under, the innermost first. Entering a call hides every
identifier of the caller under the call's token; leaving it restores them. -/
namespace Abstraction

inductive ScopeToken where
  | none
  | text (value : String)
  | number (value : Int)
  deriving DecidableEq, Repr

def ScopeToken.render : ScopeToken → String
  | .none => "None"
  | .text s => s
  | .number n => toString n

structure Identifier where
  name : String
  scopes : List ScopeToken
  deriving DecidableEq, Repr

namespace Identifier

def visible (name : String) : Identifier := ⟨name, []⟩

def isHidden (i : Identifier) : Bool := !i.scopes.isEmpty

def scope (i : Identifier) : ScopeToken := i.scopes.head?.getD .none

def hide (token : ScopeToken) (i : Identifier) : Identifier := ⟨i.name, token :: i.scopes⟩

def restore (i : Identifier) : Identifier := ⟨i.name, i.scopes.tail⟩

theorem restoreHide (token : ScopeToken) (i : Identifier) : (i.hide token).restore = i := rfl

theorem hideInjective {token : ScopeToken} {i j : Identifier} (h : i.hide token = j.hide token) :
    i = j := by
  rw [← restoreHide token i, h, restoreHide]

/-- What becomes of an identifier when the scope of `token` is left: restored if that scope is its
innermost, kept under any other, dropped if it is a local of the scope. -/
def leave (token : ScopeToken) (i : Identifier) : Option Identifier :=
  if i.scope = token then some i.restore
  else if i.isHidden then some i
  else none

theorem leaveHide (token : ScopeToken) (i : Identifier) :
    (i.hide token).leave token = some i := by
  simp [leave, hide, scope, restore]

theorem hiddenHide (token : ScopeToken) (i : Identifier) : (i.hide token).isHidden = true := rfl

theorem leaveVisible {token : ScopeToken} {i : Identifier} (scope : token ≠ .none)
    (visible : i.isHidden = false) : i.leave token = none := by
  obtain ⟨name, scopes⟩ := i
  cases scopes with
  | nil => exact if_neg fun same => scope same.symm
  | cons => contradiction

def render (i : Identifier) : String :=
  match i.scopes with
  | [] => i.name
  | token :: _ => i.name ++ "@" ++ token.render

end Identifier
end Abstraction
