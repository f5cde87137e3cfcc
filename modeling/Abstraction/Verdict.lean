/-! The answer to whether a state satisfies a condition. `contradiction` comes from a state that no
store satisfies, or from two answers that exclude each other. -/
namespace Abstraction

inductive Verdict where
  | holds
  | fails
  | unknown
  | contradiction
  deriving DecidableEq, Repr

namespace Verdict

def of (condition : Bool) : Verdict := if condition then .holds else .fails

def negate : Verdict → Verdict
  | .holds => .fails
  | .fails => .holds
  | .unknown => .unknown
  | .contradiction => .contradiction

def meet (a b : Verdict) : Verdict :=
  if a = b then a
  else if a = .unknown then b
  else if b = .unknown then a
  else .contradiction

def join (a b : Verdict) : Verdict :=
  if a = b then a
  else if a = .contradiction then b
  else if b = .contradiction then a
  else .unknown

def isDefinite : Verdict → Bool
  | .holds | .fails => true
  | .unknown | .contradiction => false

end Verdict

inductive Kind where
  | top
  | bottom
  | value
  deriving DecidableEq, Repr

def Kind.all : List Kind := [.top, .bottom, .value]

def topText : String := "⊤"
def bottomText : String := "⊥"

end Abstraction
