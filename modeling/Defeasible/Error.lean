import Defeasible.Number.Shortest

/-!
What can go wrong. A failed unification or an unproved goal is an answer, not an
error; errors are texts and values that are not what they have to be, a query
runner that has no room or no time, and a store that may no longer be used.
-/

namespace Defeasible

inductive Error where
  | nonGroundFact (fact : String)
  | malformedTimedFact (fact reason : String)
  | certaintyOutOfRange (value : Single)
  | emptyName
  | invalidIdentifier (name : String)
  | unreadable (input : String) (offset : Nat) (reason : String)
  | timeout (milliseconds : Nat)
  | queueFull (pool : String) (capacity : Nat)
  | disconnected (pool : String)
  | workerNotStarted (worker reason : String)
  | internal (cause : String)
deriving DecidableEq, Repr

namespace Error

inductive Category where
  | validation
  | execution
  | internal
deriving DecidableEq, Repr

def category : Error → Category
  | .nonGroundFact _ | .malformedTimedFact .. | .certaintyOutOfRange _ | .emptyName
  | .invalidIdentifier _ | .unreadable .. => .validation
  | .timeout _ | .queueFull .. | .disconnected _ | .workerNotStarted .. => .execution
  | .internal _ => .internal

/-- Trying the same again may succeed. -/
def isRetryable : Error → Bool
  | .timeout _ | .queueFull .. => true
  | _ => false

def Category.label : Category → String
  | .validation => "Validation error: "
  | .execution => "Execution error: "
  | .internal => "Internal error: "

/-- What went wrong, without the category. -/
def detail : Error → String
  | .nonGroundFact fact => "Fact '" ++ fact ++ "' is not ground: facts may not contain variables"
  | .malformedTimedFact fact reason => "Malformed temporal fact '" ++ fact ++ "': " ++ reason
  | .certaintyOutOfRange value =>
      "Certainty value " ++ value.text ++ " is out of range [0.0, 1.0]"
  | .emptyName => "Name cannot be empty"
  | .invalidIdentifier name => "Invalid identifier '" ++ name ++ "'"
  | .unreadable input offset reason =>
      "Parse error at offset " ++ toString offset ++ " in '" ++ input ++ "': " ++ reason
  | .timeout milliseconds => "Query timed out after " ++ toString milliseconds ++ "ms"
  | .queueFull pool capacity =>
      "Queue full on " ++ pool ++ " pool (capacity " ++ toString capacity ++ ")"
  | .disconnected pool => "Worker pool " ++ pool ++ " disconnected"
  | .workerNotStarted worker reason => "Failed to spawn worker '" ++ worker ++ "': " ++ reason
  | .internal cause => cause

def message (e : Error) : String := e.category.label ++ e.detail

end Error

end Defeasible
