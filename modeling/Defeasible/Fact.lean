import Defeasible.Term
import Defeasible.Error
import Defeasible.Number.Integer

/-!
Facts. A predicate may be stored as a fact if all its names are there, it has no
variables, and, when it is a timed fact, it pairs an event with a whole number.
-/

namespace Defeasible

/-- The name of timed facts `HappensAt(event, time)`. -/
def timedName : String := "HappensAt"

namespace Predicate

def isTimed (p : Predicate) : Bool := p.name == timedName

/-- The fact that the event happens at the time. -/
def happensAt (event : Predicate) (time : Int) : Predicate :=
  ⟨timedName, [event.toTerm, .const (toString time)]⟩

end Predicate

/-- Checks that a predicate may be stored as a fact. Of several faults the
first in the order of the module's description is reported. -/
def validateFact (p : Predicate) : Except Error Unit :=
  if p.hasUnnamed then .error .emptyName
  else if !p.isGround then .error (.nonGroundFact p.text)
  else if !p.isTimed then .ok ()
  else
    match p.args with
    | [.app .., .const time] =>
        if (wordOfText? time).isSome then .ok ()
        else .error (.malformedTimedFact p.text "time must be an integer constant")
    | [_, _] =>
        .error (.malformedTimedFact p.text "expected an event predicate and a time constant")
    | _ => .error (.malformedTimedFact p.text "expected exactly two terms")

end Defeasible
