import Defeasible.KnowledgeBase
import Defeasible.Query
import Defeasible.Unification

/-!
The order of events in time, read off the timed facts. An event that is open
stands for the first recorded event it unifies with.
-/

namespace Defeasible

/-- The time of the first timed fact whose event unifies with the pattern. -/
def timestampOf (timed : List Predicate) (event : Predicate) : Option Int :=
  timed.findSome? fun fact =>
    match fact.args with
    | [.app f args, .const time] =>
        (unifyPredicates ⟨f, args⟩ event ∅).bind fun _ => wordOfText? time
    | _ => none

/-- The order holds between the times of the two events. Without both times it
does not. -/
def TimeQuery.holds (q : TimeQuery) (timed : List Predicate) : Bool :=
  match timestampOf timed q.first, timestampOf timed q.second with
  | some a, some b => q.order.holds a b
  | _, _ => false

end Defeasible
