import Defeasible.Term

/-!
Queries. A query asks for a proof of a goal, or for the order in time of two
events. Questions about time are recognised by their name and shape and are
never looked for among the facts.
-/

namespace Defeasible

/-- The order in time that a query asks about. -/
inductive TimeOrder where
  | before
  | after
deriving DecidableEq, Repr

namespace TimeOrder

def ofName? (name : String) : Option TimeOrder :=
  if name = "Before" then some .before
  else if name = "After" then some .after
  else none

def name : TimeOrder → String
  | .before => "Before"
  | .after => "After"

/-- The order holds strictly; equal times are in neither order. -/
def holds : TimeOrder → Int → Int → Bool
  | .before, a, b => a < b
  | .after, a, b => b < a

end TimeOrder

/-- A question about the order in time of two events, which may be open. -/
structure TimeQuery where
  order : TimeOrder
  first : Predicate
  second : Predicate
deriving DecidableEq, Repr

namespace TimeQuery

/-- Recognises `Before(A, B)` and `After(A, B)` over two applied terms. -/
def ofPredicate? (p : Predicate) : Option TimeQuery :=
  match TimeOrder.ofName? p.name, p.args with
  | some order, [.app f xs, .app g ys] => some ⟨order, ⟨f, xs⟩, ⟨g, ys⟩⟩
  | _, _ => none

def text (q : TimeQuery) : String :=
  q.order.name ++ "(" ++ q.first.text ++ ", " ++ q.second.text ++ ")"

end TimeQuery

inductive Query where
  | goal (goal : Predicate)
  | time (query : TimeQuery)
deriving DecidableEq, Repr

namespace Query

/-- A goal, unless the predicate has the shape of a question about time. -/
def ofPredicate (p : Predicate) : Query :=
  match TimeQuery.ofPredicate? p with
  | some q => .time q
  | none => .goal p

def text : Query → String
  | .goal p => p.text
  | .time q => q.text

end Query

end Defeasible
