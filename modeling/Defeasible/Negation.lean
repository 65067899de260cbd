import Defeasible.Term
import Defeasible.Text.Uppercase
import Defeasible.Text.Cut

/-!
Structural negation. The negation of `P(args)` is `NotP(args)`, and a name that
already reads as a negation loses its mark instead. The mark counts only before
an uppercase letter: `Nothing` is not the negation of `hing`.
-/

namespace Defeasible

/-- What a negated name negates: the rest after `Not`, if that rest starts
with an uppercase letter. -/
def negatedName? (name : String) : Option String :=
  match Text.stripStart? ['N', 'o', 't'] name.toList with
  | some (c :: cs) => if Text.isUppercase c then some (String.ofList (c :: cs)) else none
  | _ => none

namespace Predicate

def isNegated (p : Predicate) : Bool := (negatedName? p.name).isSome

/-- The structural negation, over the same arguments. -/
def negated (p : Predicate) : Predicate :=
  { p with name := (negatedName? p.name).getD ("Not" ++ p.name) }

/-- The predicate itself, or what it negates. -/
def positive (p : Predicate) : Predicate :=
  if p.isNegated then p.negated else p

end Predicate

end Defeasible
