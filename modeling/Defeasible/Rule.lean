import Defeasible.Term
import Defeasible.Certainty

/-!
Rules. A rule concludes its conclusion whenever its premise holds. A default rule
does so normally: not for instances excepted from it, and not against evidence
for the contrary. Its priority settles which of two competing defaults yields.
-/

namespace Defeasible

structure Rule where
  premise : Predicate
  conclusion : Predicate
deriving DecidableEq, Repr, Inhabited

def Rule.text (r : Rule) : String := r.premise.text ++ " -> " ++ r.conclusion.text

structure DefaultRule where
  premise : Predicate
  conclusion : Predicate
  priority : Certainty := .full
deriving DecidableEq, Repr, Inhabited

/-- The rule as text, with its priority unless that is full. -/
def DefaultRule.text (r : DefaultRule) : String :=
  r.premise.text ++ " ~> " ++ r.conclusion.text
    ++ if r.priority = .full then "" else " @ " ++ r.priority.text

/-- A premise instance for which a default rule is out of force. -/
structure RuleException where
  rule : DefaultRule
  excluded : Predicate
deriving DecidableEq, Repr

def RuleException.text (e : RuleException) : String :=
  "NOT " ++ e.excluded.text ++ " for [" ++ e.rule.text ++ "]"

end Defeasible
