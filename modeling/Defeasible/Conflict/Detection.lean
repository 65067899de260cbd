import Defeasible.Conflict
import Defeasible.Negation
import Defeasible.Unification

/-!
Finding conflicts in a snapshot. Only stored facts count: no rule is applied
beyond the default rule in question.
-/

namespace Defeasible.Snapshot

/-- Binds the variables among the patterns to the values at their positions. -/
def bindPositions : List Term → List Term → Substitution → Option Substitution
  | .var v :: patterns, value :: values, s =>
      (unifyVariable v value s).bind (bindPositions patterns values)
  | _ :: patterns, _ :: values, s => bindPositions patterns values s
  | _, _, s => some s

/-- The first stored fact that matches the pattern and for which the rule is
not excepted, with the match. -/
def firstPremise (kb : Snapshot Time) (rule : DefaultRule) (pattern : Predicate)
    (s : Substitution) :
    Option (Predicate × Substitution) :=
  kb.predicates.findSome? fun fact =>
    if kb.isExcepted rule fact then none
    else (unifyPredicates pattern fact s).map fun bound => (fact, bound)

/-- The stored premise and the conclusion that the default rule draws from it
for the candidate's arguments, if that conclusion is another than the candidate.
The candidate's name and the conclusion's must agree up to negation. -/
def defaultViolation (kb : Snapshot Time) (rule : DefaultRule) (candidate : Predicate) :
    Option (Predicate × Predicate) := do
  let target := rule.conclusion.positive
  guard (candidate.positive.name = target.name && candidate.arity = target.arity)
  let bound ← bindPositions rule.conclusion.args candidate.args ∅
  let (premise, bound) ← kb.firstPremise rule (bound.apply rule.premise) bound
  let expected := bound.apply rule.conclusion
  guard (expected.isGround && expected != candidate)
  return (premise, expected)

/-- The stored negation of the candidate as a conflict. -/
def contradiction? (kb : Snapshot Time) (candidate : Predicate) (certainty : Certainty) :
    Option Conflict :=
  (kb.facts.find? fun f => f.predicate = candidate.negated).map fun f =>
    ⟨candidate, certainty, .contradiction f.predicate f.certainty⟩

/-- The default rules that the candidate violates, as conflicts. -/
def violations (kb : Snapshot Time) (candidate : Predicate) (certainty : Certainty) :
    List Conflict :=
  kb.defaultRules.filterMap fun rule =>
    (kb.defaultViolation rule candidate).map fun (premise, expected) =>
      ⟨candidate, certainty, .violation rule premise expected⟩

/-- The candidate's conflicts, a contradiction first. -/
def detect (kb : Snapshot Time) (candidate : Predicate) (certainty : Certainty) : List Conflict :=
  (kb.contradiction? candidate certainty).toList ++ kb.violations candidate certainty

/-- The conflicts among the stored facts, all contradictions first. A
contradiction is reported for the fact without the mark of negation. -/
def detectAll (kb : Snapshot Time) : List Conflict :=
  (kb.facts.filter fun f => !f.predicate.isNegated).filterMap
      (fun f => kb.contradiction? f.predicate f.certainty)
    ++ kb.facts.flatMap fun f => kb.violations f.predicate f.certainty

end Defeasible.Snapshot
