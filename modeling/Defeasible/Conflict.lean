import Defeasible.KnowledgeBase

/-!
Conflicts between a candidate fact and a knowledge base: the negation of the
candidate is stored, or a default rule whose premise is stored concludes
something else than the candidate.
-/

namespace Defeasible

inductive Severity where
  | medium
  | high
deriving DecidableEq, Repr

def Severity.name : Severity → String
  | .medium => "medium"
  | .high => "high"

/-- What a candidate clashes with. -/
inductive ConflictKind where
  | contradiction (existing : Predicate) (existingCertainty : Certainty)
  | violation (rule : DefaultRule) (premise expected : Predicate)
deriving DecidableEq, Repr

namespace ConflictKind

def severity : ConflictKind → Severity
  | .contradiction .. => .high
  | .violation .. => .medium

def name : ConflictKind → String
  | .contradiction .. => "direct_contradiction"
  | .violation .. => "default_violation"

end ConflictKind

structure Conflict where
  candidate : Predicate
  certainty : Certainty
  kind : ConflictKind
deriving DecidableEq, Repr

namespace Conflict

def isContradiction (c : Conflict) : Bool :=
  match c.kind with
  | .contradiction .. => true
  | .violation .. => false

/-- The conflict described to whoever stated the candidate. -/
def text (c : Conflict) : String :=
  match c.kind with
  | .contradiction existing _ =>
      "contradiction between " ++ c.candidate.text ++ " and " ++ existing.text
        ++ ": both cannot hold; revise the reasoning that produced them"
  | .violation rule _ expected =>
      "default rule [" ++ rule.text ++ "] expected " ++ expected.text ++ " but found "
        ++ c.candidate.text
        ++ "; either this is a genuine exception or the reasoning is wrong"

end Conflict

end Defeasible
