import Defeasible.Conflict

/-!
Resolving conflicts. Of two contradictory facts the strictly more certain one
stays, and on a tie neither does and both are flagged for review. A default rule
that the candidate violates is excepted for the premise in question. A strategy
lists the actions and the reasons for them; applying it to a knowledge base
tells what has changed.
-/

namespace Defeasible

variable {Time : Type}

/-- Which side of a contradiction stays. -/
inductive Verdict where
  | keepCandidate
  | keepExisting
  | tie
deriving DecidableEq, Repr

def weigh (candidate existing : Certainty) : Verdict :=
  if existing < candidate then .keepCandidate
  else if candidate < existing then .keepExisting
  else .tie

/-- A step of a resolution. A review names its conflict by the position in the
list of conflicts that is being resolved. -/
inductive Action where
  | retract (fact : Predicate)
  | reject (fact : Predicate)
  | review (conflict : Nat) (facts : List Predicate)
  | except (exception : RuleException)
deriving DecidableEq, Repr

def Action.text : Action → String
  | .retract fact => "retract " ++ fact.text
  | .reject fact => "reject " ++ fact.text
  | .review conflict facts =>
      "manual review of conflict #" ++ toString conflict ++ " ("
        ++ ", ".intercalate (facts.map Predicate.text) ++ ")"
  | .except exception => "add exception " ++ exception.text

structure Strategy where
  actions : List Action := []
  reasoning : List String := []
deriving DecidableEq, Repr

namespace Strategy

def requiresReview (s : Strategy) : Bool :=
  s.actions.any fun
    | .review .. => true
    | _ => false

def rejects (s : Strategy) (candidate : Predicate) : Bool :=
  s.actions.any fun
    | .reject fact => fact = candidate
    | _ => false

def append (s t : Strategy) : Strategy :=
  ⟨s.actions ++ t.actions, s.reasoning ++ t.reasoning⟩

instance : Append Strategy := ⟨append⟩

end Strategy

namespace Conflict

/-- What to do about the conflict at the given position. -/
def actions (c : Conflict) (position : Nat) : List Action :=
  match c.kind with
  | .contradiction existing existingCertainty =>
      match weigh c.certainty existingCertainty with
      | .keepCandidate => [.retract existing]
      | .keepExisting => [.reject c.candidate]
      | .tie => [.retract existing, .reject c.candidate,
          .review position [c.candidate, existing]]
  | .violation rule premise _ => [.except ⟨rule, premise⟩]

/-- Why that is to be done. -/
def reason (c : Conflict) : String :=
  match c.kind with
  | .contradiction existing existingCertainty =>
      match weigh c.certainty existingCertainty with
      | .keepCandidate =>
          "retract " ++ existing.text ++ " (certainty " ++ existingCertainty.twoPlaces
            ++ ") in favor of " ++ c.candidate.text ++ " (certainty " ++ c.certainty.twoPlaces ++ ")"
      | .keepExisting =>
          "reject " ++ c.candidate.text ++ " (certainty " ++ c.certainty.twoPlaces ++ "): "
            ++ existing.text ++ " is more certain (" ++ existingCertainty.twoPlaces ++ ")"
      | .tie =>
          "retract both " ++ c.candidate.text ++ " and " ++ existing.text ++ ": equal certainty "
            ++ c.certainty.twoPlaces ++ ", flagged for review"
  | .violation rule premise _ =>
      "add exception " ++ (RuleException.mk rule premise).text ++ " so " ++ c.candidate.text
        ++ " stands"

end Conflict

/-- The strategy for a list of conflicts, conflict by conflict. -/
def plan (conflicts : List Conflict) : Strategy where
  actions := conflicts.zipIdx.flatMap fun (c, position) => c.actions position
  reasoning := conflicts.map Conflict.reason

namespace KnowledgeBase

/-- Applies one action and describes the change, if there is one. -/
def applyAction (kb : KnowledgeBase Time) : Action → Option String × KnowledgeBase Time
  | .retract fact | .reject fact =>
      let (removed, kb) := kb.removeFact fact
      (if removed then some ("retracted " ++ fact.text) else none, kb)
  | .review .. => (none, kb)
  | .except exception =>
      let (added, kb) := kb.addException exception
      (if added then some ("added exception " ++ exception.text) else none, kb)

/-- Applies the actions in turn and describes the changes. -/
def applyActions (kb : KnowledgeBase Time) : List Action → List String × KnowledgeBase Time
  | [] => ([], kb)
  | action :: actions =>
      let (change, kb) := kb.applyAction action
      let (changes, kb) := kb.applyActions actions
      (change.toList ++ changes, kb)

def applyStrategy (kb : KnowledgeBase Time) (s : Strategy) : List String × KnowledgeBase Time :=
  kb.applyActions s.actions

end KnowledgeBase

end Defeasible
