import Defeasible.KnowledgeBase
import Defeasible.Unification

/-!
Forward chaining. A pass collects every new valid fact that some rule concludes
from a stored fact, and stores them all; passes follow one another until one
finds nothing or their number reaches a limit.
-/

namespace Defeasible

variable {Time : Type}

/-- The facts stored by a run of passes, the number of passes, the last one that
found nothing included, and whether such a pass ended the run. -/
structure Saturation where
  derived : OrderedSet Predicate := ∅
  passes : Nat := 0
  reachedFixpoint : Bool := false

namespace KnowledgeBase

/-- The ordinary facts and then the timed ones. -/
def known (kb : KnowledgeBase Time) : List Predicate := kb.facts.keys ++ kb.timed

/-- What the rule concludes from the fact, if its premise matches. -/
def conclude? (rule : Rule) (fact : Predicate) : Option Predicate :=
  (unifyPredicates rule.premise fact ∅).map fun s => s.apply rule.conclusion

/-- The new valid facts that a single rule application concludes. -/
def consequences (kb : KnowledgeBase Time) : OrderedSet Predicate :=
  let conclusions := kb.rules.flatMap fun rule => kb.known.filterMap (conclude? rule)
  .ofList (conclusions.filter fun p => !kb.containsFact p && (validateFact p).toBool)

/-- Stores a derived fact. -/
def insertDerived (kb : KnowledgeBase Time) (p : Predicate) : KnowledgeBase Time :=
  let kb := (kb.insertFact p none).2
  { kb with derived := kb.derived.insert p () }

/-- At most the given number of further passes. -/
def saturateFrom (kb : KnowledgeBase Time) (soFar : Saturation) :
    Nat → Saturation × KnowledgeBase Time
  | 0 => (soFar, kb)
  | passes + 1 =>
      let soFar := { soFar with passes := soFar.passes + 1 }
      let fresh := kb.consequences.toList
      if fresh.isEmpty then ({ soFar with reachedFixpoint := true }, kb)
      else
        let derived := fresh.foldl (fun set p => set.insert p ()) soFar.derived
        (fresh.foldl insertDerived kb).saturateFrom { soFar with derived := derived } passes

def saturate (kb : KnowledgeBase Time) (maxPasses : Nat) : Saturation × KnowledgeBase Time :=
  kb.saturateFrom {} maxPasses

end KnowledgeBase

end Defeasible
