import Defeasible.KnowledgeBase
import Defeasible.Unification
import Defeasible.Renaming

/-!
Backward chaining over a snapshot. A goal is proved by the first fact that
unifies with it, or else by the first rule, in the order of the rules, whose
conclusion unifies with it and whose premise is proved in turn.

The search has two limits: how many rules may be chained on one path, and how
many facts and rules may be tried in all. A search that met a limit and found no
proof is exhausted, which is not the same as failed: only a failed search has
tried everything.
-/

namespace Defeasible

variable {Time : Type}

structure Limits where
  maxDepth : Nat := 64
  maxSteps : Nat := 10000
  maxPasses : Nat := 256
deriving DecidableEq, Repr

inductive SearchResult where
  | proved (proof : Substitution)
  | failed
  | exhausted

/-- What a search has used and found so far: the facts and rules tried, the
rules renamed, and the ground goals proved by rules. -/
structure SearchState where
  steps : Nat := 0
  generation : Nat := 0
  derived : OrderedSet Predicate := ∅

namespace SearchState

/-- Counts one more fact or rule tried, if the limit allows it. -/
def tick? (limits : Limits) (st : SearchState) : Option SearchState :=
  if st.steps < limits.maxSteps then some { st with steps := st.steps + 1 } else none

/-- Opens a generation for the use of one more rule. -/
def nextGeneration (st : SearchState) : SearchState :=
  { st with generation := st.generation + 1 }

/-- Notes a goal as derived if it is ground. -/
def record (st : SearchState) (p : Predicate) : SearchState :=
  if p.isGround then { st with derived := st.derived.insert p () } else st

end SearchState

namespace Search

/-- A search for one proof of a goal under a substitution. -/
abbrev Prover := Predicate → Substitution → SearchState → SearchResult × SearchState

/-- The stored facts a goal can match. -/
def candidates (kb : Snapshot Time) (goal : Predicate) : List Predicate :=
  if goal.isTimed then kb.timed else kb.predicates

/-- Tries the facts in turn. -/
def matchFacts (limits : Limits) (goal : Predicate) (s : Substitution) :
    List Predicate → SearchState → SearchResult × SearchState
  | [], st => (.failed, st)
  | fact :: facts, st =>
      match st.tick? limits with
      | none => (.exhausted, st)
      | some st =>
          match unifyPredicates fact goal s with
          | some proof => (.proved proof, st)
          | none => matchFacts limits goal s facts st

/-- Tries the rules in turn, proving premises by `prove`. The flag tells that
the search for some premise was cut off before. -/
def chainRules (limits : Limits) (prove : Prover) (goal : Predicate) (s : Substitution) :
    List Rule → (cutOff : Bool) → SearchState → SearchResult × SearchState
  | [], cutOff, st => (if cutOff then .exhausted else .failed, st)
  | rule :: rules, cutOff, st =>
      match st.tick? limits with
      | none => (.exhausted, st)
      | some st =>
          let st := st.nextGeneration
          let rule := rule.rename st.generation
          match unifyPredicates rule.conclusion goal s with
          | none => chainRules limits prove goal s rules cutOff st
          | some bound =>
              match prove (bound.apply rule.premise) bound st with
              | (.proved proof, st) => (.proved proof, st.record (proof.apply goal))
              | (.exhausted, st) => chainRules limits prove goal s rules true st
              | (.failed, st) => chainRules limits prove goal s rules cutOff st

/-- Tries the facts, and goes on with `next` if none of them matches. -/
def factsThen (kb : Snapshot Time) (limits : Limits) (next : Prover) : Prover := fun goal s st =>
  match matchFacts limits goal s (candidates kb goal) st with
  | (.failed, st) => next goal s st
  | found => found

/-- Proves a goal by at least one and at most `depth` chained rules. -/
def byRules (kb : Snapshot Time) (limits : Limits) : (depth : Nat) → Prover
  | 0 => fun _ _ st => (.exhausted, st)
  | depth + 1 => fun goal s st =>
      chainRules limits (factsThen kb limits (byRules kb limits depth)) goal s kb.rules false st

/-- Proves a goal by a fact or by at most `depth` chained rules. -/
def ask (kb : Snapshot Time) (limits : Limits) (depth : Nat) : Prover :=
  factsThen kb limits (byRules kb limits depth)

end Search

end Defeasible
