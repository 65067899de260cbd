import Defeasible.Search.Defaults
import Defeasible.Timeline

/-!
Answers to queries. A goal is tried on the facts, then on the rules, then, if it
is still unproved and defaults are wanted, on the default rules.
-/

namespace Defeasible

variable {Time : Type}

inductive Outcome where
  | proved
  | notProved
  | exhausted
deriving DecidableEq, Repr

/-- By what a query was proved, if it was. -/
inductive Reasoning where
  | fact
  | rule
  | byDefault
  | time
  | unproved
deriving DecidableEq, Repr

structure Answer where
  outcome : Outcome
  reasoning : Reasoning
  bindings : Substitution := ∅
  derived : OrderedSet Predicate := ∅
  steps : Nat := 0

/-- What the proof makes of each variable of the goal. -/
def answerBindings (goal : Predicate) (proof : Substitution) : Substitution :=
  .ofList (goal.vars.map fun v => (v, proof.applyTerm (.var v)))

namespace Search

/-- The first of the three kinds of proof that is found. A search cut off
before the defaults leaves a failure of the defaults inconclusive. -/
def run (kb : Snapshot Time) (limits : Limits) (useDefaults : Bool) (goal : Predicate)
    (st : SearchState) : Reasoning × SearchResult × SearchState :=
  let (reasoning, result, st) :=
    match matchFacts limits goal ∅ (candidates kb goal) st with
    | (.failed, st) => (Reasoning.rule, byRules kb limits limits.maxDepth goal ∅ st)
    | found => (.fact, found)
  match result, useDefaults with
  | .proved proof, _ => (reasoning, .proved proof, st)
  | result, false => (reasoning, result, st)
  | .exhausted, true =>
      match byDefaults kb limits goal kb.defaultRules false st with
      | (.failed, st) => (.byDefault, .exhausted, st)
      | found => (.byDefault, found)
  | .failed, true => (.byDefault, byDefaults kb limits goal kb.defaultRules false st)

end Search

namespace Snapshot

/-- The answer to a goal, and the last generation used for it. Generations up
to the given one are taken to be in use. -/
def prove (kb : Snapshot Time) (limits : Limits) (useDefaults : Bool) (generation : Nat)
    (goal : Predicate) : Answer × Nat :=
  let (reasoning, result, st) :=
    Search.run kb limits useDefaults goal { generation := generation }
  let answer : Answer :=
    match result with
    | .proved proof =>
        ⟨.proved, reasoning, answerBindings goal proof, st.derived, st.steps⟩
    | .failed => ⟨.notProved, .unproved, ∅, st.derived, st.steps⟩
    | .exhausted => ⟨.exhausted, .unproved, ∅, st.derived, st.steps⟩
  (answer, st.generation)

/-- The answer to a question about the order of two events. -/
def decideTime (kb : Snapshot Time) (q : TimeQuery) : Answer :=
  if q.holds kb.timed then { outcome := .proved, reasoning := .time }
  else { outcome := .notProved, reasoning := .unproved }

end Snapshot

end Defeasible
