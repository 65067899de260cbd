import Defeasible.Search.Solutions
import Defeasible.Proofs.SearchRuns

/-!
The course of an enumeration. Collecting the facts that match and collecting the
proofs by the rules are given as relations, as the searches for one proof are. A
search for one proof ends with the first; an enumeration goes on to the end of the
list or to the limit of steps.
-/

namespace Defeasible

variable {Time : Type}
namespace Search

/-- The facts are collected from the first state on, the last state being the second. -/
inductive FactCollection (limits : Limits) (goal : Predicate) (s : Substitution) :
    List Predicate → SearchState → Solutions → SearchState → Prop where
  | nil (st : SearchState) : FactCollection limits goal s [] st ⟨[], false⟩ st
  | limit {fact : Predicate} {facts : List Predicate} {st : SearchState} :
      limits.maxSteps ≤ st.steps → FactCollection limits goal s (fact :: facts) st ⟨[], true⟩ st
  | matched {fact : Predicate} {facts : List Predicate} {st st' : SearchState}
      {proof : Substitution} {rest : Solutions} : st.steps < limits.maxSteps →
      unifyPredicates fact goal s = some proof →
      FactCollection limits goal s facts st.tried rest st' →
        FactCollection limits goal s (fact :: facts) st ⟨proof :: rest.found, rest.cutOff⟩ st'
  | mismatch {fact : Predicate} {facts : List Predicate} {st st' : SearchState}
      {rest : Solutions} : st.steps < limits.maxSteps → unifyPredicates fact goal s = none →
      FactCollection limits goal s facts st.tried rest st' →
        FactCollection limits goal s (fact :: facts) st rest st'

/-- The proofs of the premise of a rule that is tried in the given state. -/
def premiseSolutions (solve : Solver) (rule : Rule) (bound : Substitution) (st : SearchState) :
    Solutions × SearchState :=
  solve (bound.apply (rule.rename (st.generation + 1)).premise) bound st.tried.nextGeneration

/-- Notes the instance of the goal under each of the proofs. -/
def recordAll (goal : Predicate) (proofs : List Substitution) (st : SearchState) : SearchState :=
  proofs.foldl (fun st proof => st.record (proof.apply goal)) st

/-- The proofs by the rules are collected from the first state on. -/
inductive RuleCollection (limits : Limits) (solve : Solver) (goal : Predicate)
    (s : Substitution) : List Rule → SearchState → Solutions → SearchState → Prop where
  | nil (st : SearchState) : RuleCollection limits solve goal s [] st ⟨[], false⟩ st
  | limit {rule : Rule} {rules : List Rule} {st : SearchState} : limits.maxSteps ≤ st.steps →
      RuleCollection limits solve goal s (rule :: rules) st ⟨[], true⟩ st
  | mismatch {rule : Rule} {rules : List Rule} {st st' : SearchState} {rest : Solutions} :
      st.steps < limits.maxSteps →
      unifyPredicates (rule.rename (st.generation + 1)).conclusion goal s = none →
      RuleCollection limits solve goal s rules st.tried.nextGeneration rest st' →
        RuleCollection limits solve goal s (rule :: rules) st rest st'
  | solved {rule : Rule} {rules : List Rule} {st st₁ st' : SearchState} {bound : Substitution}
      {inner rest : Solutions} : st.steps < limits.maxSteps →
      unifyPredicates (rule.rename (st.generation + 1)).conclusion goal s = some bound →
      premiseSolutions solve rule bound st = (inner, st₁) →
      RuleCollection limits solve goal s rules (recordAll goal inner.found st₁) rest st' →
        RuleCollection limits solve goal s (rule :: rules) st
          ⟨inner.found ++ rest.found, inner.cutOff || rest.cutOff⟩ st'

variable {limits : Limits} {goal : Predicate} {s : Substitution} {st st' : SearchState}

theorem factCollection_matchAll (facts : List Predicate) (st : SearchState) :
    FactCollection limits goal s facts st (matchAll limits goal s facts st).1
      (matchAll limits goal s facts st).2 := by
  induction facts generalizing st with
  | nil => exact .nil st
  | cons fact facts ih =>
      rw [matchAll]
      obtain hlt | hlimit := Nat.lt_or_ge st.steps limits.maxSteps
      · rw [SearchState.tick?_of_lt hlt]
        dsimp only
        cases hunify : unifyPredicates fact goal s with
        | some proof => exact .matched hlt hunify (ih st.tried)
        | none => exact .mismatch hlt hunify (ih st.tried)
      · rw [SearchState.tick?_of_le hlimit]
        exact .limit hlimit

theorem ruleCollection_chainAll (solve : Solver) (rules : List Rule) (st : SearchState) :
    RuleCollection limits solve goal s rules st (chainAll limits solve goal s rules st).1
      (chainAll limits solve goal s rules st).2 := by
  induction rules generalizing st with
  | nil => exact .nil st
  | cons rule rules ih =>
      rw [chainAll]
      obtain hlt | hlimit := Nat.lt_or_ge st.steps limits.maxSteps
      · rw [SearchState.tick?_of_lt hlt]
        dsimp only
        cases hunify : unifyPredicates (rule.rename st.tried.nextGeneration.generation).conclusion
            goal s with
        | none => exact .mismatch hlt hunify (ih _)
        | some bound => exact .solved hlt hunify rfl (ih _)
      · rw [SearchState.tick?_of_le hlimit]
        exact .limit hlimit

/-- The rules are not tried once the limit has cut off the facts. -/
theorem factsAnd_cases (kb : Snapshot Time) (limits : Limits) (next : Solver) (goal : Predicate)
    (s : Substitution) (st : SearchState) :
    (∃ found st', FactCollection limits goal s (candidates kb goal) st ⟨found, true⟩ st' ∧
      factsAnd kb limits next goal s st = (⟨found, true⟩, st')) ∨
    ∃ found st₁, FactCollection limits goal s (candidates kb goal) st ⟨found, false⟩ st₁ ∧
      factsAnd kb limits next goal s st =
        (⟨found ++ (next goal s st₁).1.found, (next goal s st₁).1.cutOff⟩,
          (next goal s st₁).2) := by
  have hrun : FactCollection limits goal s (candidates kb goal) st _ _ :=
    factCollection_matchAll _ st
  rw [factsAnd]
  cases hfacts : matchAll limits goal s (candidates kb goal) st with
  | mk out st₁ =>
      rw [hfacts] at hrun
      obtain ⟨found, cutOff⟩ := out
      cases cutOff with
      | true => exact .inl ⟨found, st₁, hrun, rfl⟩
      | false => exact .inr ⟨found, st₁, hrun, rfl⟩

theorem forward_recordAll (goal : Predicate) (proofs : List Substitution) (st : SearchState) :
    Forward st (recordAll goal proofs st) := by
  induction proofs generalizing st with
  | nil => exact .refl st
  | cons proof proofs ih => exact (forward_record st _).trans (ih _)

theorem FactCollection.forward {facts : List Predicate} {out : Solutions}
    (hrun : FactCollection limits goal s facts st out st') : Forward st st' := by
  induction hrun with
  | nil st => exact .refl st
  | limit => exact .refl _
  | matched _ _ _ ih | mismatch _ _ _ ih => exact (forward_tried _).trans ih

end Search
end Defeasible
