import Defeasible.Proofs.SolutionRuns

/-!
The search for one proof against the enumeration of all. Both try the same facts and
rules in the same order, and the search for one proof stops where the enumeration finds
its first. As long as neither has found a proof, both have used the same steps and the
same generations, so that each rule is tried in the same state by both.
-/

namespace Defeasible

variable {Time : Type}

/-- The solutions of a search of which an earlier part may have been cut off. -/
def Solutions.afterCut (out : Solutions) (cutOff : Bool) : Solutions :=
  ⟨out.found, cutOff || out.cutOff⟩

namespace Search

/-- The one search ends with the first solution of the other and, where there is none,
in the same state. -/
inductive TakesFirst : SearchResult × SearchState → Solutions × SearchState → Prop where
  | proved (proof : Substitution) (proofs : List Substitution) (cutOff : Bool)
      (st st' : SearchState) : TakesFirst (.proved proof, st) (⟨proof :: proofs, cutOff⟩, st')
  | exhausted (st : SearchState) : TakesFirst (.exhausted, st) (⟨[], true⟩, st)
  | failed (st : SearchState) : TakesFirst (.failed, st) (⟨[], false⟩, st)

variable {kb : Snapshot Time} {limits : Limits} {goal : Predicate} {s : Substitution}
  {st st' : SearchState} {out : Solutions}

theorem FactCollection.takesFirst {facts : List Predicate}
    (hrun : FactCollection limits goal s facts st out st') :
    TakesFirst (matchFacts limits goal s facts st) (out, st') := by
  induction hrun with
  | nil st => exact .failed st
  | limit hlimit =>
      rw [matchFacts, SearchState.tick?_of_le hlimit]
      exact .exhausted _
  | matched hlt hunify =>
      simp only [matchFacts, SearchState.tick?_of_lt hlt, hunify]
      exact .proved _ _ _ _ _
  | mismatch hlt hunify _ ih =>
      simp only [matchFacts, SearchState.tick?_of_lt hlt, hunify]
      exact ih

section Rule

variable {rule : Rule} {prove : Prover}

theorem chainRules_mismatch (hlt : st.steps < limits.maxSteps)
    (hunify : unifyPredicates (rule.rename (st.generation + 1)).conclusion goal s = none)
    (rules : List Rule) (cutOff : Bool) :
    chainRules limits prove goal s (rule :: rules) cutOff st =
      chainRules limits prove goal s rules cutOff st.tried.nextGeneration := by
  rw [chainRules, SearchState.tick?_of_lt hlt]
  dsimp only [SearchState.nextGeneration, SearchState.tried]
  rw [hunify]

/-- A rule that matches the goal leaves the result to the search for its premise. -/
theorem chainRules_matched {bound : Substitution} (hlt : st.steps < limits.maxSteps)
    (hunify : unifyPredicates (rule.rename (st.generation + 1)).conclusion goal s = some bound)
    (rules : List Rule) (cutOff : Bool) :
    chainRules limits prove goal s (rule :: rules) cutOff st =
      match premiseSearch prove rule bound st with
      | (.proved proof, st) => (.proved proof, st.record (proof.apply goal))
      | (.exhausted, st) => chainRules limits prove goal s rules true st
      | (.failed, st) => chainRules limits prove goal s rules cutOff st := by
  rw [chainRules, SearchState.tick?_of_lt hlt]
  dsimp only [SearchState.nextGeneration, SearchState.tried, premiseSearch]
  exact hunify ▸ rfl

end Rule

/-- The flag of the one search tells what the enumeration has left out before. -/
theorem RuleCollection.takesFirst {prove : Prover} {solve : Solver} {rules : List Rule}
    (hrun : RuleCollection limits solve goal s rules st out st')
    (hpremise : ∀ goal s st, TakesFirst (prove goal s st) (solve goal s st)) (cutOff : Bool) :
    TakesFirst (chainRules limits prove goal s rules cutOff st) (out.afterCut cutOff, st') := by
  induction hrun generalizing cutOff with
  | nil st =>
      cases cutOff with
      | false => exact .failed st
      | true => exact .exhausted st
  | limit hlimit =>
      rw [chainRules, SearchState.tick?_of_le hlimit, Solutions.afterCut, Bool.or_true]
      exact .exhausted _
  | mismatch hlt hunify _ ih =>
      rw [chainRules_mismatch hlt hunify]
      exact ih cutOff
  | @solved rule _ st st₁ _ bound inner rest hlt hunify hcall _ ih =>
      have hfirst : TakesFirst (premiseSearch prove rule bound st)
          (premiseSolutions solve rule bound st) := hpremise _ _ _
      rw [hcall] at hfirst
      rw [chainRules_matched hlt hunify]
      generalize premiseSearch prove rule bound st = premise at hfirst
      -- Without a proof of the premise nothing is noted, and both searches try the rest
      -- of the rules in the state that they have reached.
      cases hfirst with
      | proved proof => exact .proved proof _ _ _ _
      | exhausted => cases cutOff <;> exact ih true
      | failed => exact ih cutOff

theorem takesFirst_factsThen {next : Prover} {next' : Solver}
    (hnext : ∀ goal s st, TakesFirst (next goal s st) (next' goal s st)) (goal : Predicate)
    (s : Substitution) (st : SearchState) :
    TakesFirst (factsThen kb limits next goal s st) (factsAnd kb limits next' goal s st) := by
  obtain ⟨found, st', hrun, heq⟩ | ⟨found, st', hrun, heq⟩ :=
    factsAnd_cases kb limits next' goal s st
  · have hfirst := hrun.takesFirst
    rw [heq, factsThen]
    generalize matchFacts limits goal s (candidates kb goal) st = facts at hfirst
    cases hfirst with
    | proved proof proofs => exact .proved proof proofs _ _ _
    | exhausted => exact .exhausted st'
  · have hfirst := hrun.takesFirst
    rw [heq, factsThen]
    generalize matchFacts limits goal s (candidates kb goal) st = facts at hfirst
    cases hfirst with
    | proved proof => exact .proved proof _ _ _ _
    | failed => exact hnext goal s st'

theorem takesFirst_byRules (kb : Snapshot Time) (limits : Limits) (depth : Nat) (goal : Predicate)
    (s : Substitution) (st : SearchState) :
    TakesFirst (byRules kb limits depth goal s st) (solveByRules kb limits depth goal s st) := by
  induction depth generalizing goal s st with
  | zero => exact .exhausted st
  | succ depth ih =>
      exact (ruleCollection_chainAll _ kb.rules st).takesFirst (takesFirst_factsThen ih) false

/-- The enumeration decides the search for one proof: it returns the first solution, and
without a solution it is exhausted exactly if the enumeration was cut off, and has come
to the same state. -/
theorem ask_eq_first_solution (kb : Snapshot Time) (limits : Limits) (depth : Nat)
    (goal : Predicate) (s : Substitution) (st : SearchState) :
    let one := ask kb limits depth goal s st
    let all := solve kb limits depth goal s st
    (∀ proof proofs, all.1.found = proof :: proofs → one.1 = .proved proof) ∧
    (all.1.found = [] → all.1.cutOff = true → one = (.exhausted, all.2)) ∧
    (all.1.found = [] → all.1.cutOff = false → one = (.failed, all.2)) := by
  intro one all
  have hfirst : TakesFirst one all :=
    takesFirst_factsThen (takesFirst_byRules kb limits depth) goal s st
  generalize one = one at hfirst
  generalize all = all at hfirst
  cases hfirst with
  | proved proof proofs =>
      refine ⟨fun _ _ h => ?_, nofun, nofun⟩
      cases h
      rfl
  | exhausted => exact ⟨nofun, fun _ _ => rfl, nofun⟩
  | failed => exact ⟨nofun, nofun, fun _ _ => rfl⟩

end Search
end Defeasible
