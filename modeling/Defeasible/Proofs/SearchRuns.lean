import Defeasible.Search

/-!
The course of a search. Trying the facts in turn and trying the rules in turn are
given as relations between the state at the start, the result and the state at the
end, with one case for each thing that can happen to the first fact or rule. What
holds of every such course holds of the search functions.
-/

namespace Defeasible

variable {Time : Type}

namespace SearchState

variable {limits : Limits} {st : SearchState}

/-- The state after one more fact or rule was tried. -/
def tried (st : SearchState) : SearchState := { st with steps := st.steps + 1 }

theorem tick?_of_lt (h : st.steps < limits.maxSteps) : st.tick? limits = some st.tried := if_pos h

theorem tick?_of_le (h : limits.maxSteps ≤ st.steps) : st.tick? limits = none :=
  if_neg (Nat.not_lt_of_le h)

end SearchState

namespace Search

/-- The facts are tried from the first state on, with the result in the second. -/
inductive FactRun (limits : Limits) (goal : Predicate) (s : Substitution) :
    List Predicate → SearchState → SearchResult → SearchState → Prop where
  | nil (st : SearchState) : FactRun limits goal s [] st .failed st
  | limit {fact : Predicate} {facts : List Predicate} {st : SearchState} :
      limits.maxSteps ≤ st.steps → FactRun limits goal s (fact :: facts) st .exhausted st
  | matched {fact : Predicate} {facts : List Predicate} {st : SearchState}
      {proof : Substitution} : st.steps < limits.maxSteps →
      unifyPredicates fact goal s = some proof →
        FactRun limits goal s (fact :: facts) st (.proved proof) st.tried
  | mismatch {fact : Predicate} {facts : List Predicate} {st st' : SearchState}
      {result : SearchResult} : st.steps < limits.maxSteps →
      unifyPredicates fact goal s = none → FactRun limits goal s facts st.tried result st' →
        FactRun limits goal s (fact :: facts) st result st'

/-- The search for the premise of a rule that is tried in the given state. -/
def premiseSearch (prove : Prover) (rule : Rule) (bound : Substitution) (st : SearchState) :
    SearchResult × SearchState :=
  prove (bound.apply (rule.rename (st.generation + 1)).premise) bound st.tried.nextGeneration

/-- The rules are tried from the first state on, with the result in the second. -/
inductive RuleRun (limits : Limits) (prove : Prover) (goal : Predicate) (s : Substitution) :
    List Rule → Bool → SearchState → SearchResult → SearchState → Prop where
  | done (st : SearchState) : RuleRun limits prove goal s [] false st .failed st
  | cut (st : SearchState) : RuleRun limits prove goal s [] true st .exhausted st
  | limit {rule : Rule} {rules : List Rule} {cutOff : Bool} {st : SearchState} :
      limits.maxSteps ≤ st.steps →
        RuleRun limits prove goal s (rule :: rules) cutOff st .exhausted st
  | mismatch {rule : Rule} {rules : List Rule} {cutOff : Bool} {st st' : SearchState}
      {result : SearchResult} : st.steps < limits.maxSteps →
      unifyPredicates (rule.rename (st.generation + 1)).conclusion goal s = none →
      RuleRun limits prove goal s rules cutOff st.tried.nextGeneration result st' →
        RuleRun limits prove goal s (rule :: rules) cutOff st result st'
  | proved {rule : Rule} {rules : List Rule} {cutOff : Bool} {st st₁ : SearchState}
      {bound proof : Substitution} : st.steps < limits.maxSteps →
      unifyPredicates (rule.rename (st.generation + 1)).conclusion goal s = some bound →
      premiseSearch prove rule bound st = (.proved proof, st₁) →
        RuleRun limits prove goal s (rule :: rules) cutOff st (.proved proof)
          (st₁.record (proof.apply goal))
  | failed {rule : Rule} {rules : List Rule} {cutOff : Bool} {st st₁ st' : SearchState}
      {bound : Substitution} {result : SearchResult} : st.steps < limits.maxSteps →
      unifyPredicates (rule.rename (st.generation + 1)).conclusion goal s = some bound →
      premiseSearch prove rule bound st = (.failed, st₁) →
      RuleRun limits prove goal s rules cutOff st₁ result st' →
        RuleRun limits prove goal s (rule :: rules) cutOff st result st'
  | exhausted {rule : Rule} {rules : List Rule} {cutOff : Bool} {st st₁ st' : SearchState}
      {bound : Substitution} {result : SearchResult} : st.steps < limits.maxSteps →
      unifyPredicates (rule.rename (st.generation + 1)).conclusion goal s = some bound →
      premiseSearch prove rule bound st = (.exhausted, st₁) →
      RuleRun limits prove goal s rules true st₁ result st' →
        RuleRun limits prove goal s (rule :: rules) cutOff st result st'

variable {limits : Limits} {goal : Predicate} {s : Substitution} {st st' : SearchState}

/-- Neither the steps nor the generations go back. -/
structure Forward (st st' : SearchState) : Prop where
  steps : st.steps ≤ st'.steps
  generation : st.generation ≤ st'.generation

theorem Forward.refl (st : SearchState) : Forward st st := ⟨Nat.le_refl _, Nat.le_refl _⟩

theorem Forward.trans {st'' : SearchState} (h : Forward st st') (h' : Forward st' st'') :
    Forward st st'' :=
  ⟨Nat.le_trans h.steps h'.steps, Nat.le_trans h.generation h'.generation⟩

theorem forward_tried (st : SearchState) : Forward st st.tried :=
  ⟨Nat.le_succ _, Nat.le_refl _⟩

theorem forward_nextGeneration (st : SearchState) : Forward st st.nextGeneration :=
  ⟨Nat.le_refl _, Nat.le_succ _⟩

theorem forward_ruleTried (st : SearchState) : Forward st st.tried.nextGeneration :=
  (forward_tried st).trans (forward_nextGeneration _)

theorem forward_record (st : SearchState) (p : Predicate) : Forward st (st.record p) := by
  rw [SearchState.record]
  split
  · exact ⟨Nat.le_refl _, Nat.le_refl _⟩
  · exact .refl st

theorem FactRun.forward {facts : List Predicate} {result : SearchResult}
    (hrun : FactRun limits goal s facts st result st') : Forward st st' := by
  induction hrun with
  | nil st => exact .refl st
  | limit => exact .refl _
  | matched => exact forward_tried _
  | mismatch _ _ _ ih => exact (forward_tried _).trans ih

theorem factRun_matchFacts (facts : List Predicate) (st : SearchState) :
    FactRun limits goal s facts st (matchFacts limits goal s facts st).1
      (matchFacts limits goal s facts st).2 := by
  induction facts generalizing st with
  | nil => exact .nil st
  | cons fact facts ih =>
      rw [matchFacts]
      obtain hlt | hlimit := Nat.lt_or_ge st.steps limits.maxSteps
      · rw [SearchState.tick?_of_lt hlt]
        cases hunify : unifyPredicates fact goal s with
        | some proof => exact .matched hlt hunify
        | none => exact .mismatch hlt hunify (ih st.tried)
      · rw [SearchState.tick?_of_le hlimit]
        exact .limit hlimit

theorem ruleRun_chainRules (prove : Prover) (rules : List Rule) (cutOff : Bool)
    (st : SearchState) :
    RuleRun limits prove goal s rules cutOff st
      (chainRules limits prove goal s rules cutOff st).1
      (chainRules limits prove goal s rules cutOff st).2 := by
  induction rules generalizing cutOff st with
  | nil =>
      cases cutOff with
      | false => exact .done st
      | true => exact .cut st
  | cons rule rules ih =>
      rw [chainRules]
      obtain hlt | hlimit := Nat.lt_or_ge st.steps limits.maxSteps
      · rw [SearchState.tick?_of_lt hlt]
        dsimp only
        cases hunify : unifyPredicates (rule.rename st.tried.nextGeneration.generation).conclusion
            goal s with
        | none => exact .mismatch hlt hunify (ih cutOff _)
        | some bound =>
            dsimp only
            cases hcall : prove (bound.apply
                (rule.rename st.tried.nextGeneration.generation).premise) bound
                st.tried.nextGeneration with
            | mk result st₁ =>
                cases result with
                | proved proof => exact .proved hlt hunify hcall
                | failed => exact .failed hlt hunify hcall (ih cutOff st₁)
                | exhausted => exact .exhausted hlt hunify hcall (ih true st₁)
      · rw [SearchState.tick?_of_le hlimit]
        exact .limit hlimit

/-- The facts decide unless none of them matches. -/
theorem factsThen_cases (kb : Snapshot Time) (limits : Limits) (next : Prover) (goal : Predicate)
    (s : Substitution) (st : SearchState) :
    (∃ st₁, FactRun limits goal s (candidates kb goal) st .failed st₁ ∧
      factsThen kb limits next goal s st = next goal s st₁) ∨
    ∃ result st', FactRun limits goal s (candidates kb goal) st result st' ∧
      result ≠ .failed ∧ factsThen kb limits next goal s st = (result, st') := by
  have hrun : FactRun limits goal s (candidates kb goal) st _ _ := factRun_matchFacts _ st
  rw [factsThen]
  cases hfacts : matchFacts limits goal s (candidates kb goal) st with
  | mk result st₁ =>
      rw [hfacts] at hrun
      cases result with
      | failed => exact .inl ⟨st₁, hrun, rfl⟩
      | proved proof => exact .inr ⟨_, _, hrun, by simp, rfl⟩
      | exhausted => exact .inr ⟨_, _, hrun, by simp, rfl⟩

end Search
end Defeasible
