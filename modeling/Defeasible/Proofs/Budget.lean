import Defeasible.Proofs.Shift

/-!
The steps of a search. All parts of a search draw on one budget, and together they spend no
more than the limit. A search for one proof that is given more steps takes the same course,
unless it ran out of them; an enumeration that ran out of steps has found the first of the
proofs that more steps find.
-/

namespace Defeasible

variable {Time : Type}

/-- The second limits allow more steps. They differ in nothing else that a search reads. -/
structure Limits.Within (limits limits' : Limits) : Prop where
  steps : limits.maxSteps ≤ limits'.maxSteps
  depth : limits'.maxDepth = limits.maxDepth

namespace Search

variable {kb : Snapshot Time} {limits limits' : Limits} {goal contrary : Predicate}
  {s : Substitution} {st st' : SearchState}

/-- The search goes forward and stays within the limit of steps. -/
structure Spends (limits : Limits) (st st' : SearchState) : Prop extends Forward st st' where
  within : st.steps ≤ limits.maxSteps → st'.steps ≤ limits.maxSteps

namespace Spends

theorem refl (st : SearchState) : Spends limits st st := ⟨.refl st, id⟩

theorem trans {st'' : SearchState} (h : Spends limits st st') (h' : Spends limits st' st'') :
    Spends limits st st'' :=
  ⟨h.toForward.trans h'.toForward, fun hst => h'.within (h.within hst)⟩

theorem tried (h : st.steps < limits.maxSteps) : Spends limits st st.tried :=
  ⟨forward_tried st, fun _ => h⟩

theorem nextGeneration (st : SearchState) : Spends limits st st.nextGeneration :=
  ⟨forward_nextGeneration st, id⟩

theorem ruleTried (h : st.steps < limits.maxSteps) : Spends limits st st.tried.nextGeneration :=
  (tried h).trans (nextGeneration _)

theorem record (st : SearchState) (p : Predicate) : Spends limits st (st.record p) := by
  refine ⟨forward_record st p, fun hst => ?_⟩
  rw [SearchState.record]
  split <;> exact hst

theorem recordAll (goal : Predicate) (proofs : List Substitution) (st : SearchState) :
    Spends limits st (recordAll goal proofs st) := by
  induction proofs generalizing st with
  | nil => exact .refl st
  | cons proof proofs ih => exact (record st _).trans (ih _)

end Spends

section Spends

theorem FactRun.spends {facts : List Predicate} {result : SearchResult}
    (hrun : FactRun limits goal s facts st result st') : Spends limits st st' := by
  induction hrun with
  | nil | limit => exact .refl _
  | matched hlt => exact .tried hlt
  | mismatch hlt _ _ ih => exact (Spends.tried hlt).trans ih

theorem premiseSearch_spends {prove : Prover}
    (hprove : ∀ goal s st, Spends limits st (prove goal s st).2) (rule : Rule)
    (bound : Substitution) (hlt : st.steps < limits.maxSteps) :
    Spends limits st (premiseSearch prove rule bound st).2 :=
  (Spends.ruleTried hlt).trans (hprove _ _ _)

theorem RuleRun.spends {prove : Prover} {rules : List Rule} {cutOff : Bool}
    {result : SearchResult} (hrun : RuleRun limits prove goal s rules cutOff st result st')
    (hprove : ∀ goal s st, Spends limits st (prove goal s st).2) : Spends limits st st' := by
  induction hrun with
  | done | cut | limit => exact .refl _
  | mismatch hlt _ _ ih => exact (Spends.ruleTried hlt).trans ih
  | @proved rule _ _ _ _ bound _ hlt _ hcall =>
      have hpremise := premiseSearch_spends hprove rule bound hlt
      rw [hcall] at hpremise
      exact hpremise.trans (.record _ _)
  | @failed rule _ _ _ _ _ bound _ hlt _ hcall _ ih
  | @exhausted rule _ _ _ _ _ bound _ hlt _ hcall _ ih =>
      have hpremise := premiseSearch_spends hprove rule bound hlt
      rw [hcall] at hpremise
      exact hpremise.trans ih

theorem factsThen_spends {next : Prover}
    (hnext : ∀ goal s st, Spends limits st (next goal s st).2) (goal : Predicate)
    (s : Substitution) (st : SearchState) :
    Spends limits st (factsThen kb limits next goal s st).2 := by
  obtain ⟨st₁, hrun, heq⟩ | ⟨result, st', hrun, -, heq⟩ := factsThen_cases kb limits next goal s st
  · rw [heq]
    exact hrun.spends.trans (hnext goal s st₁)
  · rw [heq]
    exact hrun.spends

theorem byRules_spends (kb : Snapshot Time) (limits : Limits) (depth : Nat) (goal : Predicate)
    (s : Substitution) (st : SearchState) :
    Spends limits st (byRules kb limits depth goal s st).2 := by
  induction depth generalizing goal s st with
  | zero => exact .refl st
  | succ depth ih => exact (ruleRun_chainRules _ kb.rules false st).spends (factsThen_spends ih)

theorem ask_spends (kb : Snapshot Time) (limits : Limits) (depth : Nat) (goal : Predicate)
    (s : Substitution) (st : SearchState) : Spends limits st (ask kb limits depth goal s st).2 :=
  factsThen_spends (byRules_spends kb limits depth) goal s st

theorem FactCollection.spends {facts : List Predicate} {out : Solutions}
    (hrun : FactCollection limits goal s facts st out st') : Spends limits st st' := by
  induction hrun with
  | nil | limit => exact .refl _
  | matched hlt _ _ ih | mismatch hlt _ _ ih => exact (Spends.tried hlt).trans ih

theorem premiseSolutions_spends {solve : Solver}
    (hsolve : ∀ goal s st, Spends limits st (solve goal s st).2) (rule : Rule)
    (bound : Substitution) (hlt : st.steps < limits.maxSteps) :
    Spends limits st (premiseSolutions solve rule bound st).2 :=
  (Spends.ruleTried hlt).trans (hsolve _ _ _)

theorem RuleCollection.spends {solve : Solver} {rules : List Rule} {out : Solutions}
    (hrun : RuleCollection limits solve goal s rules st out st')
    (hsolve : ∀ goal s st, Spends limits st (solve goal s st).2) : Spends limits st st' := by
  induction hrun with
  | nil | limit => exact .refl _
  | mismatch hlt _ _ ih => exact (Spends.ruleTried hlt).trans ih
  | @solved rule _ _ _ _ bound _ _ hlt _ hcall _ ih =>
      have hpremise := premiseSolutions_spends hsolve rule bound hlt
      rw [hcall] at hpremise
      exact (hpremise.trans (.recordAll _ _ _)).trans ih

theorem factsAnd_spends {next : Solver}
    (hnext : ∀ goal s st, Spends limits st (next goal s st).2) (goal : Predicate)
    (s : Substitution) (st : SearchState) :
    Spends limits st (factsAnd kb limits next goal s st).2 := by
  obtain ⟨found, st', hrun, heq⟩ | ⟨found, st₁, hrun, heq⟩ :=
    factsAnd_cases kb limits next goal s st
  · rw [heq]
    exact hrun.spends
  · rw [heq]
    exact hrun.spends.trans (hnext goal s st₁)

theorem solveByRules_spends (kb : Snapshot Time) (limits : Limits) (depth : Nat) (goal : Predicate)
    (s : Substitution) (st : SearchState) :
    Spends limits st (solveByRules kb limits depth goal s st).2 := by
  induction depth generalizing goal s st with
  | zero => exact .refl st
  | succ depth ih => exact (ruleCollection_chainAll _ kb.rules st).spends (factsAnd_spends ih)

theorem solve_spends (kb : Snapshot Time) (limits : Limits) (depth : Nat) (goal : Predicate)
    (s : Substitution) (st : SearchState) : Spends limits st (solve kb limits depth goal s st).2 :=
  factsAnd_spends (solveByRules_spends kb limits depth) goal s st

theorem defaultSolutions_spends (kb : Snapshot Time) (limits : Limits) (r : DefaultRule)
    (bound : Substitution) (st : SearchState) :
    Spends limits st (defaultSolutions kb limits r bound st).2 :=
  (Spends.nextGeneration st).trans (solve_spends kb limits _ _ bound _)

theorem competing_spends (kb : Snapshot Time) (limits : Limits) (contrary : Predicate)
    (rules : List DefaultRule) (cutOff : Bool) (st : SearchState) :
    Spends limits st (competing kb limits contrary rules cutOff st).2 := by
  induction rules generalizing cutOff st with
  | nil => exact .refl st
  | cons r rules ih =>
      rw [competing_cons]
      cases unifyPredicates (r.rename (st.generation + 1)).conclusion contrary ∅ with
      | none => exact (Spends.nextGeneration st).trans (ih _ _)
      | some bound =>
          have hsolve := defaultSolutions_spends kb limits r bound st
          dsimp only
          split
          · exact hsolve
          · exact hsolve.trans (ih _ _)

theorem hindrance_spends (kb : Snapshot Time) (limits : Limits) (contrary : Predicate)
    (priority : Certainty) (st : SearchState) :
    Spends limits st (hindrance kb limits contrary priority st).2 := by
  have hask := ask_spends kb limits (innerDepth limits) contrary ∅ st
  rw [hindrance]
  generalize ask kb limits (innerDepth limits) contrary ∅ st = out at hask
  obtain ⟨result, st₁⟩ := out
  cases result with
  | failed => exact hask.trans (competing_spends _ _ _ _ _ _)
  | proved | exhausted => exact hask

theorem firstUnhindered_spends (kb : Snapshot Time) (limits : Limits) (r renamed : DefaultRule)
    (proofs : List Substitution) (cutOff : Bool) (st : SearchState) :
    Spends limits st (firstUnhindered kb limits r renamed proofs cutOff st).2.2 := by
  induction proofs generalizing cutOff st with
  | nil => exact .refl st
  | cons first proofs ih =>
      rw [firstUnhindered_cons]
      split
      · have hhindrance := hindrance_spends kb limits (first.apply renamed.conclusion).negated
          r.priority st
        dsimp only
        generalize hindrance kb limits (first.apply renamed.conclusion).negated r.priority st =
          out at hhindrance
        obtain ⟨result, st₁⟩ := out
        cases result with
        | failed => exact hhindrance.trans (.record _ _)
        | proved | exhausted => exact hhindrance.trans (ih _ _)
      · exact ih _ _

theorem defaultChoice_spends (kb : Snapshot Time) (limits : Limits) (r : DefaultRule)
    (bound : Substitution) (cutOff : Bool) (st : SearchState) :
    Spends limits st (defaultChoice kb limits r bound cutOff st).2.2 :=
  (defaultSolutions_spends kb limits r bound st).trans (firstUnhindered_spends _ _ _ _ _ _ _)

theorem byDefaults_spends (kb : Snapshot Time) (limits : Limits) (goal : Predicate)
    (rules : List DefaultRule) (cutOff : Bool) (st : SearchState) :
    Spends limits st (byDefaults kb limits goal rules cutOff st).2 := by
  induction rules generalizing cutOff st with
  | nil => exact .refl st
  | cons r rules ih =>
      rw [byDefaults_cons]
      cases unifyPredicates (r.rename (st.generation + 1)).conclusion goal ∅ with
      | none => exact (Spends.nextGeneration st).trans (ih _ _)
      | some bound =>
          have hchoice := defaultChoice_spends kb limits r bound cutOff st
          dsimp only
          generalize defaultChoice kb limits r bound cutOff st = choice at hchoice ⊢
          obtain ⟨chosen, cutOff₁, st₁⟩ := choice
          cases chosen with
          | some => exact hchoice
          | none => exact hchoice.trans (ih _ _)

theorem run_spends (kb : Snapshot Time) (limits : Limits) (useDefaults : Bool) (goal : Predicate)
    (st : SearchState) : Spends limits st (run kb limits useDefaults goal st).2.2 := by
  have hask := ask_spends kb limits limits.maxDepth goal ∅ st
  have hdefaults := hask.trans (byDefaults_spends kb limits goal kb.defaultRules false _)
  obtain ⟨reasoning, -, heq⟩ | heq | heq := run_cases kb limits useDefaults goal st
  · rw [heq]
    exact hask
  · rw [heq]
    exact hdefaults
  · rw [heq]
    revert hdefaults
    obtain ⟨result, st₁⟩ := byDefaults kb limits goal kb.defaultRules false
      (ask kb limits limits.maxDepth goal ∅ st).2
    cases result <;> exact id

end Spends

/-- No steps are left. -/
def Spent (limits : Limits) (st : SearchState) : Prop := limits.maxSteps ≤ st.steps

theorem Spent.later (h : Spent limits st) (hforward : Forward st st') : Spent limits st' :=
  Nat.le_trans h hforward.steps

/-- There is neither a fact nor a rule to try for the goal, and yet the depth allows a rule. -/
structure Untried (kb : Snapshot Time) (depth : Nat) (goal : Predicate) : Prop where
  facts : candidates kb goal = []
  rules : kb.rules = []
  depth : depth ≠ 0

section Spent

variable {depth : Nat}

theorem chainRules_spent (hst : Spent limits st) (prove : Prover) (goal : Predicate)
    (s : Substitution) (rules : List Rule) (cutOff : Bool) :
    chainRules limits prove goal s rules cutOff st =
      (if rules = [] ∧ cutOff = false then .failed else .exhausted, st) := by
  cases rules with
  | nil => cases cutOff <;> rfl
  | cons rule rules => simp [chainRules, SearchState.tick?_of_le hst]

theorem chainAll_spent (hst : Spent limits st) (solve : Solver) (goal : Predicate)
    (s : Substitution) (rules : List Rule) :
    chainAll limits solve goal s rules st = (⟨[], decide (rules ≠ [])⟩, st) := by
  cases rules with
  | nil => rfl
  | cons rule rules => simp [chainAll, SearchState.tick?_of_le hst]

/-- Without steps nothing is proved, and the search fails only for want of anything to try. -/
theorem ask_spent (kb : Snapshot Time) (hst : Spent limits st) (depth : Nat) (goal : Predicate)
    (s : Substitution) :
    (ask kb limits depth goal s st = (.failed, st) ∧ Untried kb depth goal) ∨
      ask kb limits depth goal s st = (.exhausted, st) := by
  cases hfacts : candidates kb goal with
  | cons fact facts =>
      refine .inr ?_
      simp [ask, factsThen, hfacts, matchFacts, SearchState.tick?_of_le hst]
  | nil =>
      have hask : ask kb limits depth goal s st = byRules kb limits depth goal s st := by
        simp [ask, factsThen, hfacts, matchFacts]
      rw [hask]
      cases depth with
      | zero => exact .inr rfl
      | succ depth =>
          change chainRules limits _ goal s kb.rules false st = _ ∧ _ ∨
            chainRules limits _ goal s kb.rules false st = _
          rw [chainRules_spent hst]
          by_cases hrules : kb.rules = []
          · exact .inl ⟨by simp [hrules], hfacts, hrules, Nat.succ_ne_zero depth⟩
          · exact .inr (by simp [hrules])

theorem ask_untried (h : Untried kb depth goal) (limits : Limits) (s : Substitution)
    (st : SearchState) : ask kb limits depth goal s st = (.failed, st) := by
  obtain ⟨depth, rfl⟩ := Nat.exists_eq_succ_of_ne_zero h.depth
  simp [ask, factsThen, h.facts, matchFacts, byRules, h.rules, chainRules]

/-- Without steps no proof is found, and the enumeration is complete only for want of anything
to try. -/
theorem solve_spent (kb : Snapshot Time) (hst : Spent limits st) (depth : Nat) (goal : Predicate)
    (s : Substitution) :
    (solve kb limits depth goal s st = (⟨[], false⟩, st) ∧ Untried kb depth goal) ∨
      solve kb limits depth goal s st = (⟨[], true⟩, st) := by
  cases hfacts : candidates kb goal with
  | cons fact facts =>
      refine .inr ?_
      simp [solve, factsAnd, hfacts, matchAll, SearchState.tick?_of_le hst]
  | nil =>
      have hsolve : solve kb limits depth goal s st = solveByRules kb limits depth goal s st := by
        simp [solve, factsAnd, hfacts, matchAll]
      rw [hsolve]
      cases depth with
      | zero => exact .inr rfl
      | succ depth =>
          change chainAll limits _ goal s kb.rules st = _ ∧ _ ∨
            chainAll limits _ goal s kb.rules st = _
          rw [chainAll_spent hst]
          by_cases hrules : kb.rules = []
          · exact .inl ⟨by simp [hrules], hfacts, hrules, Nat.succ_ne_zero depth⟩
          · exact .inr (by simp [hrules])

theorem solve_untried (h : Untried kb depth goal) (limits : Limits) (s : Substitution)
    (st : SearchState) : solve kb limits depth goal s st = (⟨[], false⟩, st) := by
  obtain ⟨depth, rfl⟩ := Nat.exists_eq_succ_of_ne_zero h.depth
  simp [solve, factsAnd, h.facts, matchAll, solveByRules, h.rules, chainAll]

end Spent

/-- The second search, which has more steps, does the same as the first, unless the first ran
out of them. -/
def Kept (limits : Limits) (out out' : SearchResult × SearchState) : Prop :=
  out' = out ∨ out.1 = .exhausted ∧ Spent limits out.2

def Prover.Kept (limits : Limits) (prove prove' : Prover) : Prop :=
  ∀ goal s st, Search.Kept limits (prove goal s st) (prove' goal s st)

/-- The second enumeration, which has more steps, finds the same proofs as the first, or the
first was cut off without steps and the second goes on from what it found. -/
def Prolonged (limits : Limits) (out out' : Solutions × SearchState) : Prop :=
  out' = out ∨ out.1.cutOff = true ∧ Spent limits out.2 ∧ out.1.found <+: out'.1.found

def Solver.Prolonged (limits : Limits) (solve solve' : Solver) : Prop :=
  ∀ goal s st, Search.Prolonged limits (solve goal s st) (solve' goal s st)

section Larger

theorem tick?_within (h : limits.Within limits') (hlt : st.steps < limits.maxSteps) :
    st.tick? limits' = some st.tried :=
  SearchState.tick?_of_lt (Nat.lt_of_lt_of_le hlt h.steps)

theorem innerDepth_within (h : limits.Within limits') : innerDepth limits' = innerDepth limits :=
  congrArg (· - 1) h.depth

theorem matchFacts_kept (h : limits.Within limits') (goal : Predicate) (s : Substitution)
    (facts : List Predicate) (st : SearchState) :
    Kept limits (matchFacts limits goal s facts st) (matchFacts limits' goal s facts st) := by
  induction facts generalizing st with
  | nil => exact .inl rfl
  | cons fact facts ih =>
      rw [matchFacts, matchFacts]
      obtain hlt | hspent := Nat.lt_or_ge st.steps limits.maxSteps
      · rw [SearchState.tick?_of_lt hlt, tick?_within h hlt]
        dsimp only
        cases unifyPredicates fact goal s with
        | some proof => exact .inl rfl
        | none => exact ih st.tried
      · rw [SearchState.tick?_of_le hspent]
        exact .inr ⟨rfl, hspent⟩

theorem chainRules_kept (h : limits.Within limits') {prove prove' : Prover}
    (hprove : Prover.Kept limits prove prove') (goal : Predicate) (s : Substitution)
    (rules : List Rule) (cutOff : Bool) (st : SearchState) :
    Kept limits (chainRules limits prove goal s rules cutOff st)
      (chainRules limits' prove' goal s rules cutOff st) := by
  induction rules generalizing cutOff st with
  | nil => exact .inl rfl
  | cons rule rules ih =>
      rw [chainRules, chainRules]
      obtain hlt | hspent := Nat.lt_or_ge st.steps limits.maxSteps
      · rw [SearchState.tick?_of_lt hlt, tick?_within h hlt]
        dsimp only
        cases unifyPredicates (rule.rename st.tried.nextGeneration.generation).conclusion
            goal s with
        | none => exact ih cutOff _
        | some bound =>
            dsimp only
            obtain heq | ⟨hexhausted, hspent⟩ := hprove
              (bound.apply (rule.rename st.tried.nextGeneration.generation).premise) bound
              st.tried.nextGeneration
            · rw [heq]
              obtain ⟨result, st₁⟩ := prove
                (bound.apply (rule.rename st.tried.nextGeneration.generation).premise) bound
                st.tried.nextGeneration
              cases result with
              | proved proof => exact .inl rfl
              | failed => exact ih cutOff st₁
              | exhausted => exact ih true st₁
            · -- Without steps the rules that are left are exhausted as well.
              revert hexhausted hspent
              obtain ⟨result, st₁⟩ := prove
                (bound.apply (rule.rename st.tried.nextGeneration.generation).premise) bound
                st.tried.nextGeneration
              rintro rfl hspent
              refine .inr ?_
              dsimp only
              rw [chainRules_spent hspent]
              exact ⟨by simp, hspent⟩
      · rw [SearchState.tick?_of_le hspent]
        exact .inr ⟨rfl, hspent⟩

theorem factsThen_kept (h : limits.Within limits') {next next' : Prover}
    (hnext : Prover.Kept limits next next') :
    Prover.Kept limits (factsThen kb limits next) (factsThen kb limits' next') := by
  intro goal s st
  have hfacts := matchFacts_kept h goal s (candidates kb goal) st
  rw [factsThen, factsThen]
  generalize matchFacts limits goal s (candidates kb goal) st = out at hfacts ⊢
  obtain ⟨result, st₁⟩ := out
  obtain heq | ⟨rfl, hspent⟩ := hfacts
  · rw [heq]
    cases result with
    | failed => exact hnext goal s st₁
    | proved | exhausted => exact .inl rfl
  · exact .inr ⟨rfl, hspent⟩

theorem byRules_kept (h : limits.Within limits') (kb : Snapshot Time) (depth : Nat) :
    Prover.Kept limits (byRules kb limits depth) (byRules kb limits' depth) := by
  induction depth with
  | zero => exact fun _ _ _ => .inl rfl
  | succ depth ih =>
      exact fun goal s st => chainRules_kept h (factsThen_kept h ih) goal s kb.rules false st

theorem ask_kept (h : limits.Within limits') (kb : Snapshot Time) (depth : Nat) :
    Prover.Kept limits (ask kb limits depth) (ask kb limits' depth) :=
  factsThen_kept h (byRules_kept h kb depth)

theorem matchAll_prolonged (h : limits.Within limits') (goal : Predicate) (s : Substitution)
    (facts : List Predicate) (st : SearchState) :
    Prolonged limits (matchAll limits goal s facts st) (matchAll limits' goal s facts st) := by
  induction facts generalizing st with
  | nil => exact .inl rfl
  | cons fact facts ih =>
      rw [matchAll, matchAll]
      obtain hlt | hspent := Nat.lt_or_ge st.steps limits.maxSteps
      · rw [SearchState.tick?_of_lt hlt, tick?_within h hlt]
        dsimp only
        obtain heq | ⟨hcut, hspent, hfound⟩ := ih st.tried
        · rw [heq]
          exact .inl rfl
        · refine .inr ?_
          cases unifyPredicates fact goal s with
          | none => exact ⟨hcut, hspent, hfound⟩
          | some proof => exact ⟨hcut, hspent, List.prefix_cons_inj _ |>.mpr hfound⟩
      · rw [SearchState.tick?_of_le hspent]
        exact .inr ⟨rfl, hspent, List.nil_prefix⟩

theorem chainAll_prolonged (h : limits.Within limits') {solve solve' : Solver}
    (hsolve : Solver.Prolonged limits solve solve') (goal : Predicate) (s : Substitution)
    (rules : List Rule) (st : SearchState) :
    Prolonged limits (chainAll limits solve goal s rules st)
      (chainAll limits' solve' goal s rules st) := by
  induction rules generalizing st with
  | nil => exact .inl rfl
  | cons rule rules ih =>
      rw [chainAll, chainAll]
      obtain hlt | hspent := Nat.lt_or_ge st.steps limits.maxSteps
      · rw [SearchState.tick?_of_lt hlt, tick?_within h hlt]
        dsimp only
        cases unifyPredicates (rule.rename st.tried.nextGeneration.generation).conclusion
            goal s with
        | none => exact ih _
        | some bound =>
            dsimp only
            obtain heq | ⟨hcut, hspent, hfound⟩ := hsolve
              (bound.apply (rule.rename st.tried.nextGeneration.generation).premise) bound
              st.tried.nextGeneration
            · rw [heq]
              generalize solve
                (bound.apply (rule.rename st.tried.nextGeneration.generation).premise) bound
                st.tried.nextGeneration = inner
              obtain heq | ⟨hcut, hspent, hfound⟩ := ih (recordAll goal inner.1.found inner.2)
              · refine .inl ?_
                rw [recordAll] at heq
                rw [heq]
              · exact .inr ⟨by rw [recordAll] at hcut; simp [hcut], hspent,
                  List.prefix_append_right_inj _ |>.mpr hfound⟩
            · -- Without steps the rules that are left add no proof.
              generalize solve
                (bound.apply (rule.rename st.tried.nextGeneration.generation).premise) bound
                st.tried.nextGeneration = inner at hcut hspent hfound ⊢
              have hrecorded : Spent limits (recordAll goal inner.1.found inner.2) :=
                hspent.later (forward_recordAll goal inner.1.found inner.2)
              have hrest := chainAll_spent hrecorded solve goal s rules
              rw [recordAll] at hrest
              rw [hrest]
              refine .inr ⟨by simp [hcut], hrecorded, ?_⟩
              rw [List.append_nil]
              exact hfound.trans (List.prefix_append _ _)
      · rw [SearchState.tick?_of_le hspent]
        exact .inr ⟨rfl, hspent, List.nil_prefix⟩

theorem factsAnd_prolonged (h : limits.Within limits') {next next' : Solver}
    (hnext : Solver.Prolonged limits next next') :
    Solver.Prolonged limits (factsAnd kb limits next) (factsAnd kb limits' next') := by
  intro goal s st
  have hfacts := matchAll_prolonged h goal s (candidates kb goal) st
  rw [factsAnd, factsAnd]
  generalize matchAll limits goal s (candidates kb goal) st = out at hfacts ⊢
  obtain ⟨⟨found, cutOff⟩, st₁⟩ := out
  obtain heq | ⟨rfl, hspent, hfound⟩ := hfacts
  · rw [heq]
    cases cutOff with
    | true => exact .inl rfl
    | false =>
        obtain heq | ⟨hcut, hspent, hfound⟩ := hnext goal s st₁
        · refine .inl ?_
          simp only [heq]
        · exact .inr ⟨hcut, hspent, List.prefix_append_right_inj _ |>.mpr hfound⟩
  · refine .inr ⟨rfl, hspent, ?_⟩
    generalize matchAll limits' goal s (candidates kb goal) st = out' at hfound ⊢
    obtain ⟨⟨found', cutOff'⟩, st₁'⟩ := out'
    cases cutOff' with
    | true => exact hfound
    | false => exact hfound.trans (List.prefix_append _ _)

theorem solveByRules_prolonged (h : limits.Within limits') (kb : Snapshot Time) (depth : Nat) :
    Solver.Prolonged limits (solveByRules kb limits depth) (solveByRules kb limits' depth) := by
  induction depth with
  | zero => exact fun _ _ _ => .inl rfl
  | succ depth ih =>
      exact fun goal s st => chainAll_prolonged h (factsAnd_prolonged h ih) goal s kb.rules st

theorem solve_prolonged (h : limits.Within limits') (kb : Snapshot Time) (depth : Nat) :
    Solver.Prolonged limits (solve kb limits depth) (solve kb limits' depth) :=
  factsAnd_prolonged h (solveByRules_prolonged h kb depth)

theorem tryDefaults_false (kb : Snapshot Time) (limits : Limits) (goal : Predicate)
    (reasoning : Reasoning) (out : SearchResult × SearchState) :
    tryDefaults kb limits false goal reasoning out = (reasoning, out) := by
  obtain ⟨result, st⟩ := out
  cases result <;> rfl

/-- Without default rules a search that is not exhausted takes the same course with more
steps. -/
theorem run_kept (h : limits.Within limits') (kb : Snapshot Time) (goal : Predicate)
    (st : SearchState) (hdecided : (run kb limits false goal st).2.1 ≠ .exhausted) :
    run kb limits' false goal st = run kb limits false goal st := by
  have hfacts := matchFacts_kept h goal ∅ (candidates kb goal) st
  rw [run_eq] at hdecided ⊢
  rw [run_eq]
  generalize matchFacts limits goal ∅ (candidates kb goal) st = out at hfacts hdecided ⊢
  obtain ⟨result, st₁⟩ := out
  obtain heq | ⟨rfl, -⟩ := hfacts
  · rw [heq]
    cases result with
    | proved | exhausted => simp only [tryDefaults_false]
    | failed =>
        simp only [tryDefaults_false, h.depth] at hdecided ⊢
        obtain heq | ⟨hexhausted, -⟩ := byRules_kept h kb limits.maxDepth goal ∅ st₁
        · rw [heq]
        · exact absurd hexhausted hdecided
  · simp only [tryDefaults_false] at hdecided
    exact absurd rfl hdecided

end Larger

end Search
end Defeasible
