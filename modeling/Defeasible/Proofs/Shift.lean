import Defeasible.Proofs.Equivariance
import Defeasible.Proofs.Consistency

/-!
Searches from another state. A search reads the generation only to make fresh names and the
steps only to stop at the limit. A search that starts some generations and steps later, with
a limit that is later by as many steps, therefore finds the same proofs with the fresh names
moved up and ends as much later as it started. It does not read the facts noted as derived
before.
-/

namespace Defeasible

variable {Time : Type}

/-- The exchange leaves the names up to the generation `g` alone and moves those of each
later generation up by `d`. -/
structure Shift (g d : Nat) (ρ : String → String) : Prop where
  injective : ρ.Injective
  older : ∀ v, Older g v → ρ v = v
  fresh : ∀ k v, g < k → ρ (freshName k v) = freshName (k + d) v

theorem exists_shift (g d : Nat) : ∃ ρ, Shift g d ρ := by
  classical
  let ρ : String → String := fun v =>
    if h : ∃ k u, g < k ∧ freshName k u = v then freshName (h.choose + d) h.choose_spec.choose
    else v
  have hfresh : ∀ k v, g < k → ρ (freshName k v) = freshName (k + d) v := fun k v hk => by
    have h : ∃ j u, g < j ∧ freshName j u = freshName k v := ⟨k, v, hk, rfl⟩
    obtain ⟨hj, hv⟩ := freshName_inj h.choose_spec.choose_spec.2
    simp only [ρ, dif_pos h]
    rw [hv, hj]
  have hother : ∀ v, (¬ ∃ k u, g < k ∧ freshName k u = v) → ρ v = v := fun v h => dif_neg h
  refine ⟨ρ, fun v w h => ?_, fun v hv => hother v ?_, hfresh⟩
  · by_cases hv : ∃ k u, g < k ∧ freshName k u = v <;>
      by_cases hw : ∃ k u, g < k ∧ freshName k u = w
    · obtain ⟨j, u, hj, rfl⟩ := hv
      obtain ⟨k, u', hk, rfl⟩ := hw
      rw [hfresh j u hj, hfresh k u' hk] at h
      obtain ⟨heq, rfl⟩ := freshName_inj h
      rw [Nat.add_right_cancel heq]
    · obtain ⟨j, u, hj, rfl⟩ := hv
      rw [hfresh j u hj, hother w hw] at h
      exact absurd ⟨_, _, Nat.lt_add_right d hj, h⟩ hw
    · obtain ⟨k, u, hk, rfl⟩ := hw
      rw [hfresh k u hk, hother v hv] at h
      exact absurd ⟨_, _, Nat.lt_add_right d hk, h.symm⟩ hv
    · rwa [hother v hv, hother w hw] at h
  · rintro ⟨k, u, hk, rfl⟩
    exact hv k u hk rfl

def Rule.mapNames (ρ : String → String) (r : Rule) : Rule :=
  ⟨r.premise.mapNames ρ, r.conclusion.mapNames ρ⟩

def DefaultRule.mapNames (ρ : String → String) (r : DefaultRule) : DefaultRule :=
  { r with premise := r.premise.mapNames ρ, conclusion := r.conclusion.mapNames ρ }

@[simp] theorem DefaultRule.premise_mapNames (ρ : String → String) (r : DefaultRule) :
    (r.mapNames ρ).premise = r.premise.mapNames ρ := rfl

@[simp] theorem DefaultRule.conclusion_mapNames (ρ : String → String) (r : DefaultRule) :
    (r.mapNames ρ).conclusion = r.conclusion.mapNames ρ := rfl

section Shift

variable {g d k : Nat} {ρ : String → String}

theorem Shift.plain (hρ : Shift g d ρ) (v : String) (hv : Plain v) : ρ v = v :=
  hρ.older v (hv.older g)

theorem Shift.mapNames_of_plain (hρ : Shift g d ρ) {p : Predicate} (hp : p.Plain) :
    p.mapNames ρ = p :=
  Predicate.mapNames_of_fixed fun v hv => hρ.plain v (hp v hv)

/-- The names of a later generation are those of an earlier one, moved. -/
theorem Shift.subst_freshName (hρ : Shift g d ρ) (hk : g < k) (p : Predicate) :
    (p.subst fun v => .var (freshName (k + d) v)) =
      (p.subst fun v => .var (freshName k v)).mapNames ρ := by
  rw [Predicate.mapNames, Predicate.subst_subst]
  exact Predicate.subst_congr fun v _ => congrArg Term.var (hρ.fresh k v hk).symm

theorem Shift.rename (hρ : Shift g d ρ) {r : Rule} (hr : r.Plain) (hk : g < k) :
    r.rename (k + d) = (r.rename k).mapNames ρ := by
  obtain ⟨hpremise, hconclusion⟩ := hr.rename (k + d)
  obtain ⟨hpremise', hconclusion'⟩ := hr.rename k
  rw [Rule.mapNames, hpremise', hconclusion', ← hρ.subst_freshName hk, ← hρ.subst_freshName hk,
    ← hpremise, ← hconclusion]

theorem Shift.renameDefault (hρ : Shift g d ρ) {r : DefaultRule} (hr : r.Plain) (hk : g < k) :
    r.rename (k + d) = (r.rename k).mapNames ρ := by
  have hstrict : r.strict.rename (k + d) = (r.strict.rename k).mapNames ρ := hρ.rename hr hk
  have hpremise : (r.rename (k + d)).premise = (r.rename k).premise.mapNames ρ :=
    congrArg Rule.premise hstrict
  have hconclusion : (r.rename (k + d)).conclusion = (r.rename k).conclusion.mapNames ρ :=
    congrArg Rule.conclusion hstrict
  rw [DefaultRule.mapNames, ← hpremise, ← hconclusion]
  rfl

/-- Moved names are never plain. -/
theorem Shift.mapNames_eq_self (hρ : Shift g d ρ) {p : Predicate} (h : (p.mapNames ρ).Plain) :
    p.mapNames ρ = p :=
  (Predicate.mapNames_inj hρ.injective).mp (hρ.mapNames_of_plain h)

end Shift

/-- No variable that the snapshot mentions is a generated one. -/
structure Snapshot.Plain (kb : Snapshot Time) : Prop where
  facts : kb.FactsGround
  rules : ∀ r ∈ kb.rules, r.Plain
  defaultRules : ∀ r ∈ kb.defaultRules, r.Plain
  exceptions : ∀ e ∈ kb.exceptions, e.excluded.Plain

/-- The same limits but for so many steps more. -/
def Limits.more (limits : Limits) (n : Nat) : Limits :=
  { limits with maxSteps := limits.maxSteps + n }

/-- By how much a second search is ahead of a first one: in generations, counted from one that
the first has reached, and in steps. The flag tells that both have noted the same facts. -/
structure Lead where
  since : Nat
  generations : Nat
  steps : Nat
  sameNotes : Prop

namespace Search

/-- The second state is ahead of the first one. -/
structure Ahead (lead : Lead) (st st' : SearchState) : Prop where
  since : lead.since ≤ st.generation
  generation : st'.generation = st.generation + lead.generations
  steps : st'.steps = st.steps + lead.steps
  derived : lead.sameNotes → st'.derived = st.derived

namespace Ahead

variable {lead : Lead} {limits : Limits} {st st' : SearchState} {ρ : String → String}

theorem tick?_of_lt (h : Ahead lead st st') (hlt : st.steps < limits.maxSteps) :
    st'.tick? (limits.more lead.steps) = some st'.tried :=
  SearchState.tick?_of_lt (h.steps ▸ Nat.add_lt_add_right hlt lead.steps)

theorem tick?_of_le (h : Ahead lead st st') (hle : limits.maxSteps ≤ st.steps) :
    st'.tick? (limits.more lead.steps) = none :=
  SearchState.tick?_of_le (h.steps ▸ Nat.add_le_add_right hle lead.steps)

theorem tried (h : Ahead lead st st') : Ahead lead st.tried st'.tried :=
  ⟨h.since, h.generation, by simp only [SearchState.tried, h.steps, Nat.add_right_comm], h.derived⟩

theorem nextGeneration (h : Ahead lead st st') : Ahead lead st.nextGeneration st'.nextGeneration :=
  ⟨Nat.le_succ_of_le h.since,
    by simp only [SearchState.nextGeneration, h.generation, Nat.add_right_comm], h.steps, h.derived⟩

theorem record (h : Ahead lead st st') (p : Predicate) :
    Ahead lead (st.record p) (st'.record (p.mapNames ρ)) := by
  simp only [SearchState.record, Predicate.isGround_mapNames]
  split
  next hground =>
    rw [Predicate.mapNames_of_isGround hground]
    exact ⟨h.since, h.generation, h.steps, fun hsame => by rw [h.derived hsame]⟩
  next => exact h

/-- Rules that are renamed in the next generations differ by the names moved. -/
theorem rename (h : Ahead lead st st') (hρ : Shift lead.since lead.generations ρ) {r : Rule}
    (hr : r.Plain) : r.rename st'.nextGeneration.generation =
      (r.rename st.nextGeneration.generation).mapNames ρ := by
  rw [h.nextGeneration.generation]
  exact hρ.rename hr (Nat.lt_succ_of_le h.since)

theorem renameDefault (h : Ahead lead st st') (hρ : Shift lead.since lead.generations ρ)
    {r : DefaultRule} (hr : r.Plain) :
    r.rename (st'.generation + 1) = (r.rename (st.generation + 1)).mapNames ρ := by
  rw [h.generation, Nat.add_right_comm]
  exact hρ.renameDefault hr (Nat.lt_succ_of_le h.since)

end Ahead

end Search

def SearchResult.mapNames (ρ : String → String) : SearchResult → SearchResult
  | .proved proof => .proved (proof.mapNames ρ)
  | .failed => .failed
  | .exhausted => .exhausted

def Solutions.mapNames (ρ : String → String) (out : Solutions) : Solutions :=
  { out with found := out.found.map (Substitution.mapNames ρ) }

namespace Search

/-- The second search comes to the same as the first, with its names moved, and stays ahead. -/
def Follows (ρ : String → String) (lead : Lead) (out out' : SearchResult × SearchState) : Prop :=
  out'.1 = out.1.mapNames ρ ∧ Ahead lead out.2 out'.2

def FollowsAll (ρ : String → String) (lead : Lead) (out out' : Solutions × SearchState) : Prop :=
  out'.1 = out.1.mapNames ρ ∧ Ahead lead out.2 out'.2

def FollowsChoice (ρ : String → String) (lead : Lead)
    (out out' : Option Substitution × Bool × SearchState) : Prop :=
  out'.1 = out.1.map (Substitution.mapNames ρ) ∧ out'.2.1 = out.2.1 ∧ Ahead lead out.2.2 out'.2.2

/-- From a state that is ahead the second search follows the first. -/
def Prover.Follows (ρ : String → String) (lead : Lead) (prove prove' : Prover) : Prop :=
  ∀ goal s st st', Ahead lead st st' →
    Search.Follows ρ lead (prove goal s st) (prove' (goal.mapNames ρ) (s.mapNames ρ) st')

def Solver.Follows (ρ : String → String) (lead : Lead) (solve solve' : Solver) : Prop :=
  ∀ goal s st st', Ahead lead st st' →
    FollowsAll ρ lead (solve goal s st) (solve' (goal.mapNames ρ) (s.mapNames ρ) st')

variable {lead : Lead} {ρ : String → String} {limits : Limits} {st st' : SearchState}

theorem matchFacts_shift (hρ : Shift lead.since lead.generations ρ) (goal : Predicate)
    (s : Substitution) {facts : List Predicate} (hfacts : ∀ p ∈ facts, p.isGround = true)
    (h : Ahead lead st st') :
    Follows ρ lead (matchFacts limits goal s facts st)
      (matchFacts (limits.more lead.steps) (goal.mapNames ρ) (s.mapNames ρ) facts st') := by
  induction facts generalizing st st' with
  | nil => exact ⟨rfl, h⟩
  | cons fact facts ih =>
      rw [List.forall_mem_cons] at hfacts
      obtain hlt | hle := Nat.lt_or_ge st.steps limits.maxSteps
      · simp only [matchFacts, SearchState.tick?_of_lt hlt, h.tick?_of_lt hlt,
          unifyPredicates_ground_mapNames hρ.injective hfacts.1]
        cases unifyPredicates fact goal s with
        | none => exact ih hfacts.2 h.tried
        | some proof => exact ⟨rfl, h.tried⟩
      · simp only [matchFacts, SearchState.tick?_of_le hle, h.tick?_of_le hle]
        exact ⟨rfl, h⟩

theorem chainRules_shift (hρ : Shift lead.since lead.generations ρ) {prove prove' : Prover}
    (hprove : Prover.Follows ρ lead prove prove') (goal : Predicate) (s : Substitution)
    {rules : List Rule} (hrules : ∀ r ∈ rules, r.Plain) (cutOff : Bool) (h : Ahead lead st st') :
    Follows ρ lead (chainRules limits prove goal s rules cutOff st)
      (chainRules (limits.more lead.steps) prove' (goal.mapNames ρ) (s.mapNames ρ) rules cutOff
        st') := by
  induction rules generalizing cutOff st st' with
  | nil => cases cutOff <;> exact ⟨rfl, h⟩
  | cons rule rules ih =>
      rw [List.forall_mem_cons] at hrules
      obtain hlt | hle := Nat.lt_or_ge st.steps limits.maxSteps
      · have hnext := h.tried.nextGeneration
        simp only [chainRules, SearchState.tick?_of_lt hlt, h.tick?_of_lt hlt,
          h.tried.rename hρ hrules.1, Rule.mapNames, unifyPredicates_mapNames hρ.injective]
        cases unifyPredicates (rule.rename st.tried.nextGeneration.generation).conclusion goal
            s with
        | none => exact ih hrules.2 cutOff hnext
        | some bound =>
            simp only [Option.map_some, Substitution.apply_mapNames hρ.injective]
            have hpremise := hprove
              (bound.apply (rule.rename st.tried.nextGeneration.generation).premise) bound _ _ hnext
            generalize prove _ bound _ = out at hpremise ⊢
            generalize prove' _ _ _ = out' at hpremise ⊢
            obtain ⟨result, st₁⟩ := out
            obtain ⟨result', st₁'⟩ := out'
            obtain ⟨rfl, hafter⟩ : result' = result.mapNames ρ ∧ Ahead lead st₁ st₁' := hpremise
            cases result with
            | proved proof =>
                simp only [SearchResult.mapNames, Substitution.apply_mapNames hρ.injective]
                exact ⟨rfl, hafter.record _⟩
            | exhausted => exact ih hrules.2 true hafter
            | failed => exact ih hrules.2 cutOff hafter
      · simp only [chainRules, SearchState.tick?_of_le hle, h.tick?_of_le hle]
        exact ⟨rfl, h⟩

theorem matchAll_shift (hρ : Shift lead.since lead.generations ρ) (goal : Predicate)
    (s : Substitution) {facts : List Predicate} (hfacts : ∀ p ∈ facts, p.isGround = true)
    (h : Ahead lead st st') :
    FollowsAll ρ lead (matchAll limits goal s facts st)
      (matchAll (limits.more lead.steps) (goal.mapNames ρ) (s.mapNames ρ) facts st') := by
  induction facts generalizing st st' with
  | nil => exact ⟨rfl, h⟩
  | cons fact facts ih =>
      rw [List.forall_mem_cons] at hfacts
      obtain hlt | hle := Nat.lt_or_ge st.steps limits.maxSteps
      · simp only [matchAll, SearchState.tick?_of_lt hlt, h.tick?_of_lt hlt,
          unifyPredicates_ground_mapNames hρ.injective hfacts.1]
        obtain ⟨hrest, hafter⟩ := ih hfacts.2 h.tried
        rw [hrest]
        cases unifyPredicates fact goal s with
        | none => exact ⟨rfl, hafter⟩
        | some proof => exact ⟨rfl, hafter⟩
      · simp only [matchAll, SearchState.tick?_of_le hle, h.tick?_of_le hle]
        exact ⟨rfl, h⟩

theorem foldl_record_shift (hρ : Shift lead.since lead.generations ρ) (goal : Predicate)
    (proofs : List Substitution) (h : Ahead lead st st') :
    Ahead lead (proofs.foldl (fun st proof => st.record (proof.apply goal)) st)
      ((proofs.map (Substitution.mapNames ρ)).foldl
        (fun st proof => st.record (proof.apply (goal.mapNames ρ))) st') := by
  induction proofs generalizing st st' with
  | nil => exact h
  | cons proof proofs ih =>
      rw [List.map_cons, List.foldl_cons, List.foldl_cons, Substitution.apply_mapNames hρ.injective]
      exact ih (h.record _)

theorem chainAll_shift (hρ : Shift lead.since lead.generations ρ) {solve solve' : Solver}
    (hsolve : Solver.Follows ρ lead solve solve') (goal : Predicate) (s : Substitution)
    {rules : List Rule} (hrules : ∀ r ∈ rules, r.Plain) (h : Ahead lead st st') :
    FollowsAll ρ lead (chainAll limits solve goal s rules st)
      (chainAll (limits.more lead.steps) solve' (goal.mapNames ρ) (s.mapNames ρ) rules st') := by
  induction rules generalizing st st' with
  | nil => exact ⟨rfl, h⟩
  | cons rule rules ih =>
      rw [List.forall_mem_cons] at hrules
      obtain hlt | hle := Nat.lt_or_ge st.steps limits.maxSteps
      · have hnext := h.tried.nextGeneration
        simp only [chainAll, SearchState.tick?_of_lt hlt, h.tick?_of_lt hlt,
          h.tried.rename hρ hrules.1, Rule.mapNames, unifyPredicates_mapNames hρ.injective]
        cases unifyPredicates (rule.rename st.tried.nextGeneration.generation).conclusion goal
            s with
        | none => exact ih hrules.2 hnext
        | some bound =>
            simp only [Option.map_some, Substitution.apply_mapNames hρ.injective]
            have hpremise := hsolve
              (bound.apply (rule.rename st.tried.nextGeneration.generation).premise) bound _ _ hnext
            generalize solve _ bound _ = out at hpremise ⊢
            generalize solve' _ _ _ = out' at hpremise ⊢
            obtain ⟨inner, st₁⟩ := out
            obtain ⟨inner', st₁'⟩ := out'
            obtain ⟨rfl, hafter⟩ : inner' = inner.mapNames ρ ∧ Ahead lead st₁ st₁' := hpremise
            obtain ⟨hrest, hlast⟩ := ih hrules.2 (foldl_record_shift hρ goal inner.found hafter)
            refine ⟨?_, hlast⟩
            dsimp only [Solutions.mapNames] at hrest ⊢
            rw [hrest, List.map_append]
      · simp only [chainAll, SearchState.tick?_of_le hle, h.tick?_of_le hle]
        exact ⟨rfl, h⟩

variable {kb : Snapshot Time} {derived : List Predicate}

theorem candidates_mapNames (goal : Predicate) :
    candidates { kb with derived } (goal.mapNames ρ) = candidates kb goal := rfl

theorem ground_of_mem_candidates (hkb : kb.FactsGround) (goal : Predicate) :
    ∀ p ∈ candidates kb goal, p.isGround = true := fun p hp =>
  hkb p (mem_stored_of_mem_candidates hp)

theorem factsThen_shift (hρ : Shift lead.since lead.generations ρ) (hkb : kb.FactsGround)
    {next next' : Prover} (hnext : Prover.Follows ρ lead next next') :
    Prover.Follows ρ lead (factsThen kb limits next)
      (factsThen { kb with derived } (limits.more lead.steps) next') := by
  intro goal s st st' h
  have hfacts : Follows ρ lead (matchFacts limits goal s (candidates kb goal) st) _ :=
    matchFacts_shift hρ goal s (ground_of_mem_candidates hkb goal) h
  simp only [factsThen, candidates_mapNames]
  generalize matchFacts limits goal s (candidates kb goal) st = out at hfacts ⊢
  generalize matchFacts _ _ _ _ st' = out' at hfacts ⊢
  obtain ⟨result, st₁⟩ := out
  obtain ⟨result', st₁'⟩ := out'
  obtain ⟨rfl, hafter⟩ : result' = result.mapNames ρ ∧ Ahead lead st₁ st₁' := hfacts
  cases result with
  | failed => exact hnext goal s _ _ hafter
  | proved | exhausted => exact ⟨rfl, hafter⟩

theorem factsAnd_shift (hρ : Shift lead.since lead.generations ρ) (hkb : kb.FactsGround)
    {next next' : Solver} (hnext : Solver.Follows ρ lead next next') :
    Solver.Follows ρ lead (factsAnd kb limits next)
      (factsAnd { kb with derived } (limits.more lead.steps) next') := by
  intro goal s st st' h
  have hfacts : FollowsAll ρ lead (matchAll limits goal s (candidates kb goal) st) _ :=
    matchAll_shift hρ goal s (ground_of_mem_candidates hkb goal) h
  simp only [factsAnd, candidates_mapNames]
  generalize matchAll limits goal s (candidates kb goal) st = out at hfacts ⊢
  generalize matchAll _ _ _ _ st' = out' at hfacts ⊢
  obtain ⟨⟨found, cutOff⟩, st₁⟩ := out
  obtain ⟨out₁', st₁'⟩ := out'
  obtain ⟨rfl, hafter⟩ : out₁' = Solutions.mapNames ρ ⟨found, cutOff⟩ ∧ Ahead lead st₁ st₁' :=
    hfacts
  cases cutOff with
  | true => exact ⟨rfl, hafter⟩
  | false =>
      obtain ⟨hmore, hlast⟩ := hnext goal s _ _ hafter
      refine ⟨?_, hlast⟩
      dsimp only [Solutions.mapNames] at hmore ⊢
      rw [hmore, List.map_append]

theorem byRules_shift (hρ : Shift lead.since lead.generations ρ) (hkb : kb.Plain) (depth : Nat) :
    Prover.Follows ρ lead (byRules kb limits depth)
      (byRules { kb with derived } (limits.more lead.steps) depth) := by
  induction depth with
  | zero => exact fun _ _ _ _ h => ⟨rfl, h⟩
  | succ depth ih =>
      intro goal s st st' h
      exact chainRules_shift hρ (factsThen_shift hρ hkb.facts ih) goal s hkb.rules false h

theorem solveByRules_shift (hρ : Shift lead.since lead.generations ρ) (hkb : kb.Plain)
    (depth : Nat) : Solver.Follows ρ lead (solveByRules kb limits depth)
      (solveByRules { kb with derived } (limits.more lead.steps) depth) := by
  induction depth with
  | zero => exact fun _ _ _ _ h => ⟨rfl, h⟩
  | succ depth ih =>
      intro goal s st st' h
      exact chainAll_shift hρ (factsAnd_shift hρ hkb.facts ih) goal s hkb.rules h

theorem ask_shift (hρ : Shift lead.since lead.generations ρ) (hkb : kb.Plain) (depth : Nat) :
    Prover.Follows ρ lead (ask kb limits depth)
      (ask { kb with derived } (limits.more lead.steps) depth) :=
  factsThen_shift hρ hkb.facts (byRules_shift hρ hkb depth)

theorem solve_shift (hρ : Shift lead.since lead.generations ρ) (hkb : kb.Plain) (depth : Nat) :
    Solver.Follows ρ lead (solve kb limits depth)
      (solve { kb with derived } (limits.more lead.steps) depth) :=
  factsAnd_shift hρ hkb.facts (solveByRules_shift hρ hkb depth)

/-- An exception names no generated variable, so it holds of an instance with its names
moved only if it holds of the instance itself. -/
theorem isInForce_shift (hρ : Shift lead.since lead.generations ρ) (hkb : kb.Plain)
    (stored renamed : DefaultRule) (proof : Substitution) :
    isInForce { kb with derived } stored (renamed.mapNames ρ) (proof.mapNames ρ) =
      isInForce kb stored renamed proof := by
  rw [Bool.eq_iff_iff, isInForce_iff, isInForce_iff, DefaultRule.premise_mapNames,
    Substitution.apply_mapNames hρ.injective]
  refine not_congr ⟨fun h => ?_, fun h => ?_⟩
  · rwa [hρ.mapNames_eq_self (hkb.exceptions _ h)] at h
  · rwa [hρ.mapNames_of_plain (hkb.exceptions _ h)]

theorem find?_isInForce_shift (hρ : Shift lead.since lead.generations ρ) (hkb : kb.Plain)
    (stored renamed : DefaultRule) (proofs : List Substitution) :
    (proofs.map (Substitution.mapNames ρ)).find?
        (isInForce { kb with derived } stored (renamed.mapNames ρ)) =
      (proofs.find? (isInForce kb stored renamed)).map (Substitution.mapNames ρ) := by
  have hsame : isInForce { kb with derived } stored (renamed.mapNames ρ) ∘
      Substitution.mapNames ρ = isInForce kb stored renamed :=
    funext fun proof => isInForce_shift hρ hkb stored renamed proof
  rw [List.find?_map, hsame]

theorem defaultSolutions_shift (hρ : Shift lead.since lead.generations ρ) (hkb : kb.Plain)
    {r : DefaultRule} (hr : r.Plain) (bound : Substitution) (h : Ahead lead st st') :
    FollowsAll ρ lead (defaultSolutions kb limits r bound st)
      (defaultSolutions { kb with derived } (limits.more lead.steps) r (bound.mapNames ρ) st') := by
  rw [defaultSolutions, defaultSolutions, h.renameDefault hρ hr, DefaultRule.premise_mapNames,
    Substitution.apply_mapNames hρ.injective]
  exact solve_shift hρ hkb (innerDepth limits) _ bound _ _ h.nextGeneration

theorem competing_shift (hρ : Shift lead.since lead.generations ρ) (hkb : kb.Plain)
    (contrary : Predicate) {rules : List DefaultRule} (hrules : ∀ r ∈ rules, r.Plain)
    (cutOff : Bool) (h : Ahead lead st st') :
    Follows ρ lead (competing kb limits contrary rules cutOff st)
      (competing { kb with derived } (limits.more lead.steps) (contrary.mapNames ρ) rules cutOff
        st') := by
  induction rules generalizing cutOff st st' with
  | nil => cases cutOff <;> exact ⟨rfl, h⟩
  | cons stored rules ih =>
      rw [List.forall_mem_cons] at hrules
      rw [competing_cons, competing_cons, h.renameDefault hρ hrules.1,
        DefaultRule.conclusion_mapNames, unifyPredicates_empty_mapNames hρ.injective]
      cases unifyPredicates (stored.rename (st.generation + 1)).conclusion contrary ∅ with
      | none => exact ih hrules.2 cutOff h.nextGeneration
      | some bound =>
          obtain ⟨hproofs, hafter⟩ : FollowsAll ρ lead (defaultSolutions kb limits stored bound st)
              (defaultSolutions { kb with derived } (limits.more lead.steps) stored
                (bound.mapNames ρ) st') := defaultSolutions_shift hρ hkb hrules.1 bound h
          simp only [Option.map_some, hproofs, Solutions.mapNames, find?_isInForce_shift hρ hkb]
          cases (defaultSolutions kb limits stored bound st).1.found.find?
              (isInForce kb stored _) with
          | some proof => exact ⟨rfl, hafter⟩
          | none => exact ih hrules.2 _ hafter

theorem hindrance_shift (hρ : Shift lead.since lead.generations ρ) (hkb : kb.Plain)
    (contrary : Predicate) (priority : Certainty) (h : Ahead lead st st') :
    Follows ρ lead (hindrance kb limits contrary priority st)
      (hindrance { kb with derived } (limits.more lead.steps) (contrary.mapNames ρ) priority
        st') := by
  have hask : Follows ρ lead (ask kb limits (innerDepth limits) contrary ∅ st)
      (ask { kb with derived } (limits.more lead.steps) (innerDepth (limits.more lead.steps))
        (contrary.mapNames ρ) ∅ st') := ask_shift hρ hkb (innerDepth limits) contrary ∅ _ _ h
  rw [hindrance, hindrance]
  generalize ask kb limits (innerDepth limits) contrary ∅ st = out at hask ⊢
  generalize ask _ _ _ _ ∅ st' = out' at hask ⊢
  obtain ⟨result, st₁⟩ := out
  obtain ⟨result', st₁'⟩ := out'
  obtain ⟨rfl, hafter⟩ : result' = result.mapNames ρ ∧ Ahead lead st₁ st₁' := hask
  cases result with
  | proved | exhausted => exact ⟨rfl, hafter⟩
  | failed =>
      refine competing_shift hρ hkb contrary (fun r hr => ?_) false hafter
      exact hkb.defaultRules r (List.mem_of_mem_filter hr)

theorem firstUnhindered_shift (hρ : Shift lead.since lead.generations ρ) (hkb : kb.Plain)
    (stored renamed : DefaultRule) (proofs : List Substitution) (cutOff : Bool)
    (h : Ahead lead st st') :
    FollowsChoice ρ lead (firstUnhindered kb limits stored renamed proofs cutOff st)
      (firstUnhindered { kb with derived } (limits.more lead.steps) stored (renamed.mapNames ρ)
        (proofs.map (Substitution.mapNames ρ)) cutOff st') := by
  induction proofs generalizing cutOff st st' with
  | nil => exact ⟨rfl, rfl, h⟩
  | cons proof proofs ih =>
      have hhindrance : Follows ρ lead
          (hindrance kb limits (proof.apply renamed.conclusion).negated stored.priority st)
          (hindrance { kb with derived } (limits.more lead.steps)
            ((proof.apply renamed.conclusion).negated.mapNames ρ) stored.priority st') :=
        hindrance_shift hρ hkb _ stored.priority h
      simp only [List.map_cons, firstUnhindered_cons, isInForce_shift hρ hkb,
        DefaultRule.conclusion_mapNames, Substitution.apply_mapNames hρ.injective,
        Predicate.negated_mapNames]
      split
      · generalize hindrance kb limits _ stored.priority st = out at hhindrance ⊢
        generalize hindrance _ _ _ stored.priority st' = out' at hhindrance ⊢
        obtain ⟨result, st₁⟩ := out
        obtain ⟨result', st₁'⟩ := out'
        obtain ⟨rfl, hafter⟩ : result' = result.mapNames ρ ∧ Ahead lead st₁ st₁' := hhindrance
        cases result with
        | failed => exact ⟨rfl, rfl, hafter.record _⟩
        | proved => exact ih cutOff hafter
        | exhausted => exact ih true hafter
      · exact ih cutOff h

theorem defaultChoice_shift (hρ : Shift lead.since lead.generations ρ) (hkb : kb.Plain)
    {r : DefaultRule} (hr : r.Plain) (bound : Substitution) (cutOff : Bool)
    (h : Ahead lead st st') :
    FollowsChoice ρ lead (defaultChoice kb limits r bound cutOff st)
      (defaultChoice { kb with derived } (limits.more lead.steps) r (bound.mapNames ρ) cutOff
        st') := by
  obtain ⟨hproofs, hafter⟩ : FollowsAll ρ lead (defaultSolutions kb limits r bound st)
      (defaultSolutions { kb with derived } (limits.more lead.steps) r (bound.mapNames ρ) st') :=
    defaultSolutions_shift hρ hkb hr bound h
  rw [defaultChoice, defaultChoice, h.renameDefault hρ hr]
  simp only [hproofs, Solutions.mapNames]
  exact firstUnhindered_shift hρ hkb r _ _ _ hafter

theorem byDefaults_shift (hρ : Shift lead.since lead.generations ρ) (hkb : kb.Plain)
    (goal : Predicate) {rules : List DefaultRule} (hrules : ∀ r ∈ rules, r.Plain) (cutOff : Bool)
    (h : Ahead lead st st') :
    Follows ρ lead (byDefaults kb limits goal rules cutOff st)
      (byDefaults { kb with derived } (limits.more lead.steps) (goal.mapNames ρ) rules cutOff
        st') := by
  induction rules generalizing cutOff st st' with
  | nil => cases cutOff <;> exact ⟨rfl, h⟩
  | cons stored rules ih =>
      rw [List.forall_mem_cons] at hrules
      rw [byDefaults_cons, byDefaults_cons, h.renameDefault hρ hrules.1,
        DefaultRule.conclusion_mapNames, unifyPredicates_empty_mapNames hρ.injective]
      cases unifyPredicates (stored.rename (st.generation + 1)).conclusion goal ∅ with
      | none => exact ih hrules.2 cutOff h.nextGeneration
      | some bound =>
          have hchoice : FollowsChoice ρ lead (defaultChoice kb limits stored bound cutOff st)
              (defaultChoice { kb with derived } (limits.more lead.steps) stored
                (bound.mapNames ρ) cutOff st') :=
            defaultChoice_shift hρ hkb hrules.1 bound cutOff h
          simp only [Option.map_some]
          generalize defaultChoice kb limits stored bound cutOff st = out at hchoice ⊢
          generalize defaultChoice _ _ stored _ cutOff st' = out' at hchoice ⊢
          obtain ⟨chosen, cutOff₁, st₁⟩ := out
          obtain ⟨chosen', cutOff₁', st₁'⟩ := out'
          obtain ⟨rfl, rfl, hafter⟩ : chosen' = chosen.map (Substitution.mapNames ρ) ∧
            cutOff₁' = cutOff₁ ∧ Ahead lead st₁ st₁' := hchoice
          cases chosen with
          | some proof => exact ⟨rfl, hafter⟩
          | none => exact ih hrules.2 cutOff₁' hafter

theorem Follows.inconclusive {out out' : SearchResult × SearchState} (h : Follows ρ lead out out') :
    Follows ρ lead (inconclusive out) (inconclusive out') := by
  obtain ⟨result, st⟩ := out
  obtain ⟨result', st'⟩ := out'
  obtain ⟨rfl, hafter⟩ : result' = result.mapNames ρ ∧ Ahead lead st st' := h
  cases result <;> exact ⟨rfl, hafter⟩

/-- What becomes of the outcome of facts and rules when the default rules may be tried. -/
def tryDefaults (kb : Snapshot Time) (limits : Limits) (useDefaults : Bool) (goal : Predicate)
    (reasoning : Reasoning) (out : SearchResult × SearchState) :
    Reasoning × SearchResult × SearchState :=
  let defaults := byDefaults kb limits goal kb.defaultRules false out.2
  match out.1, useDefaults with
  | .exhausted, true => (.byDefault, inconclusive defaults)
  | .failed, true => (.byDefault, defaults)
  | _, _ => (reasoning, out)

theorem run_eq (kb : Snapshot Time) (limits : Limits) (useDefaults : Bool) (goal : Predicate)
    (st : SearchState) : run kb limits useDefaults goal st =
      match matchFacts limits goal ∅ (candidates kb goal) st with
      | (.failed, st) => tryDefaults kb limits useDefaults goal .rule
          (byRules kb limits limits.maxDepth goal ∅ st)
      | found => tryDefaults kb limits useDefaults goal .fact found := by
  rw [run]
  obtain ⟨result, st⟩ := matchFacts limits goal ∅ (candidates kb goal) st
  cases result with
  | proved => cases useDefaults <;> rfl
  | exhausted =>
      cases useDefaults with
      | false => rfl
      | true => exact inconclusive_eq _
  | failed =>
      simp only
      obtain ⟨result, st⟩ := byRules kb limits limits.maxDepth goal ∅ st
      cases useDefaults with
      | false => cases result <;> rfl
      | true =>
          cases result with
          | proved | failed => rfl
          | exhausted => exact inconclusive_eq _

theorem tryDefaults_shift (hρ : Shift lead.since lead.generations ρ) (hkb : kb.Plain)
    (useDefaults : Bool) {goal : Predicate} (hgoal : goal.Plain) (reasoning : Reasoning)
    {out out' : SearchResult × SearchState} (h : Follows ρ lead out out') :
    (tryDefaults { kb with derived } (limits.more lead.steps) useDefaults goal reasoning out').1 =
        (tryDefaults kb limits useDefaults goal reasoning out).1 ∧
      Follows ρ lead (tryDefaults kb limits useDefaults goal reasoning out).2
        (tryDefaults { kb with derived } (limits.more lead.steps) useDefaults goal reasoning
          out').2 := by
  obtain ⟨result, st⟩ := out
  obtain ⟨result', st'⟩ := out'
  obtain ⟨rfl, hafter⟩ : result' = result.mapNames ρ ∧ Ahead lead st st' := h
  have hdefaults : Follows ρ lead (byDefaults kb limits goal kb.defaultRules false st)
      (byDefaults { kb with derived } (limits.more lead.steps) (goal.mapNames ρ) kb.defaultRules
        false st') := byDefaults_shift hρ hkb goal hkb.defaultRules false hafter
  rw [hρ.mapNames_of_plain hgoal] at hdefaults
  cases useDefaults with
  | false => cases result <;> exact ⟨rfl, rfl, hafter⟩
  | true =>
      cases result with
      | proved => exact ⟨rfl, rfl, hafter⟩
      | failed => exact ⟨rfl, hdefaults⟩
      | exhausted => exact ⟨rfl, hdefaults.inconclusive⟩

theorem run_shift (hρ : Shift lead.since lead.generations ρ) (hkb : kb.Plain) (useDefaults : Bool)
    {goal : Predicate} (hgoal : goal.Plain) (h : Ahead lead st st') :
    (run { kb with derived } (limits.more lead.steps) useDefaults goal st').1 =
        (run kb limits useDefaults goal st).1 ∧
      Follows ρ lead (run kb limits useDefaults goal st).2
        (run { kb with derived } (limits.more lead.steps) useDefaults goal st').2 := by
  have hfacts : Follows ρ lead (matchFacts limits goal ∅ (candidates kb goal) st)
      (matchFacts (limits.more lead.steps) (goal.mapNames ρ) ∅ (candidates kb goal) st') :=
    matchFacts_shift hρ goal ∅ (ground_of_mem_candidates hkb.facts goal) h
  have hcandidates : candidates { kb with derived } goal = candidates kb goal := rfl
  rw [hρ.mapNames_of_plain hgoal] at hfacts
  rw [run_eq, run_eq, hcandidates]
  generalize matchFacts limits goal ∅ (candidates kb goal) st = out at hfacts ⊢
  generalize matchFacts _ goal ∅ (candidates kb goal) st' = out' at hfacts ⊢
  obtain ⟨result, st₁⟩ := out
  obtain ⟨result', st₁'⟩ := out'
  obtain ⟨rfl, hafter⟩ : result' = result.mapNames ρ ∧ Ahead lead st₁ st₁' := hfacts
  cases result with
  | proved | exhausted => exact tryDefaults_shift hρ hkb useDefaults hgoal .fact ⟨rfl, hafter⟩
  | failed =>
      have hrules : Follows ρ lead (byRules kb limits limits.maxDepth goal ∅ st₁)
          (byRules { kb with derived } (limits.more lead.steps) limits.maxDepth (goal.mapNames ρ) ∅
            st₁') := byRules_shift hρ hkb limits.maxDepth goal ∅ _ _ hafter
      rw [hρ.mapNames_of_plain hgoal] at hrules
      exact tryDefaults_shift hρ hkb useDefaults hgoal .rule hrules

end Search

theorem get?_answerBindings_shift {g d : Nat} {ρ : String → String} (hρ : Shift g d ρ)
    {goal : Predicate} (hgoal : goal.Plain) (proof : Substitution) (v : String) :
    (answerBindings goal (proof.mapNames ρ)).get? v =
      ((answerBindings goal proof).get? v).map (Term.mapNames ρ) := by
  rw [answerBindings, answerBindings, OrderedMap.get?_ofList_map, OrderedMap.get?_ofList_map]
  split
  next hv =>
    have hterm := Substitution.applyTerm_mapNames hρ.injective proof (.var v)
    rw [Term.mapNames_var, hρ.plain v (hgoal v hv)] at hterm
    rw [hterm, Option.map_some]
  next => rfl

/-- The answers are equal but for names in the bindings. The bound variables are those of the
goal and keep their names. -/
structure Answer.Follows (ρ : String → String) (a a' : Answer) : Prop where
  outcome : a'.outcome = a.outcome
  reasoning : a'.reasoning = a.reasoning
  derived : a'.derived = a.derived
  steps : a'.steps = a.steps
  bindings : ∀ v, a'.bindings.get? v = (a.bindings.get? v).map (Term.mapNames ρ)

theorem Snapshot.prove_shift {generation d : Nat} {ρ : String → String}
    (hρ : Shift generation d ρ) {kb : Snapshot Time} (hkb : kb.Plain) (derived : List Predicate)
    (limits : Limits) (useDefaults : Bool) {goal : Predicate} (hgoal : goal.Plain) :
    Answer.Follows ρ (kb.prove limits useDefaults generation goal).1
      (prove { kb with derived } limits useDefaults (generation + d) goal).1 := by
  let lead : Lead := ⟨generation, d, 0, True⟩
  have hstart : Search.Ahead lead { generation := generation } { generation := generation + d } :=
    ⟨Nat.le_refl _, rfl, rfl, fun _ => rfl⟩
  obtain ⟨hreasoning, hresult, hafter⟩ :
      (Search.run { kb with derived } limits useDefaults goal { generation := generation + d }).1 =
          (Search.run kb limits useDefaults goal { generation := generation }).1 ∧
        Search.Follows ρ lead (Search.run kb limits useDefaults goal { generation := generation }).2
          (Search.run { kb with derived } limits useDefaults goal
            { generation := generation + d }).2 :=
    Search.run_shift hρ hkb useDefaults hgoal hstart
  rw [prove, prove]
  generalize Search.run kb limits useDefaults goal _ = out at hreasoning hresult hafter ⊢
  generalize Search.run { kb with derived } limits useDefaults goal _ = out'
    at hreasoning hresult hafter ⊢
  obtain ⟨reasoning, result, st⟩ := out
  obtain ⟨reasoning', result', st'⟩ := out'
  obtain rfl : reasoning' = reasoning := hreasoning
  obtain rfl : result' = result.mapNames ρ := hresult
  have hderived : st'.derived = st.derived := hafter.derived trivial
  have hsteps : st'.steps = st.steps := hafter.steps
  cases result with
  | proved proof => exact ⟨rfl, rfl, hderived, hsteps, get?_answerBindings_shift hρ hgoal proof⟩
  | failed | exhausted => exact ⟨rfl, rfl, hderived, hsteps, fun _ => rfl⟩

end Defeasible
