import Defeasible.Proofs.Enumeration

/-!
Soundness of default reasoning. When a default rule applies and what hinders it are
stated without any search, by what is derivable from facts and rules. A failed search
for a hindrance has tried everything, since all its parts were complete and none was
cut off; a conclusion by default is therefore unhindered.

Exceptions have to be ground: a proof of a competing premise that is itself an
excepted instance then stands for no other instance.
-/

namespace Defeasible

variable {Time : Type}

/-- The default rule read as a strict one. -/
def DefaultRule.strict (r : DefaultRule) : Rule := ⟨r.premise, r.conclusion⟩

def DefaultRule.Plain (r : DefaultRule) : Prop := r.strict.Plain

instance (r : DefaultRule) : Decidable r.Plain := inferInstanceAs (Decidable r.strict.Plain)

namespace Snapshot

/-- The default rule is stored, and its premise is derivable and not excepted in this
instance. -/
structure Applies (kb : Snapshot Time) (r : DefaultRule) (σ : String → Term) : Prop where
  stored : r ∈ kb.defaultRules
  derivable : kb.Derivable (r.premise.subst σ)
  unexcepted : ⟨r, r.premise.subst σ⟩ ∉ kb.exceptions

/-- The default rule applies and concludes an instance of the contrary. -/
def Opposes (kb : Snapshot Time) (r : DefaultRule) (contrary : Predicate) : Prop :=
  ∃ τ θ, kb.Applies r τ ∧ r.conclusion.subst τ = contrary.subst θ

/-- No instance of the contrary is derivable, and no default rule of at least the given
priority concludes one. -/
structure Unhindered (kb : Snapshot Time) (contrary : Predicate) (priority : Certainty) : Prop where
  underivable : ∀ θ, ¬ kb.Derivable (contrary.subst θ)
  unopposed : ∀ r, priority ≤ r.priority → ¬ kb.Opposes r contrary

/-- What default reasoning relies on. The first two fields hold of every reachable
knowledge base. -/
structure Regular (kb : Snapshot Time) : Prop where
  factsGround : kb.FactsGround
  kindsApart : kb.KindsApart
  exceptionsGround : ∀ e ∈ kb.exceptions, e.excluded.isGround = true
  rulesPlain : ∀ r ∈ kb.rules, r.Plain
  defaultRulesPlain : ∀ r ∈ kb.defaultRules, r.Plain

end Snapshot

namespace Search

variable {kb : Snapshot Time} {limits : Limits} {goal contrary : Predicate}
  {bound proof : Substitution} {st st' : SearchState} {r : DefaultRule}

theorem isInForce_iff {renamed : DefaultRule} :
    isInForce kb r renamed proof = true ↔ ⟨r, proof.apply renamed.premise⟩ ∉ kb.exceptions := by
  rw [isInForce, Bool.not_eq_true', ← Bool.not_eq_true, Snapshot.isExcepted_iff]

/-- The proofs of the premise of a default rule that is tried in the given state. -/
def defaultSolutions (kb : Snapshot Time) (limits : Limits) (r : DefaultRule) (bound : Substitution)
    (st : SearchState) : Solutions × SearchState :=
  solve kb limits (innerDepth limits) (bound.apply (r.rename (st.generation + 1)).premise) bound
    st.nextGeneration

/-- Each proof of the premise gives an instance of the stored rule. -/
theorem exists_instance (hkb : kb.FactsGround)
    (hunify : unifyPredicates (r.rename (st.generation + 1)).conclusion goal ∅ = some bound)
    (hproof : proof ∈ (defaultSolutions kb limits r bound st).1.found) :
    ∃ σ, proof.apply (r.rename (st.generation + 1)).premise = r.premise.subst σ ∧
      proof.apply (r.rename (st.generation + 1)).conclusion = r.conclusion.subst σ ∧
      proof.apply goal = r.conclusion.subst σ ∧ kb.Derivable (r.premise.subst σ) := by
  obtain ⟨hacyclic, -, hresp⟩ := Substitution.acyclic_empty.unifyPredicates_some hunify
  have hjust := solve_sound hkb limits _ _ _ _ hacyclic proof hproof
  have hresolve := hjust.acyclic.respects_resolve
  have hbound := hresolve.of_extends hjust.keeps
  have hsame := ((hresp _).mp hbound).2
  obtain ⟨τ, hpremise, hconclusion⟩ := rename_eq_subst (st.generation + 1) r.strict
  change (r.rename _).premise = _ at hpremise
  change (r.rename _).conclusion = _ at hconclusion
  obtain ⟨n, -, hn⟩ := hjust.derivable _ hresolve
  rw [hbound.subst_apply, hpremise, Predicate.subst_subst] at hn
  simp only [Substitution.apply_eq_subst, ← hsame, hpremise, hconclusion, Predicate.subst_subst]
  exact ⟨_, rfl, rfl, rfl, hn.derivable⟩

/-- Without a cut-off the proofs of the premise stand for every instance of the rule
that concludes an instance of the goal. -/
theorem exists_solution (hkb : kb.Regular) (hr : r.Plain) (hscope : Scoped st.generation goal ∅)
    (hunify : unifyPredicates (r.rename (st.generation + 1)).conclusion goal ∅ = some bound)
    (hcut : (defaultSolutions kb limits r bound st).1.cutOff = false) {τ θ : String → Term}
    (hmatch : r.conclusion.subst τ = goal.subst θ) (hderivable : kb.Derivable (r.premise.subst τ)) :
    ∃ proof ∈ (defaultSolutions kb limits r bound st).1.found,
      ∃ ρ, (proof.apply (r.rename (st.generation + 1)).premise).subst ρ = r.premise.subst τ := by
  obtain ⟨n, hn⟩ := hderivable.exists_derivableIn
  have hsolve := solve_complete hkb.factsGround hkb.kindsApart hkb.rulesPlain limits
    (innerDepth limits)
  obtain ⟨proof, hproof, ρ, hρ, -, hpremise⟩ :=
    premise_covered hsolve Substitution.acyclic_empty hscope (r := r.strict) hr hunify
      st.nextGeneration rfl hcut (Substitution.respects_empty θ) hmatch hn
  exact ⟨proof, hproof, ρ, (hρ.subst_apply _).trans hpremise⟩

theorem defaultSolutions_enumerates (limits : Limits) (hkb : kb.Regular) (hr : r.Plain)
    (hscope : Scoped st.generation goal ∅)
    (hunify : unifyPredicates (r.rename (st.generation + 1)).conclusion goal ∅ = some bound) :
    Enumerates kb 0 (bound.apply (r.rename (st.generation + 1)).premise) bound st.nextGeneration
      (defaultSolutions kb limits r bound st) :=
  solve_complete hkb.factsGround hkb.kindsApart hkb.rulesPlain limits (innerDepth limits) _ bound _
    (Substitution.acyclic_empty.unifyPredicates_some hunify).1
    (hscope.chain (r := r.strict) hr Substitution.acyclic_empty hunify)

/-- The variables of a renamed rule are from its generation. -/
theorem older_conclusion_rename (hr : r.Plain) (g : Nat) {k : Nat} (hk : g ≤ k) :
    ∀ v ∈ (r.rename g).conclusion.vars, Older k v := by
  intro v hv
  change v ∈ (r.strict.rename g).conclusion.vars at hv
  rw [(Rule.Plain.rename hr g).2] at hv
  exact (older_subst_freshName hv).mono hk

theorem not_opposes_of_mismatch (hr : r.Plain) (hscope : Scoped st.generation contrary ∅)
    (hunify : unifyPredicates (r.rename (st.generation + 1)).conclusion contrary ∅ = none) :
    ¬ kb.Opposes r contrary := by
  rintro ⟨τ, θ, happlies, hmatch⟩
  obtain ⟨n, hn⟩ := happlies.derivable.exists_derivableIn
  exact noChain_of_unify_none (r := r.strict) Substitution.acyclic_empty hscope hr hunify n θ τ
    (Substitution.respects_empty θ) hmatch hn

theorem not_opposes_of_excepted (hkb : kb.Regular) (hr : r.Plain)
    (hscope : Scoped st.generation contrary ∅)
    (hunify : unifyPredicates (r.rename (st.generation + 1)).conclusion contrary ∅ = some bound)
    (hcut : (defaultSolutions kb limits r bound st).1.cutOff = false)
    (hnone : (defaultSolutions kb limits r bound st).1.found.find?
      (isInForce kb r (r.rename (st.generation + 1))) = none) : ¬ kb.Opposes r contrary := by
  rintro ⟨τ, θ, happlies, hmatch⟩
  obtain ⟨proof, hproof, ρ, hpremise⟩ :=
    exists_solution hkb hr hscope hunify hcut hmatch happlies.derivable
  have hexcepted : ⟨r, proof.apply (r.rename (st.generation + 1)).premise⟩ ∈ kb.exceptions := by
    have hforce := List.find?_eq_none.mp hnone proof hproof
    rwa [isInForce_iff, not_not] at hforce
  -- A ground exception is its own only instance.
  have hground := hkb.exceptionsGround _ hexcepted
  have hsame := (Predicate.subst_of_isGround hground ρ).symm.trans hpremise
  exact happlies.unexcepted (hsame ▸ hexcepted)

theorem competing_cons (kb : Snapshot Time) (limits : Limits) (contrary : Predicate)
    (r : DefaultRule) (rules : List DefaultRule) (cutOff : Bool) (st : SearchState) :
    competing kb limits contrary (r :: rules) cutOff st =
      match unifyPredicates (r.rename (st.generation + 1)).conclusion contrary ∅ with
      | none => competing kb limits contrary rules cutOff st.nextGeneration
      | some bound =>
          let (proofs, st₁) := defaultSolutions kb limits r bound st
          match proofs.found.find? (isInForce kb r (r.rename (st.generation + 1))) with
          | some proof => (.proved proof, st₁)
          | none => competing kb limits contrary rules (cutOff || proofs.cutOff) st₁ := by rfl

theorem competing_failed (hkb : kb.Regular) (limits : Limits) {rules : List DefaultRule}
    (hrules : ∀ r ∈ rules, r ∈ kb.defaultRules) (cutOff : Bool)
    (hscope : Scoped st.generation contrary ∅) :
    Forward st (competing kb limits contrary rules cutOff st).2 ∧
      ((competing kb limits contrary rules cutOff st).1 = .failed →
        cutOff = false ∧ ∀ r ∈ rules, ¬ kb.Opposes r contrary) := by
  induction rules generalizing cutOff st with
  | nil =>
      refine ⟨.refl st, fun hfailed => ⟨?_, List.forall_mem_nil _⟩⟩
      cases cutOff with
      | false => rfl
      | true => cases hfailed
  | cons r rules ih =>
      rw [List.forall_mem_cons] at hrules
      have hr := hkb.defaultRulesPlain r hrules.1
      have hstep := forward_nextGeneration st
      rw [competing_cons, List.forall_mem_cons]
      cases hunify : unifyPredicates (r.rename (st.generation + 1)).conclusion contrary ∅ with
      | none =>
          obtain ⟨hforward, hrest⟩ := ih hrules.2 cutOff (hscope.mono hstep.generation)
          refine ⟨hstep.trans hforward, fun hfailed => ?_⟩
          obtain ⟨hcut, hothers⟩ := hrest hfailed
          exact ⟨hcut, not_opposes_of_mismatch hr hscope hunify, hothers⟩
      | some bound =>
          have hsolve := hstep.trans
            (defaultSolutions_enumerates limits hkb hr hscope hunify).forward
          dsimp only
          cases hfind : (defaultSolutions kb limits r bound st).1.found.find?
              (isInForce kb r (r.rename (st.generation + 1))) with
          | some proof => exact ⟨hsolve, nofun⟩
          | none =>
              obtain ⟨hforward, hrest⟩ := ih hrules.2
                (cutOff || (defaultSolutions kb limits r bound st).1.cutOff)
                (hscope.mono hsolve.generation)
              refine ⟨hsolve.trans hforward, fun hfailed => ?_⟩
              obtain ⟨hcut, hothers⟩ := hrest hfailed
              rw [Bool.or_eq_false_iff] at hcut
              exact ⟨hcut.1, not_opposes_of_excepted hkb hr hscope hunify hcut.2 hfind, hothers⟩

/-- A search for hindrances that fails has shown that there are none. -/
theorem hindrance_failed (hkb : kb.Regular) (limits : Limits) (priority : Certainty)
    (hscope : Scoped st.generation contrary ∅) :
    Forward st (hindrance kb limits contrary priority st).2 ∧
      ((hindrance kb limits contrary priority st).1 = .failed →
        kb.Unhindered contrary priority) := by
  obtain ⟨hforward, hexcluded⟩ := ask_complete hkb.factsGround hkb.kindsApart hkb.rulesPlain limits
    (innerDepth limits) contrary ∅ st Substitution.acyclic_empty hscope
  rw [hindrance]
  cases hask : ask kb limits (innerDepth limits) contrary ∅ st with
  | mk result st₁ =>
      rw [hask] at hforward hexcluded
      cases result with
      | proved proof => exact ⟨hforward, nofun⟩
      | exhausted => exact ⟨hforward, nofun⟩
      | failed =>
          have hfilter : ∀ r ∈ kb.defaultRules.filter fun r => priority ≤ r.priority,
              r ∈ kb.defaultRules := fun r hr => List.mem_of_mem_filter hr
          obtain ⟨hlater, hunopposed⟩ :=
            competing_failed hkb limits hfilter false (hscope.mono hforward.generation)
          refine ⟨hforward.trans hlater, fun hfailed => ⟨fun θ hderivable => ?_, ?_⟩⟩
          · obtain ⟨n, hn⟩ := hderivable.exists_derivableIn
            exact hexcluded n (Nat.zero_le n) trivial θ (Substitution.respects_empty θ) hn
          · rintro r hr ⟨τ, θ, happlies, hmatch⟩
            have hmem : r ∈ kb.defaultRules.filter fun r => priority ≤ r.priority := by
              simpa using ⟨happlies.stored, hr⟩
            exact (hunopposed hfailed).2 r hmem ⟨τ, θ, happlies, hmatch⟩

theorem firstUnhindered_cons (kb : Snapshot Time) (limits : Limits) (r renamed : DefaultRule)
    (first : Substitution) (proofs : List Substitution) (cutOff : Bool) (st : SearchState) :
    firstUnhindered kb limits r renamed (first :: proofs) cutOff st =
      if isInForce kb r renamed first then
        let conclusion := first.apply renamed.conclusion
        match hindrance kb limits conclusion.negated r.priority st with
        | (.failed, st₁) => (some first, cutOff, st₁.record conclusion)
        | (.proved _, st₁) => firstUnhindered kb limits r renamed proofs cutOff st₁
        | (.exhausted, st₁) => firstUnhindered kb limits r renamed proofs true st₁
      else firstUnhindered kb limits r renamed proofs cutOff st := by rfl

theorem firstUnhindered_cons_some {renamed : DefaultRule} {first : Substitution}
    {proofs : List Substitution} {cutOff cutOff' : Bool}
    (h : firstUnhindered kb limits r renamed (first :: proofs) cutOff st =
      (some proof, cutOff', st')) :
    (proof = first ∧ isInForce kb r renamed first = true ∧
      (hindrance kb limits (first.apply renamed.conclusion).negated r.priority st).1 = .failed) ∨
    ∃ cutOff₁ st₁,
      (st₁ = st ∨
        st₁ = (hindrance kb limits (first.apply renamed.conclusion).negated r.priority st).2) ∧
      firstUnhindered kb limits r renamed proofs cutOff₁ st₁ = (some proof, cutOff', st') := by
  rw [firstUnhindered_cons] at h
  split at h
  next hforce =>
    cases hhindrance :
        hindrance kb limits (first.apply renamed.conclusion).negated r.priority st with
    | mk result st₁ =>
        simp only [hhindrance] at h
        cases result with
        | failed =>
            cases h
            exact .inl ⟨rfl, hforce, rfl⟩
        | proved => exact .inr ⟨_, st₁, .inr rfl, h⟩
        | exhausted => exact .inr ⟨_, st₁, .inr rfl, h⟩
  next => exact .inr ⟨_, st, .inl rfl, h⟩

theorem firstUnhindered_some (hkb : kb.Regular) {renamed : DefaultRule}
    {proofs : List Substitution} {cutOff cutOff' : Bool}
    (hproofs : ∀ proof ∈ proofs, proof.Within (Term.Older st.generation))
    (hrenamed : ∀ v ∈ renamed.conclusion.vars, Older st.generation v)
    (h : firstUnhindered kb limits r renamed proofs cutOff st = (some proof, cutOff', st')) :
    proof ∈ proofs ∧ ⟨r, proof.apply renamed.premise⟩ ∉ kb.exceptions ∧
      kb.Unhindered (proof.apply renamed.conclusion).negated r.priority := by
  induction proofs generalizing cutOff st with
  | nil => cases h
  | cons first proofs ih =>
      rw [List.forall_mem_cons] at hproofs
      have hscope : Scoped st.generation (first.apply renamed.conclusion).negated ∅ :=
        ⟨older_apply hproofs.1 hrenamed, nofun⟩
      obtain ⟨hforward, hfailed⟩ := hindrance_failed hkb limits r.priority hscope
      obtain ⟨rfl, hforce, hresult⟩ | ⟨cutOff₁, st₁, hst₁, hrest⟩ := firstUnhindered_cons_some h
      · exact ⟨.head _, isInForce_iff.mp hforce, hfailed hresult⟩
      · have hstep : Forward st st₁ := by
          obtain rfl | rfl := hst₁
          · exact .refl _
          · exact hforward
        obtain ⟨hmem, hchosen⟩ := ih
          (fun proof hproof => (hproofs.2 proof hproof).older_mono hstep.generation)
          (fun v hv => (hrenamed v hv).mono hstep.generation) hrest
        exact ⟨.tail _ hmem, hchosen⟩

/-- The choice among the proofs of the premise of a default rule. -/
def defaultChoice (kb : Snapshot Time) (limits : Limits) (r : DefaultRule) (bound : Substitution)
    (cutOff : Bool) (st : SearchState) : Option Substitution × Bool × SearchState :=
  let (proofs, st₁) := defaultSolutions kb limits r bound st
  firstUnhindered kb limits r (r.rename (st.generation + 1)) proofs.found
    (cutOff || proofs.cutOff) st₁

theorem byDefaults_cons (kb : Snapshot Time) (limits : Limits) (goal : Predicate) (r : DefaultRule)
    (rules : List DefaultRule) (cutOff : Bool) (st : SearchState) :
    byDefaults kb limits goal (r :: rules) cutOff st =
      match unifyPredicates (r.rename (st.generation + 1)).conclusion goal ∅ with
      | none => byDefaults kb limits goal rules cutOff st.nextGeneration
      | some bound =>
          match defaultChoice kb limits r bound cutOff st with
          | (some proof, _, st₁) => (.proved proof, st₁)
          | (none, cutOff₁, st₁) => byDefaults kb limits goal rules cutOff₁ st₁ := by rfl

/-- What is proved by default is the conclusion of a default rule that applies and that
nothing hinders. -/
theorem byDefaults_proved (hkb : kb.Regular) (hgoal : goal.Plain) {rules : List DefaultRule}
    (hrules : ∀ r ∈ rules, r ∈ kb.defaultRules) {cutOff : Bool}
    (h : byDefaults kb limits goal rules cutOff st = (.proved proof, st')) :
    ∃ r σ, kb.Applies r σ ∧ r.conclusion.subst σ = proof.apply goal ∧
      kb.Unhindered (r.conclusion.subst σ).negated r.priority := by
  induction rules generalizing cutOff st with
  | nil => cases cutOff <;> cases h
  | cons r rules ih =>
      rw [List.forall_mem_cons] at hrules
      have hr := hkb.defaultRulesPlain r hrules.1
      rw [byDefaults_cons] at h
      cases hunify : unifyPredicates (r.rename (st.generation + 1)).conclusion goal ∅ with
      | none =>
          rw [hunify] at h
          exact ih hrules.2 h
      | some bound =>
          have hsolve := defaultSolutions_enumerates limits hkb hr (hgoal.scoped _) hunify
          have hrenamed := older_conclusion_rename hr (st.generation + 1) hsolve.forward.generation
          simp only [hunify] at h
          cases hchoice : defaultChoice kb limits r bound cutOff st with
          | mk chosen after =>
              obtain ⟨cutOff₁, st₁⟩ := after
              simp only [hchoice] at h
              cases chosen with
              | none => exact ih hrules.2 h
              | some proof =>
                  cases h
                  obtain ⟨hmem, hunexcepted, hunhindered⟩ :=
                    firstUnhindered_some hkb hsolve.within hrenamed hchoice
                  obtain ⟨σ, hpremise, hconclusion, hinstance, hderivable⟩ :=
                    exists_instance hkb.factsGround hunify hmem
                  rw [hpremise] at hunexcepted
                  rw [hconclusion] at hunhindered
                  exact ⟨r, σ, ⟨hrules.1, hderivable, hunexcepted⟩, hinstance.symm, hunhindered⟩

/-- A failure of the defaults proves nothing once the search before them was cut off. -/
def inconclusive : SearchResult × SearchState → SearchResult × SearchState
  | (.failed, st) => (.exhausted, st)
  | found => found

theorem inconclusive_proved {found : SearchResult × SearchState}
    (h : inconclusive found = (.proved proof, st')) : found = (.proved proof, st') := by
  obtain ⟨result, st⟩ := found
  cases result with
  | failed => cases h
  | proved | exhausted => exact h

theorem inconclusive_eq (found : SearchResult × SearchState) :
    (match found with
      | (.failed, st) => (Reasoning.byDefault, SearchResult.exhausted, st)
      | found => (.byDefault, found)) = (.byDefault, inconclusive found) := by
  obtain ⟨result, st⟩ := found
  cases result <;> rfl

/-- The default rules are tried if facts and rules did not prove the goal. -/
theorem run_cases (kb : Snapshot Time) (limits : Limits) (useDefaults : Bool) (goal : Predicate)
    (st : SearchState) :
    let asked := ask kb limits limits.maxDepth goal ∅ st
    let tried := byDefaults kb limits goal kb.defaultRules false asked.2
    (∃ reasoning, reasoning ≠ .byDefault ∧ run kb limits useDefaults goal st = (reasoning, asked)) ∨
      run kb limits useDefaults goal st = (.byDefault, tried) ∨
      run kb limits useDefaults goal st = (.byDefault, inconclusive tried) := by
  cases hfacts : matchFacts limits goal ∅ (candidates kb goal) st with
  | mk result st₁ =>
      cases result with
      | proved proof => exact .inl ⟨.fact, by decide, by simp [run, ask, factsThen, hfacts]⟩
      | exhausted =>
          cases useDefaults with
          | false => exact .inl ⟨.fact, by decide, by simp [run, ask, factsThen, hfacts]⟩
          | true =>
              simp only [run, ask, factsThen, hfacts]
              exact .inr (.inr (inconclusive_eq _))
      | failed =>
          cases hrules : byRules kb limits limits.maxDepth goal ∅ st₁ with
          | mk result st₂ =>
              simp only [run, ask, factsThen, hfacts, hrules]
              cases result with
              | proved => exact .inl ⟨.rule, by decide, rfl⟩
              | failed =>
                  cases useDefaults with
                  | false => exact .inl ⟨.rule, by decide, rfl⟩
                  | true => exact .inr (.inl rfl)
              | exhausted =>
                  cases useDefaults with
                  | false => exact .inl ⟨.rule, by decide, rfl⟩
                  | true => exact .inr (.inr (inconclusive_eq _))

theorem run_proved {useDefaults : Bool} {reasoning : Reasoning}
    (h : run kb limits useDefaults goal st = (reasoning, .proved proof, st')) :
    (reasoning ≠ .byDefault ∧ ask kb limits limits.maxDepth goal ∅ st = (.proved proof, st')) ∨
      reasoning = .byDefault ∧
        ∃ st₁, byDefaults kb limits goal kb.defaultRules false st₁ = (.proved proof, st') := by
  obtain ⟨monotonic, hne, heq⟩ | heq | heq := run_cases kb limits useDefaults goal st
  · rw [heq] at h
    obtain ⟨rfl, hask⟩ := Prod.mk.inj h
    exact .inl ⟨hne, hask⟩
  · rw [heq] at h
    obtain ⟨rfl, hdefaults⟩ := Prod.mk.inj h
    exact .inr ⟨rfl, _, hdefaults⟩
  · rw [heq] at h
    obtain ⟨rfl, hdefaults⟩ := Prod.mk.inj h
    exact .inr ⟨rfl, _, inconclusive_proved hdefaults⟩

end Search

namespace Snapshot

variable {kb : Snapshot Time} {limits : Limits} {useDefaults : Bool} {generation : Nat}
  {goal : Predicate}

theorem prove_proved (h : (kb.prove limits useDefaults generation goal).1.outcome = .proved) :
    ∃ proof st, Search.run kb limits useDefaults goal { generation := generation } =
        ((kb.prove limits useDefaults generation goal).1.reasoning, .proved proof, st) ∧
      goal.subst (kb.prove limits useDefaults generation goal).1.bindings.once =
        proof.apply goal := by
  cases hrun : Search.run kb limits useDefaults goal { generation := generation } with
  | mk reasoning found =>
      obtain ⟨result, st⟩ := found
      simp only [prove, hrun] at h ⊢
      cases result with
      | proved proof =>
          exact ⟨proof, st, rfl, by rw [subst_answerBindings, Substitution.apply_eq_subst]⟩
      | failed | exhausted => cases h

theorem derivable_of_prove (hkb : kb.FactsGround)
    (h : (kb.prove limits useDefaults generation goal).1.outcome = .proved)
    (hreasoning : (kb.prove limits useDefaults generation goal).1.reasoning ≠ .byDefault) :
    kb.Derivable (goal.subst (kb.prove limits useDefaults generation goal).1.bindings.once) := by
  obtain ⟨proof, st, hrun, hinstance⟩ := prove_proved h
  obtain ⟨-, hask⟩ | ⟨hdefault, -⟩ := Search.run_proved hrun
  · have hsound := Search.ask_sound hkb limits limits.maxDepth goal ∅ { generation := generation }
      Substitution.acyclic_empty nofun
    rw [hask] at hsound
    rw [hinstance]
    exact (hsound.2 proof rfl).derivable_apply
  · exact absurd hdefault hreasoning

theorem applies_of_prove (hkb : kb.Regular) (hgoal : goal.Plain)
    (h : (kb.prove limits useDefaults generation goal).1.outcome = .proved)
    (hreasoning : (kb.prove limits useDefaults generation goal).1.reasoning = .byDefault) :
    ∃ r σ, kb.Applies r σ ∧
      r.conclusion.subst σ =
        goal.subst (kb.prove limits useDefaults generation goal).1.bindings.once ∧
      kb.Unhindered (r.conclusion.subst σ).negated r.priority := by
  obtain ⟨proof, st, hrun, hinstance⟩ := prove_proved h
  obtain ⟨hne, -⟩ | ⟨-, st₁, hdefaults⟩ := Search.run_proved hrun
  · exact absurd hreasoning hne
  · rw [hinstance]
    exact Search.byDefaults_proved hkb hgoal (fun r hr => hr) hdefaults

end Snapshot

theorem KnowledgeBase.Placed.regular {kb : KnowledgeBase Time} (h : kb.Placed)
    (hexceptions : ∀ e ∈ kb.exceptions, e.excluded.isGround = true)
    (hrules : ∀ r ∈ kb.rules, r.Plain) (hdefaults : ∀ r ∈ kb.defaultRules, r.Plain) :
    kb.snapshot.Regular :=
  ⟨h.factsGround, h.kindsApart, hexceptions, hrules, hdefaults⟩

/-- A goal that is proved by default is, in the answered instance, the conclusion of a
default rule that applies, whose contrary has no derivable instance and no default of
at least the same priority for it. -/
theorem Reasoner.prove_byDefault_sound (r : Reasoner Time) (hr : r.kb.Reachable)
    (hexceptions : ∀ e ∈ r.kb.exceptions, e.excluded.isGround = true)
    (hrules : ∀ rule ∈ r.kb.rules, rule.Plain)
    (hdefaults : ∀ rule ∈ r.kb.defaultRules, rule.Plain) (goal : Predicate) (hgoal : goal.Plain) :
    let kb := r.kb.snapshot
    let answer := (r.prove goal).1
    answer.outcome = .proved → answer.reasoning = .byDefault →
      ∃ rule σ, kb.Applies rule σ ∧ rule.conclusion.subst σ = goal.subst answer.bindings.once ∧
        kb.Unhindered (rule.conclusion.subst σ).negated rule.priority := by
  intro kb answer hproved hreasoning
  exact Snapshot.applies_of_prove (hr.placed.regular hexceptions hrules hdefaults) hgoal hproved
    hreasoning

/-- Of three birds one is excepted and one is a penguin, for which a default of higher
priority concludes the contrary. The open goal is answered with the third. -/
theorem Reasoner.prove_byDefault_sound_third_bird :
    let flies : DefaultRule :=
      ⟨⟨"Bird", [.var "x"]⟩, ⟨"Flies", [.var "x"]⟩, ⟨0x3F666666, by decide⟩⟩
    let r : Reasoner Nat := [.addFact ⟨"Bird", [.const "Ostrich"]⟩,
      .addFact ⟨"Penguin", [.const "Pingu"]⟩,
      .addFact ⟨"Bird", [.const "Tweety"]⟩,
      .addRule ⟨⟨"Penguin", [.var "x"]⟩, ⟨"Bird", [.var "x"]⟩⟩, .addDefaultRule flies,
      .addDefaultRule ⟨⟨"Penguin", [.var "x"]⟩, ⟨"NotFlies", [.var "x"]⟩, .full⟩,
      .addException ⟨flies, ⟨"Bird", [.const "Ostrich"]⟩⟩].foldl serve {}
    ∃ rule σ, r.kb.snapshot.Applies rule σ ∧
      rule.conclusion.subst σ = ⟨"Flies", [.const "Tweety"]⟩ ∧
      r.kb.snapshot.Unhindered ⟨"NotFlies", [.const "Tweety"]⟩ rule.priority := by
  intro flies r
  have hr : r.kb.Reachable := KnowledgeBase.Reachable.empty.foldl_serve _
  have hproved : (r.prove ⟨"Flies", [.var "w"]⟩).1.outcome = .proved := by decide +kernel
  have hreasoning : (r.prove ⟨"Flies", [.var "w"]⟩).1.reasoning = .byDefault := by decide +kernel
  have hinstance : Predicate.subst (r.prove ⟨"Flies", [.var "w"]⟩).1.bindings.once
      ⟨"Flies", [.var "w"]⟩ = ⟨"Flies", [.const "Tweety"]⟩ := by decide +kernel
  obtain ⟨rule, σ, happlies, hconclusion, hunhindered⟩ := r.prove_byDefault_sound hr
    (by decide +kernel) (by decide +kernel) (by decide +kernel) ⟨"Flies", [.var "w"]⟩ (by decide)
    hproved hreasoning
  have hflies := hconclusion.trans hinstance
  rw [hflies] at hunhindered
  exact ⟨rule, σ, happlies, hflies, hunhindered⟩

end Defeasible
