import Defeasible.Conflict.Detection
import Defeasible.Proofs.MostGeneral
import Defeasible.Proofs.Storage

/-!
Violations of default rules. A stored fact fits a default rule for a candidate if it is the
premise under an assignment that gives the conclusion's variables the candidate's arguments
at their places. A violation is reported for the first such fact that is not excepted, with
the conclusion that all these assignments draw from it, so what a sweep reports depends on
the facts before it as well.
-/

namespace Defeasible

variable {Time : Type}

namespace Predicate

theorem args_positive (p : Predicate) : p.positive.args = p.args := by
  rw [positive]
  split <;> rfl

theorem arity_positive (p : Predicate) : p.positive.arity = p.arity := by
  rw [arity, args_positive, arity]

theorem isGround_of_mem_args {p : Predicate} (h : p.isGround = true) {t : Term}
    (ht : t ∈ p.args) : t.isGround = true := by
  rw [isGround, Term.isGroundList_eq_all, List.all_eq_true] at h
  exact h t ht

end Predicate

namespace Snapshot

/-- The assignment gives the variables among the patterns the values at their positions. -/
def Agrees (σ : String → Term) (patterns values : List Term) : Prop :=
  ∀ v t, (.var v, t) ∈ patterns.zip values → σ v = t

/-- The fact is the rule's premise for the arguments of the candidate, whose name is that of
the conclusion up to negation. -/
def Fits (rule : DefaultRule) (candidate fact : Predicate) : Prop :=
  candidate.positive.name = rule.conclusion.positive.name ∧
    candidate.arity = rule.conclusion.positive.arity ∧
    ∃ σ, Agrees σ rule.conclusion.args candidate.args ∧ rule.premise.subst σ = fact

/-- The assignment makes the fact the rule's premise for the arguments of the candidate. -/
def FitsBy (σ : String → Term) (rule : DefaultRule) (candidate fact : Predicate) : Prop :=
  Agrees σ rule.conclusion.args candidate.args ∧ rule.premise.subst σ = fact

/-- The fact fits the candidate and is not excepted for the rule. -/
def Concerns (kb : Snapshot Time) (rule : DefaultRule) (candidate fact : Predicate) : Prop :=
  kb.isExcepted rule fact = false ∧ Fits rule candidate fact

/-- Of the stored facts that concern the candidate, the first. -/
def ConcernsFirst (kb : Snapshot Time) (rule : DefaultRule) (candidate fact : Predicate) : Prop :=
  ∃ before after, kb.predicates = before ++ fact :: after ∧
    kb.Concerns rule candidate fact ∧ ∀ p ∈ before, ¬ kb.Concerns rule candidate p

variable {kb kb' : Snapshot Time} {rule : DefaultRule} {candidate fact premise expected : Predicate}
  {s s' bound : Substitution} {σ : String → Term} {patterns values : List Term}

section Agrees

theorem agrees_cons {σ : String → Term} {pattern value : Term} :
    Agrees σ (pattern :: patterns) (value :: values) ↔
      (∀ v, pattern = .var v → σ v = value) ∧ Agrees σ patterns values := by
  simp only [Agrees, List.zip_cons_cons, List.mem_cons, Prod.mk.injEq]
  constructor
  · exact fun h => ⟨fun v hv => h v value (.inl ⟨hv.symm, rfl⟩), fun v t ht => h v t (.inr ht)⟩
  · rintro ⟨hhead, hrest⟩ v t (⟨hv, rfl⟩ | ht)
    · exact hhead v hv.symm
    · exact hrest v t ht

theorem agrees_iff (hlength : patterns.length = values.length) : Agrees σ patterns values ↔
    ∀ (i : Nat) (v : String), patterns[i]? = some (.var v) →
      (patterns.map (Term.subst σ))[i]? = values[i]? := by
  constructor
  · intro h i v hi
    obtain ⟨hlt, -⟩ := List.getElem?_eq_some_iff.mp hi
    have hvalue : values[i]? = some values[i] := List.getElem?_eq_getElem (hlength ▸ hlt)
    rw [List.getElem?_map, hi, Option.map_some, Term.subst_var, hvalue]
    exact congrArg some (h v _ (List.mem_iff_getElem?.mpr
      ⟨i, List.getElem?_zip_eq_some.mpr ⟨hi, hvalue⟩⟩))
  · intro h v t ht
    obtain ⟨i, hi⟩ := List.mem_iff_getElem?.mp ht
    obtain ⟨hpattern, hvalue⟩ := List.getElem?_zip_eq_some.mp hi
    have hsame := h i v hpattern
    rw [List.getElem?_map, hpattern, hvalue] at hsame
    exact Option.some.inj hsame

/-- With a value for every pattern, a variable among the patterns has one of the values,
and the same under every assignment that agrees. -/
theorem Agrees.at_var (hσ : Agrees σ patterns values) (hlength : patterns.length ≤ values.length)
    {v : String} (hv : .var v ∈ patterns) :
    σ v ∈ values ∧ ∀ τ, Agrees τ patterns values → τ v = σ v := by
  rw [← List.map_fst_zip hlength] at hv
  obtain ⟨⟨_, t⟩, ht, rfl⟩ := List.mem_map.mp hv
  rw [hσ v t ht]
  exact ⟨(List.of_mem_zip ht).2, fun τ hτ => hτ v t ht⟩

end Agrees

section Positions

theorem bindPositions_some (hs : s.Acyclic) (hvalues : ∀ t ∈ values, t.isGround = true)
    (h : bindPositions patterns values s = some s') :
    s'.Acyclic ∧ ∀ θ, s'.Respects θ ↔ s.Respects θ ∧ Agrees θ patterns values := by
  induction patterns generalizing values s with
  | nil =>
      cases h
      exact ⟨hs, fun θ => (and_iff_left nofun).symm⟩
  | cons pattern patterns ih =>
      cases values with
      | nil =>
          obtain rfl : s = s' := by simpa [bindPositions] using h
          exact ⟨hs, fun θ => (and_iff_left (by simp [Agrees])).symm⟩
      | cons value values =>
          have hvalues' : ∀ t ∈ values, t.isGround = true := fun t ht => hvalues t (.tail _ ht)
          cases pattern with
          | const | app =>
              obtain ⟨hs', hresp⟩ := ih hs hvalues' h
              exact ⟨hs', fun θ => (hresp θ).trans (by simp [agrees_cons])⟩
          | var v =>
              obtain ⟨s₁, hassign, hrest⟩ := Option.bind_eq_some_iff.mp h
              have hsolved := hs.unifyVariable_solved v value
              rw [hassign] at hsolved
              obtain ⟨hs', hresp⟩ := ih hsolved.1 hvalues' hrest
              refine ⟨hs', fun θ => ?_⟩
              have hvalue : value.subst θ = value :=
                Term.subst_of_isGround (hvalues value (.head _)) θ
              rw [hresp, hsolved.2.2, Problem.Holds, hvalue, and_assoc, agrees_cons]
              simp

theorem bindPositions_none (hs : s.Acyclic) (hvalues : ∀ t ∈ values, t.isGround = true)
    (h : bindPositions patterns values s = none) {θ : String → Term} (hθ : s.Respects θ) :
    ¬ Agrees θ patterns values := by
  induction patterns generalizing values s with
  | nil => cases h
  | cons pattern patterns ih =>
      cases values with
      | nil => simp [bindPositions] at h
      | cons value values =>
          have hvalues' : ∀ t ∈ values, t.isGround = true := fun t ht => hvalues t (.tail _ ht)
          rw [agrees_cons]
          rintro ⟨hhead, hrest⟩
          cases pattern with
          | const | app => exact ih hs hvalues' h hθ hrest
          | var v =>
              have hvalue : value.subst θ = value :=
                Term.subst_of_isGround (hvalues value (.head _)) θ
              have hsolved := hs.unifyVariable_solved v value
              have hholds : (Problem.assign v value).Holds θ := (hhead v rfl).trans hvalue.symm
              cases hassign : unifyVariable v value s with
              | none =>
                  rw [hassign] at hsolved
                  exact hsolved θ hθ hholds
              | some s₁ =>
                  rw [hassign] at hsolved
                  rw [bindPositions, hassign] at h
                  exact ih hsolved.1 hvalues' h ((hsolved.2.2 θ).mpr ⟨hθ, hholds⟩) hrest

/-- The check starts with what the candidate's arguments say about the conclusion's. -/
theorem bindPositions_candidate (hcandidate : candidate.isGround = true)
    (hbound : bindPositions rule.conclusion.args candidate.args ∅ = some bound) :
    bound.Acyclic ∧ ∀ σ, bound.Respects σ ↔ Agrees σ rule.conclusion.args candidate.args := by
  obtain ⟨hacyclic, hagrees⟩ := bindPositions_some Substitution.acyclic_empty
    (fun _ => Predicate.isGround_of_mem_args hcandidate) hbound
  exact ⟨hacyclic, fun σ => (hagrees σ).trans (and_iff_right (Substitution.respects_empty σ))⟩

theorem exists_bindPositions (hcandidate : candidate.isGround = true)
    (hσ : Agrees σ rule.conclusion.args candidate.args) :
    ∃ bound, bindPositions rule.conclusion.args candidate.args ∅ = some bound := by
  cases hbound : bindPositions rule.conclusion.args candidate.args ∅ with
  | some bound => exact ⟨bound, rfl⟩
  | none =>
      exact absurd hσ (bindPositions_none Substitution.acyclic_empty
        (fun _ => Predicate.isGround_of_mem_args hcandidate) hbound
        (Substitution.respects_empty σ))

end Positions

section FirstPremise

theorem firstPremise_eq_some_iff {pattern : Predicate} :
    kb.firstPremise rule pattern s = some (fact, s') ↔
      ∃ before after, kb.predicates = before ++ fact :: after ∧
        (kb.isExcepted rule fact = false ∧ unifyPredicates pattern fact s = some s') ∧
        ∀ p ∈ before, kb.isExcepted rule p = false → unifyPredicates pattern p s = none := by
  have hsome : ∀ p, (if kb.isExcepted rule p then none
      else (unifyPredicates pattern p s).map fun bound => (p, bound)) = some (fact, s') ↔
      p = fact ∧ kb.isExcepted rule p = false ∧ unifyPredicates pattern p s = some s' := by
    intro p
    cases kb.isExcepted rule p <;> simp [and_comm]
  have hnone : ∀ p, (if kb.isExcepted rule p then none
      else (unifyPredicates pattern p s).map fun bound => (p, bound)) = none ↔
      (kb.isExcepted rule p = false → unifyPredicates pattern p s = none) := by
    intro p
    cases kb.isExcepted rule p <;> simp
  simp only [firstPremise, List.findSome?_eq_some_iff, hsome, hnone]
  constructor
  · rintro ⟨before, p, after, hsplit, ⟨rfl, hfact⟩, hbefore⟩
    exact ⟨before, after, hsplit, hfact, hbefore⟩
  · rintro ⟨before, after, hsplit, hfact, hbefore⟩
    exact ⟨before, fact, after, hsplit, ⟨rfl, hfact⟩, hbefore⟩

theorem firstPremise_some {pattern : Predicate}
    (h : kb.firstPremise rule pattern s = some (premise, s')) :
    premise ∈ kb.predicates ∧ kb.isExcepted rule premise = false ∧
      unifyPredicates pattern premise s = some s' := by
  obtain ⟨before, after, hsplit, hfirst, -⟩ := firstPremise_eq_some_iff.mp h
  exact ⟨hsplit ▸ List.mem_append_right _ (.head _), hfirst⟩

theorem exists_guard_eq_some {b Q : Prop} [Decidable b] :
    (∃ u, (guard b : Option Unit) = some u ∧ Q) ↔ b ∧ Q := by
  by_cases h : b <;> simp [guard, h]

theorem defaultViolation_eq_some : kb.defaultViolation rule candidate = some (premise, expected) ↔
    (candidate.positive.name = rule.conclusion.positive.name ∧
      candidate.arity = rule.conclusion.positive.arity) ∧
    ∃ bound, bindPositions rule.conclusion.args candidate.args ∅ = some bound ∧
      ∃ s, kb.firstPremise rule (bound.apply rule.premise) bound = some (premise, s) ∧
        (expected.isGround = true ∧ expected ≠ candidate) ∧ s.apply rule.conclusion = expected := by
  simp only [defaultViolation, Option.bind_eq_bind, Option.bind_eq_some_iff, exists_guard_eq_some,
    Bool.and_eq_true, decide_eq_true_eq, bne_iff_ne, Prod.exists]
  constructor
  · rintro ⟨hname, bound, hbound, first, s, hfirst, hexpected, hresult⟩
    cases hresult
    exact ⟨hname, bound, hbound, s, hfirst, hexpected, rfl⟩
  · rintro ⟨hname, bound, hbound, s, hfirst, hexpected, rfl⟩
    exact ⟨hname, bound, hbound, premise, s, hfirst, hexpected, rfl⟩

/-- What a violation names is stored and in force. -/
theorem mem_of_defaultViolation
    (h : kb.defaultViolation rule candidate = some (premise, expected)) :
    premise ∈ kb.predicates ∧ kb.isExcepted rule premise = false := by
  obtain ⟨-, bound, -, s, hfirst, -⟩ := defaultViolation_eq_some.mp h
  exact ⟨(firstPremise_some hfirst).1, (firstPremise_some hfirst).2.1⟩

end FirstPremise

section ConcernsFirst

open Classical in
theorem concernsFirst_iff : kb.ConcernsFirst rule candidate fact ↔
    kb.predicates.find? (fun p => kb.Concerns rule candidate p) = some fact := by
  simp only [ConcernsFirst, List.find?_eq_some_iff_append, decide_eq_true_eq, Bool.not_eq_true',
    decide_eq_false_iff_not]
  constructor
  · rintro ⟨before, after, hsplit, hconcerns, hnone⟩
    exact ⟨hconcerns, before, after, hsplit, hnone⟩
  · rintro ⟨hconcerns, before, after, hsplit, hnone⟩
    exact ⟨before, after, hsplit, hconcerns, hnone⟩

theorem ConcernsFirst.unique {q : Predicate} (h : kb.ConcernsFirst rule candidate fact)
    (h' : kb.ConcernsFirst rule candidate q) : fact = q :=
  Option.some.inj ((concernsFirst_iff.mp h).symm.trans (concernsFirst_iff.mp h'))

theorem exists_concernsFirst (hfact : fact ∈ kb.predicates)
    (hconcerns : kb.Concerns rule candidate fact) : ∃ p, kb.ConcernsFirst rule candidate p := by
  classical
  have hsome : (kb.predicates.find? fun p => kb.Concerns rule candidate p).isSome = true :=
    List.find?_isSome.mpr ⟨fact, hfact, by simpa using hconcerns⟩
  obtain ⟨p, hp⟩ := Option.isSome_iff_exists.mp hsome
  exact ⟨p, concernsFirst_iff.mpr hp⟩

theorem ConcernsFirst.mem (h : kb.ConcernsFirst rule candidate fact) : fact ∈ kb.predicates := by
  obtain ⟨before, after, hsplit, -⟩ := h
  rw [hsplit]
  exact List.mem_append_right _ (.head _)

theorem ConcernsFirst.concerns (h : kb.ConcernsFirst rule candidate fact) :
    kb.Concerns rule candidate fact := by
  obtain ⟨-, -, -, hconcerns, -⟩ := h
  exact hconcerns

end ConcernsFirst

theorem Fits.exists_fitsBy (h : Fits rule candidate fact) : ∃ σ, FitsBy σ rule candidate fact :=
  h.2.2

/-- A match of a stored fact stands for all assignments by which the fact fits. -/
theorem unify_premise_some (hcandidate : candidate.isGround = true) (hfact : fact.isGround = true)
    (hbound : bindPositions rule.conclusion.args candidate.args ∅ = some bound)
    (hunify : unifyPredicates (bound.apply rule.premise) fact bound = some s) :
    s.Acyclic ∧ ∀ σ, s.Respects σ ↔ FitsBy σ rule candidate fact := by
  obtain ⟨hacyclic, hagrees⟩ := bindPositions_candidate hcandidate hbound
  obtain ⟨hs, -, hresp⟩ := hacyclic.unifyPredicates_some hunify
  refine ⟨hs, fun σ => ?_⟩
  rw [hresp, hagrees, FitsBy, Predicate.subst_of_isGround hfact]
  refine and_congr_right fun hσ => ?_
  rw [((hagrees σ).mpr hσ).subst_apply]

theorem unify_premise_none (hcandidate : candidate.isGround = true) (hfact : fact.isGround = true)
    (hbound : bindPositions rule.conclusion.args candidate.args ∅ = some bound)
    (hunify : unifyPredicates (bound.apply rule.premise) fact bound = none) (σ : String → Term) :
    ¬ FitsBy σ rule candidate fact := by
  rintro ⟨hσ, hpremise⟩
  obtain ⟨hacyclic, hagrees⟩ := bindPositions_candidate hcandidate hbound
  have hrespects := (hagrees σ).mpr hσ
  refine hacyclic.unifyPredicates_none hunify hrespects ?_
  rw [hrespects.subst_apply, hpremise, Predicate.subst_of_isGround hfact]

/-- For a candidate of the conclusion's name a fact has a match exactly if it fits. -/
theorem exists_unify_premise_iff (hcandidate : candidate.isGround = true)
    (hname : candidate.positive.name = rule.conclusion.positive.name ∧
      candidate.arity = rule.conclusion.positive.arity)
    (hbound : bindPositions rule.conclusion.args candidate.args ∅ = some bound)
    (hfact : fact.isGround = true) :
    (∃ s, unifyPredicates (bound.apply rule.premise) fact bound = some s) ↔
      Fits rule candidate fact := by
  constructor
  · rintro ⟨s, hunify⟩
    obtain ⟨hs, hresp⟩ := unify_premise_some hcandidate hfact hbound hunify
    exact ⟨hname.1, hname.2, _, (hresp _).mp hs.respects_resolve⟩
  · rintro ⟨-, -, σ, hσ⟩
    cases hunify : unifyPredicates (bound.apply rule.premise) fact bound with
    | some s => exact ⟨s, rfl⟩
    | none => exact absurd hσ (unify_premise_none hcandidate hfact hbound hunify σ)

theorem exists_firstPremise_iff (hground : ∀ p ∈ kb.predicates, p.isGround = true)
    (hcandidate : candidate.isGround = true)
    (hname : candidate.positive.name = rule.conclusion.positive.name ∧
      candidate.arity = rule.conclusion.positive.arity)
    (hbound : bindPositions rule.conclusion.args candidate.args ∅ = some bound) :
    (∃ s, kb.firstPremise rule (bound.apply rule.premise) bound = some (fact, s)) ↔
      kb.ConcernsFirst rule candidate fact := by
  have hmatch : ∀ p ∈ kb.predicates,
      ((∃ s, unifyPredicates (bound.apply rule.premise) p bound = some s) ↔
        Fits rule candidate p) :=
    fun p hp => exists_unify_premise_iff hcandidate hname hbound (hground p hp)
  constructor
  · rintro ⟨s, hfirst⟩
    obtain ⟨before, after, hsplit, ⟨hforce, hunify⟩, hnone⟩ := firstPremise_eq_some_iff.mp hfirst
    rw [hsplit, List.forall_mem_append, List.forall_mem_cons] at hmatch
    refine ⟨before, after, hsplit, ⟨hforce, hmatch.2.1.mp ⟨s, hunify⟩⟩, ?_⟩
    rintro p hp ⟨hforce', hfits⟩
    obtain ⟨s', hunify'⟩ := (hmatch.1 p hp).mpr hfits
    rw [hnone p hp hforce'] at hunify'
    cases hunify'
  · rintro ⟨before, after, hsplit, ⟨hforce, hfits⟩, hnone⟩
    rw [hsplit, List.forall_mem_append, List.forall_mem_cons] at hmatch
    obtain ⟨s, hunify⟩ := hmatch.2.1.mpr hfits
    refine ⟨s, firstPremise_eq_some_iff.mpr ⟨before, after, hsplit, ⟨hforce, hunify⟩, ?_⟩⟩
    intro p hp hforce'
    rw [Option.eq_none_iff_forall_ne_some]
    exact fun s' hunify' => hnone p hp ⟨hforce', (hmatch.1 p hp).mp ⟨s', hunify'⟩⟩

/-- A violation names the first fact that concerns the candidate, and the conclusion in
which all matches of that fact agree, if it is not the candidate. -/
theorem defaultViolation_iff (hground : ∀ p ∈ kb.predicates, p.isGround = true)
    (hcandidate : candidate.isGround = true) :
    kb.defaultViolation rule candidate = some (premise, expected) ↔
      kb.ConcernsFirst rule candidate premise ∧ (expected.isGround = true ∧ expected ≠ candidate) ∧
        ∀ σ, FitsBy σ rule candidate premise → rule.conclusion.subst σ = expected := by
  rw [defaultViolation_eq_some]
  constructor
  · rintro ⟨hname, bound, hbound, s, hfirst, hexpected, hresult⟩
    have hconcerns := (exists_firstPremise_iff hground hcandidate hname hbound).mp ⟨s, hfirst⟩
    refine ⟨hconcerns, hexpected, fun σ hσ => ?_⟩
    obtain ⟨hs, hresp⟩ := unify_premise_some hcandidate (hground _ hconcerns.mem) hbound
      (firstPremise_some hfirst).2.2
    rw [← ((hresp σ).mpr hσ).subst_apply, hresult, Predicate.subst_of_isGround hexpected.1]
  · rintro ⟨hconcerns, hexpected, hall⟩
    obtain ⟨-, hname, harity, σ, hagrees, -⟩ := hconcerns.concerns
    obtain ⟨bound, hbound⟩ := exists_bindPositions hcandidate hagrees
    obtain ⟨s, hfirst⟩ :=
      (exists_firstPremise_iff hground hcandidate ⟨hname, harity⟩ hbound).mpr hconcerns
    obtain ⟨hs, hresp⟩ := unify_premise_some hcandidate (hground _ hconcerns.mem) hbound
      (firstPremise_some hfirst).2.2
    refine ⟨⟨hname, harity⟩, bound, hbound, s, hfirst, hexpected, ?_⟩
    rw [Substitution.apply_eq_subst]
    exact hall _ ((hresp _).mp hs.respects_resolve)

/-- If no two facts in force fit the rule, what violates it among fewer facts and under more
exceptions violated it before, and by the same premise. -/
theorem defaultViolation_of_single (hground : ∀ p ∈ kb.predicates, p.isGround = true)
    (hcandidate : candidate.isGround = true)
    (hsingle : ∀ p ∈ kb.predicates, ∀ q ∈ kb.predicates, kb.isExcepted rule p = false →
      kb.isExcepted rule q = false → Fits rule candidate p → Fits rule candidate q → p = q)
    (hfewer : ∀ p ∈ kb'.predicates, p ∈ kb.predicates)
    (hmore : ∀ p, kb'.isExcepted rule p = false → kb.isExcepted rule p = false)
    (h : kb'.defaultViolation rule candidate = some (premise, expected)) :
    kb.defaultViolation rule candidate = some (premise, expected) := by
  have hground' : ∀ p ∈ kb'.predicates, p.isGround = true := fun p hp => hground p (hfewer p hp)
  obtain ⟨hpremise, hexpected, hall⟩ := (defaultViolation_iff hground' hcandidate).mp h
  obtain ⟨hforce, hfits⟩ := hpremise.concerns
  have hmem := hfewer _ hpremise.mem
  obtain ⟨q, hq⟩ := exists_concernsFirst hmem ⟨hmore _ hforce, hfits⟩
  obtain rfl :=
    hsingle q hq.mem premise hmem hq.concerns.1 (hmore _ hforce) hq.concerns.2 hfits
  exact (defaultViolation_iff hground hcandidate).mpr ⟨hq, hexpected, hall⟩

theorem Fits.length_args (h : Fits rule candidate fact) :
    rule.conclusion.args.length = candidate.args.length := by
  have harity := h.2.1
  rw [Predicate.arity_positive] at harity
  exact harity.symm

/-- If the conclusion's arguments name every variable of the premise, the candidate leaves
no choice of the premise. -/
theorem Fits.unique {p q : Predicate}
    (hvars : ∀ v ∈ rule.premise.vars, .var v ∈ rule.conclusion.args)
    (hp : Fits rule candidate p) (hq : Fits rule candidate q) : p = q := by
  have hlength := hp.length_args
  obtain ⟨-, -, σ, hσ, rfl⟩ := hp
  obtain ⟨-, -, τ, hτ, rfl⟩ := hq
  exact Predicate.subst_congr fun v hv => ((hσ.at_var hlength.le (hvars v hv)).2 τ hτ).symm

end Snapshot
end Defeasible
