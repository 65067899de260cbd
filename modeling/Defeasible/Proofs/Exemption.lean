import Defeasible.Proofs.LaterStart
import Defeasible.Proofs.Independence
import Defeasible.Proofs.Resolution

/-!
Adding an exception. The exception takes a default rule out of force for one premise
instance. Where that instance competed with another default, the search for a hindrance
goes on instead of stopping, and what follows starts later. So the searches before and after
are compared in two ways: from the same state over the two knowledge bases, where no
candidate is lost for a goal that the exception does not concern, and from two states over
the same knowledge base, where a later start costs only steps. Such a goal stays proved,
unless the steps run out.
-/

namespace Defeasible

variable {Time : Type}

/-- An instance of the rule with the excluded premise concludes an instance of the goal. -/
def RuleException.Concerns (e : RuleException) (goal : Predicate) : Prop :=
  ∃ σ θ τ, e.rule.premise.subst σ = e.excluded ∧
    (e.rule.conclusion.subst σ).subst θ = goal.subst τ

namespace Snapshot

/-- The snapshot with the exception added, unless it is there. -/
def excepting (kb : Snapshot Time) (e : RuleException) : Snapshot Time :=
  { kb with exceptions := addExceptions kb.exceptions [e] }

theorem Regular.excepting {kb : Snapshot Time} {e : RuleException} (h : kb.Regular)
    (he : e.excluded.isGround = true) : (kb.excepting e).Regular where
  factsGround := h.factsGround
  kindsApart := h.kindsApart
  exceptionsGround d hd := by
    obtain hd | hd := mem_addExceptions.mp hd
    · exact h.exceptionsGround d hd
    · exact List.mem_singleton.mp hd ▸ he
  rulesPlain := h.rulesPlain
  defaultRulesPlain := h.defaultRulesPlain

end Snapshot

namespace Search

variable {kb : Snapshot Time} {limits : Limits} {goal : Predicate} {bound proof : Substitution}
  {st : SearchState} {r renamed : DefaultRule} {rules : List DefaultRule}
  {proofs : List Substitution} {e : RuleException}

theorem byRules_excepting (kb : Snapshot Time) (e : RuleException) (limits : Limits) (depth : Nat) :
    byRules (kb.excepting e) limits depth = byRules kb limits depth := by
  induction depth with
  | zero => rfl
  | succ depth ih =>
      funext goal s st
      change chainRules limits (factsThen kb limits (byRules (kb.excepting e) limits depth)) goal s
        kb.rules false st = _
      rw [ih]
      rfl

theorem ask_excepting (kb : Snapshot Time) (e : RuleException) (limits : Limits) (depth : Nat) :
    ask (kb.excepting e) limits depth = ask kb limits depth :=
  congrArg (factsThen kb limits) (byRules_excepting kb e limits depth)

theorem solveByRules_excepting (kb : Snapshot Time) (e : RuleException) (limits : Limits)
    (depth : Nat) : solveByRules (kb.excepting e) limits depth = solveByRules kb limits depth := by
  induction depth with
  | zero => rfl
  | succ depth ih =>
      funext goal s st
      change chainAll limits (factsAnd kb limits (solveByRules (kb.excepting e) limits depth)) goal
        s kb.rules st = _
      rw [ih]
      rfl

/-- The proofs of a premise do not depend on the exceptions. -/
theorem defaultSolutions_excepting (kb : Snapshot Time) (e : RuleException) (limits : Limits)
    (r : DefaultRule) (bound : Substitution) (st : SearchState) :
    defaultSolutions (kb.excepting e) limits r bound st =
      defaultSolutions kb limits r bound st := by
  have hsolve : solve (kb.excepting e) limits (innerDepth limits) =
      solve kb limits (innerDepth limits) :=
    congrArg (factsAnd kb limits) (solveByRules_excepting kb e limits (innerDepth limits))
  rw [defaultSolutions, hsolve]
  rfl

theorem isInForce_excepting : isInForce (kb.excepting e) r renamed proof = true ↔
    isInForce kb r renamed proof = true ∧ ⟨r, proof.apply renamed.premise⟩ ≠ e := by
  rw [isInForce_iff, isInForce_iff, Snapshot.excepting, mem_addExceptions, not_or,
    List.mem_singleton]

/-- A search for a hindrance with one exception more. It takes the same course, or goes on where
the other has found a hindrance. -/
def GoesOn (out out' : SearchResult × SearchState) : Prop :=
  out' = out ∨ (∃ proof, out.1 = .proved proof) ∧ Forward out.2 out'.2

theorem competing_goesOn (kb : Snapshot Time) (e : RuleException) (limits : Limits)
    (contrary : Predicate) (rules : List DefaultRule) (cutOff : Bool) (st : SearchState) :
    GoesOn (competing kb limits contrary rules cutOff st)
      (competing (kb.excepting e) limits contrary rules cutOff st) := by
  induction rules generalizing cutOff st with
  | nil => exact .inl rfl
  | cons r rules ih =>
      rw [competing_cons, competing_cons]
      cases unifyPredicates (r.rename (st.generation + 1)).conclusion contrary ∅ with
      | none => exact ih cutOff st.nextGeneration
      | some bound =>
          simp only [defaultSolutions_excepting]
          generalize defaultSolutions kb limits r bound st = out
          obtain ⟨⟨found, cutOff₁⟩, st₁⟩ := out
          cases hfind : found.find? (isInForce kb r (r.rename (st.generation + 1))) with
          | some proof =>
              refine .inr ⟨⟨proof, rfl⟩, ?_⟩
              dsimp only
              split
              · exact .refl st₁
              · exact (competing_spends _ _ _ _ _ _).toForward
          | none =>
              have hnone : found.find?
                  (isInForce (kb.excepting e) r (r.rename (st.generation + 1))) = none := by
                rw [List.find?_eq_none] at hfind ⊢
                exact fun proof hproof h => hfind proof hproof (isInForce_excepting.mp h).1
              simp only [hnone]
              exact ih _ st₁

theorem hindrance_goesOn (kb : Snapshot Time) (e : RuleException) (limits : Limits)
    (contrary : Predicate) (priority : Certainty) (st : SearchState) :
    GoesOn (hindrance kb limits contrary priority st)
      (hindrance (kb.excepting e) limits contrary priority st) := by
  rw [hindrance, hindrance, ask_excepting]
  obtain ⟨result, st₁⟩ := ask kb limits (innerDepth limits) contrary ∅ st
  cases result with
  | failed => exact competing_goesOn kb e limits contrary _ false st₁
  | proved | exhausted => exact .inl rfl

/-- An exception that excludes none of the proofs takes away no choice among them. -/
theorem firstUnhindered_excepting (hkb : kb.Regular) (limits : Limits)
    (hpast : Past st.generation renamed proofs)
    (hforce : ∀ proof ∈ proofs, ⟨r, proof.apply renamed.premise⟩ ≠ e) (cutOff cutOff' : Bool) :
    ChoiceNoWorse limits (firstUnhindered kb limits r renamed proofs cutOff st)
      (firstUnhindered (kb.excepting e) limits r renamed proofs cutOff' st) := by
  induction proofs generalizing cutOff cutOff' st with
  | nil => exact .of_forward id (.refl st)
  | cons first proofs ih =>
      rw [List.forall_mem_cons] at hforce
      have hsame : isInForce (kb.excepting e) r renamed first = isInForce kb r renamed first := by
        rw [Bool.eq_iff_iff, isInForce_excepting, and_iff_left hforce.1]
      rw [firstUnhindered_cons, firstUnhindered_cons, hsame]
      cases isInForce kb r renamed first with
      | false => exact ih hpast.tail hforce.2 cutOff cutOff'
      | true =>
          have hlater := hpast.tail.mono (hindrance_spends kb limits
            (first.apply renamed.conclusion).negated r.priority st).generation
          have hgoesOn := hindrance_goesOn kb e limits
            (first.apply renamed.conclusion).negated r.priority st
          simp only [if_true]
          generalize hindrance kb limits (first.apply renamed.conclusion).negated r.priority st =
            out at hlater hgoesOn ⊢
          generalize hindrance (kb.excepting e) limits
            (first.apply renamed.conclusion).negated r.priority st = out' at hgoesOn ⊢
          obtain ⟨result, st₁⟩ := out
          obtain ⟨result', st₁'⟩ := out'
          obtain heq | ⟨⟨proof, rfl⟩, hforward⟩ := hgoesOn
          · cases heq
            cases result with
            | failed => exact .inl (Option.some_ne_none first)
            | proved => exact ih hlater hforce.2 cutOff cutOff'
            | exhausted => exact ih hlater hforce.2 true true
          · -- What hindered the proof may be gone; if not, the rest is tried from a later state.
            have hrest := firstUnhindered_later hkb limits r hlater hforward cutOff
            have hlater' := hlater.mono hforward.generation
            cases result' with
            | failed => exact .inl (Option.some_ne_none first)
            | proved => exact hrest.trans (ih hlater' hforce.2 cutOff cutOff')
            | exhausted => exact hrest.trans (ih hlater' hforce.2 cutOff true)

/-- No proof of the premise of a default rule, tried for the goal, has the excluded instance. -/
theorem apply_premise_ne (hkb : kb.Regular) (limits : Limits) (hscope : ¬ e.Concerns goal)
    (hunify : unifyPredicates (r.rename (st.generation + 1)).conclusion goal ∅ = some bound) :
    ∀ proof ∈ (defaultSolutions kb limits r bound st).1.found,
      ⟨r, proof.apply (r.rename (st.generation + 1)).premise⟩ ≠ e := by
  rintro proof hproof rfl
  obtain ⟨σ, hpremise, -, hgoal, -⟩ := exists_instance hkb.factsGround hunify hproof
  rw [Substitution.apply_eq_subst] at hgoal
  exact hscope ⟨σ, .var, _, hpremise.symm, (Predicate.subst_id _).trans hgoal.symm⟩

theorem byDefaults_excepting (hkb : kb.Regular) (limits : Limits)
    (hrules : ∀ r ∈ rules, r.Plain) (hgoal : goal.Plain) (hscope : ¬ e.Concerns goal)
    (cutOff cutOff' : Bool) :
    ResultNoWorse limits (byDefaults kb limits goal rules cutOff st)
      (byDefaults (kb.excepting e) limits goal rules cutOff' st) := by
  induction rules generalizing cutOff cutOff' st with
  | nil => cases cutOff <;> exact .of_forward nofun (.refl st)
  | cons r rules ih =>
      rw [List.forall_mem_cons] at hrules
      rw [byDefaults_cons, byDefaults_cons]
      cases hunify : unifyPredicates (r.rename (st.generation + 1)).conclusion goal ∅ with
      | none => exact ih hrules.2 cutOff cutOff'
      | some bound =>
          have hgoalScope := hgoal.scoped st.generation
          have hpast := past_defaultSolutions hkb limits hrules.1 hgoalScope hunify
          have hforce := apply_premise_ne hkb limits hscope hunify
          simp only [defaultChoice, defaultSolutions_excepting]
          generalize defaultSolutions kb limits r bound st = solutions at hpast hforce ⊢
          obtain ⟨⟨found, cutOff₁⟩, st₁⟩ := solutions
          have hchoice := firstUnhindered_excepting hkb limits hpast hforce (cutOff || cutOff₁)
            (cutOff' || cutOff₁)
          dsimp only at hchoice ⊢
          generalize firstUnhindered kb limits r _ found _ st₁ = choice at hchoice ⊢
          generalize firstUnhindered (kb.excepting e) limits r _ found _ st₁ = choice' at hchoice ⊢
          obtain ⟨chosen, cutOff₂, st₂⟩ := choice
          obtain ⟨chosen', cutOff₂', st₂'⟩ := choice'
          cases chosen' with
          | some proof => exact .inl rfl
          | none =>
              obtain hfound | hspent | ⟨hnone, hforward⟩ := hchoice
              · exact absurd rfl hfound
              · exact .inr (.inl (Spent.later hspent (byDefaults_spends _ _ _ _ _ _).toForward))
              · rw [not_not] at hnone
                obtain rfl : chosen = none := hnone
                exact (byDefaults_later hkb limits hrules.2 hgoal hforward cutOff₂).trans
                  (ih hrules.2 cutOff₂ cutOff₂')

theorem inconclusive_snd (out : SearchResult × SearchState) : (inconclusive out).2 = out.2 := by
  obtain ⟨result, st⟩ := out
  cases result <;> rfl

theorem outcome_inconclusive (out : SearchResult × SearchState) :
    (inconclusive out).1.outcome = .proved ↔ out.1.outcome = .proved := by
  obtain ⟨result, st⟩ := out
  cases result with
  | proved | exhausted => exact Iff.rfl
  | failed => exact iff_of_false nofun nofun

theorem ResultNoWorse.inconclusive {out out' : SearchResult × SearchState}
    (h : ResultNoWorse limits out out') :
    ResultNoWorse limits (inconclusive out) (inconclusive out') := by
  rw [ResultNoWorse, outcome_inconclusive, outcome_inconclusive, inconclusive_snd,
    inconclusive_snd]
  exact h

theorem run_excepting (hkb : kb.Regular) (limits : Limits) (hgoal : goal.Plain)
    (hscope : ¬ e.Concerns goal) (st : SearchState) :
    ResultNoWorse limits (run kb limits true goal st).2
      (run (kb.excepting e) limits true goal st).2 := by
  rw [run_snd, run_snd, ask_excepting]
  obtain ⟨result, st₁⟩ := ask kb limits limits.maxDepth goal ∅ st
  have hdefaults : ResultNoWorse limits (byDefaults kb limits goal kb.defaultRules false st₁)
      (byDefaults (kb.excepting e) limits goal kb.defaultRules false st₁) :=
    byDefaults_excepting hkb limits hkb.defaultRulesPlain hgoal hscope false false
  cases result with
  | proved proof => exact .inl rfl
  | failed => exact hdefaults
  | exhausted => exact hdefaults.inconclusive

end Search

namespace Reasoner

variable {r r₂ r' : Reasoner Time} {e : RuleException} {isNew : Bool}

theorem addException_eq_ok (h : r.addException e = .ok (isNew, r₂)) :
    e.excluded.isGround = true ∧ r₂.config = r.config ∧ r₂.generation = r.generation ∧
      r₂.kb.snapshot = r.kb.snapshot.excepting e := by
  have hkb : (r.kb.addException e).2.snapshot = r.kb.snapshot.excepting e := by
    rw [KnowledgeBase.addException_snd]
    rfl
  rw [addException] at h
  split at h
  next hground =>
    cases h
    exact ⟨hground, rfl, rfl, hkb⟩
  next => cases h

/-- An exception leaves proved every goal that it does not concern, whatever was asked since,
unless the steps run out. -/
theorem prove_addException (r : Reasoner Time) (hr : r.kb.Reachable)
    (hexceptions : ∀ e ∈ r.kb.exceptions, e.excluded.isGround = true)
    (hrules : ∀ rule ∈ r.kb.rules, rule.Plain)
    (hdefaults : ∀ rule ∈ r.kb.defaultRules, rule.Plain)
    (hadd : r.addException e = .ok (isNew, r₂)) (hlike : r₂.Alike r') {goal : Predicate}
    (hgoal : goal.Plain) (hscope : ¬ e.Concerns goal)
    (hproved : (r.prove goal).1.outcome = .proved)
    (hsteps : (r'.prove goal).1.steps < r'.config.limits.maxSteps) :
    (r'.prove goal).1.outcome = .proved := by
  obtain ⟨hground, hconfig, hgeneration, hsnapshot⟩ := addException_eq_ok hadd
  have hkb := hr.placed.regular hexceptions hrules hdefaults
  have hplain : r₂.kb.snapshot.Plain := hsnapshot ▸ (hkb.excepting hground).plain
  obtain ⟨ρ, -, -, hfollows⟩ := answer_agrees (q := .prove goal) hplain hgoal hlike
  have houtcome : (r'.prove goal).1.outcome = (r₂.prove goal).1.outcome := hfollows.outcome
  have hequal : (r'.prove goal).1.steps = (r₂.prove goal).1.steps := hfollows.steps
  rw [hlike.1, hequal] at hsteps
  rw [houtcome]
  rw [prove, outcome_proveWith] at hproved ⊢
  rw [prove, steps_proveWith] at hsteps
  rw [hconfig, hgeneration, hsnapshot] at hsteps ⊢
  obtain hfound | hspent | ⟨hnone, -⟩ := Search.run_excepting hkb r.config.limits hgoal hscope
    { generation := r.generation }
  · exact hfound
  · exact absurd hsteps (Nat.not_lt_of_le hspent)
  · exact absurd hproved hnone

/-- A penguin that is excepted from not flying is the first bird that flies, before the one that
was the answer. -/
theorem prove_addException_penguin :
    let walks : DefaultRule := ⟨⟨"Penguin", [.var "x"]⟩, ⟨"NotFlies", [.var "x"]⟩, .full⟩
    let r : Reasoner Nat := List.foldl serve {} [.addFact ⟨"Bird", [.const "Pingu"]⟩,
      .addFact ⟨"Bird", [.const "Tweety"]⟩, .addFact ⟨"Penguin", [.const "Pingu"]⟩,
      .addDefaultRule ⟨⟨"Bird", [.var "x"]⟩, ⟨"Flies", [.var "x"]⟩, .full⟩, .addDefaultRule walks]
    let excepted := r.serve (.addException ⟨walks, ⟨"Penguin", [.const "Pingu"]⟩⟩)
    let goal : Predicate := ⟨"Flies", [.var "w"]⟩
    (r.prove goal).1.bindings.get? "w" = some (.const "Tweety") ∧
      (excepted.prove goal).1.bindings.get? "w" = some (.const "Pingu") ∧
      (excepted.prove goal).1.outcome = .proved := by
  intro walks r excepted goal
  have hr : r.kb.Reachable := KnowledgeBase.Reachable.empty.foldl_serve (r := {}) _
  have hadd : r.addException ⟨walks, ⟨"Penguin", [.const "Pingu"]⟩⟩ = .ok (true, excepted) := by
    rfl
  have hscope : ¬ RuleException.Concerns ⟨walks, ⟨"Penguin", [.const "Pingu"]⟩⟩ goal := by
    rintro ⟨σ, θ, τ, -, h⟩
    exact absurd (congrArg Predicate.name h) (show "NotFlies" ≠ "Flies" by decide)
  refine ⟨by decide +kernel, by decide +kernel, ?_⟩
  exact prove_addException r hr (by decide +kernel) (by decide +kernel) (by decide +kernel) hadd
    (.refl excepted) (by decide) hscope (by decide +kernel) (by decide +kernel)

end Reasoner
end Defeasible
