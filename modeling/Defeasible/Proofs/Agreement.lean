import Defeasible.Proofs.Completeness
import Defeasible.Proofs.Fixpoint

/-!
Forward and backward chaining agree. Both are compared with derivability: what passes
store is derivable, so that no search excludes it, and what a search proves is
derivable, so that passes that ended by themselves have stored it. The second needs
that the passes could store every conclusion they came to.
-/

namespace Defeasible

variable {Time : Type}

/-- The rule concludes only facts that may be stored, from facts that are stored. -/
structure Rule.Storable (r : Rule) : Prop where
  rangeRestricted : r.RangeRestricted
  untimed : r.conclusion.isTimed = false
  named : r.conclusion.hasUnnamed = false

instance (r : Rule) : Decidable r.RangeRestricted :=
  inferInstanceAs (Decidable (∀ v ∈ r.conclusion.vars, v ∈ r.premise.vars))

instance (r : Rule) : Decidable r.Storable :=
  decidable_of_iff
    (r.RangeRestricted ∧ r.conclusion.isTimed = false ∧ r.conclusion.hasUnnamed = false)
    ⟨fun h => ⟨h.1, h.2.1, h.2.2⟩, fun h => ⟨h.rangeRestricted, h.untimed, h.named⟩⟩

section Validity

variable {p : Predicate} {r : Rule} {σ : String → Term}

theorem named_of_validateFact (h : validateFact p = .ok ()) : p.hasUnnamed = false := by
  rw [validateFact] at h
  split at h
  · cases h
  next hnamed => exact Bool.not_eq_true _ ▸ hnamed

theorem validateFact_of_untimed (hnamed : p.hasUnnamed = false) (hground : p.isGround = true)
    (huntimed : p.isTimed = false) : validateFact p = .ok () := by
  simp [validateFact, hnamed, hground, huntimed]

theorem Rule.Storable.valid (h : r.Storable)
    (hpremise : validateFact (r.premise.subst σ) = .ok ()) :
    validateFact (r.conclusion.subst σ) = .ok () := by
  have hground := Predicate.isGround_iff.mp (KnowledgeBase.isGround_of_validateFact hpremise)
  refine validateFact_of_untimed ?_ (Predicate.isGround_iff.mpr fun w hw => ?_) h.untimed
  · refine Bool.eq_false_iff.mpr fun hunnamed => ?_
    obtain hunnamed | ⟨v, hv, hunnamed⟩ := Predicate.hasUnnamed_subst.mp hunnamed
    · exact Bool.false_ne_true (h.named.symm.trans hunnamed)
    · have hin := Predicate.hasUnnamed_subst.mpr (.inr ⟨v, h.rangeRestricted v hv, hunnamed⟩)
      exact Bool.false_ne_true ((named_of_validateFact hpremise).symm.trans hin)
  · obtain ⟨v, hv, hw⟩ := Predicate.mem_vars_subst.mp hw
    exact hground w (Predicate.mem_vars_subst.mpr ⟨v, h.rangeRestricted v hv, hw⟩)

end Validity

namespace KnowledgeBase

variable {kb : KnowledgeBase Time} {p : Predicate} {limit : Nat}

theorem mem_stored_snapshot : p ∈ kb.snapshot.stored ↔ p ∈ kb.factSet := by
  rw [Snapshot.stored, snapshot_predicates]
  rfl

theorem advance_derivable_subset (kb : KnowledgeBase Time) :
    advance kb.rules {p | kb.snapshot.Derivable p} ⊆ {p | kb.snapshot.Derivable p} := by
  rintro p (hp | ⟨r, hr, σ, -, hpremise, rfl, -⟩)
  · exact hp
  · exact .rule σ hr hpremise

theorem Placed.derivable_of_mem_saturate (h : kb.Placed)
    (hp : p ∈ (kb.saturate limit).2.factSet) : kb.snapshot.Derivable p := by
  obtain ⟨n, -, hfacts, -⟩ := (h.saturates {} rfl limit).passes
  have hinitial : kb.factSet ⊆ {p | kb.snapshot.Derivable p} :=
    fun q hq => .fact (mem_stored_snapshot.mpr hq)
  exact iterate_advance_subset hinitial kb.advance_derivable_subset n (hfacts ▸ hp)

theorem Placed.mem_saturate_of_derivable (h : kb.Placed) (hrules : ∀ r ∈ kb.rules, r.Storable)
    (hreached : (kb.saturate limit).1.reachedFixpoint = true) (hp : kb.snapshot.Derivable p) :
    p ∈ (kb.saturate limit).2.factSet := by
  have hrun := h.saturates {} rfl limit
  have hafter := h.saturateFrom {} limit
  have hclosed := (hrun.isLeast hafter hreached).1.2
  rw [← advanceFreely_eq_advance fun r hr => (hrules r hr).rangeRestricted] at hclosed
  induction hp with
  | fact hp => exact hrun.subset (mem_stored_snapshot.mp hp)
  | rule σ hr _ ih =>
      exact hclosed (.inr ⟨_, hr, σ, ih, rfl, (hrules _ hr).valid (hafter.valid_of_mem ih)⟩)

end KnowledgeBase

namespace Reasoner

variable {r : Reasoner Time} {goal : Predicate}

theorem derivable_of_proveMonotonic (hr : r.kb.Placed) (hground : goal.isGround = true)
    (h : (r.proveMonotonic goal).1.outcome = .proved) : r.kb.snapshot.Derivable goal := by
  obtain ⟨result, st, reasoning, hask, hanswer⟩ := r.proveMonotonic_answer goal
  have hsound := Search.ask_sound hr.factsGround r.config.limits r.config.limits.maxDepth goal
    ∅ { generation := r.generation } Substitution.acyclic_empty nofun
  rw [hask] at hsound
  rw [hanswer] at h
  obtain ⟨proof, rfl⟩ := SearchResult.outcome_eq_proved h
  have hderivable := (hsound.2 proof rfl).derivable_apply
  rwa [Substitution.apply_eq_subst, Predicate.subst_of_isGround hground] at hderivable

theorem outcome_ne_notProved (hr : r.kb.Placed) (hrules : ∀ rule ∈ r.kb.rules, rule.Plain)
    (hground : goal.isGround = true) (h : r.kb.snapshot.Derivable goal) :
    (r.proveMonotonic goal).1.outcome ≠ .notProved := by
  obtain ⟨result, st, reasoning, hask, hanswer⟩ := r.proveMonotonic_answer goal
  have hcomplete := Search.ask_complete hr.factsGround hr.kindsApart hrules r.config.limits
    r.config.limits.maxDepth goal ∅ { generation := r.generation } Substitution.acyclic_empty
    ((Predicate.plain_of_isGround hground).scoped _)
  rw [hask] at hcomplete
  rw [hanswer]
  cases result with
  | proved | exhausted => exact nofun
  | failed =>
      obtain ⟨n, hn⟩ := h.exists_derivableIn
      rw [← Predicate.subst_of_isGround hground .var] at hn
      exact absurd hn (hcomplete.2 n (Nat.zero_le n) trivial .var (Substitution.respects_empty _))

/-- No fact that is stored after saturation had been excluded by a search. If the rules
conclude only what may be stored and the passes ended by themselves, then every ground
goal that a search had proved is stored. -/
theorem saturate_agrees_proveMonotonic (r : Reasoner Time) (hr : r.kb.Reachable)
    (hrules : ∀ rule ∈ r.kb.rules, rule.Plain) (limit : Nat) :
    let saturation := (r.kb.saturate limit).1
    let after := (r.kb.saturate limit).2
    (∀ p ∈ after.factSet, (r.proveMonotonic p).1.outcome ≠ .notProved) ∧
      ((∀ rule ∈ r.kb.rules, rule.Storable) → saturation.reachedFixpoint = true →
        ∀ goal, goal.isGround = true → (r.proveMonotonic goal).1.outcome = .proved →
          goal ∈ after.factSet) := by
  intro saturation after
  have hplaced := hr.placed
  have hafter : after.Placed := hplaced.saturateFrom {} limit
  constructor
  · intro p hp
    have hground := KnowledgeBase.isGround_of_validateFact (hafter.valid_of_mem hp)
    exact outcome_ne_notProved hplaced hrules hground (hplaced.derivable_of_mem_saturate hp)
  · intro hstorable hreached goal hground hproved
    have hderivable := derivable_of_proveMonotonic hplaced hground hproved
    exact hplaced.mem_saturate_of_derivable hstorable hreached hderivable

/-- One rule application is allowed to the search. It proves what needs one, which is
then stored, and it leaves open what needs two, which is stored as well. -/
theorem saturate_agrees_proveMonotonic_within_depth :
    let r : Reasoner Nat := [.addFact ⟨"Edge", [.const "A", .const "B"]⟩,
      .addRule ⟨⟨"Edge", [.var "x", .var "y"]⟩, ⟨"Path", [.var "y", .var "x"]⟩⟩,
      .addRule ⟨⟨"Path", [.var "x", .var "y"]⟩, ⟨"Linked", [.app "s" [.var "x"]]⟩⟩].foldl serve
        { config := { limits := { maxDepth := 1 } } }
    let path : Predicate := ⟨"Path", [.const "B", .const "A"]⟩
    let linked : Predicate := ⟨"Linked", [.app "s" [.const "B"]]⟩
    (r.proveMonotonic path).1.outcome = .proved ∧ path ∈ (r.kb.saturate 8).2.factSet ∧
      linked ∈ (r.kb.saturate 8).2.factSet ∧ (r.proveMonotonic linked).1.outcome ≠ .notProved := by
  intro r path linked
  have hr : r.kb.Reachable := KnowledgeBase.Reachable.empty.foldl_serve _
  have hreached : (r.kb.saturate 8).1.reachedFixpoint = true := by decide +kernel
  have hproved : (r.proveMonotonic path).1.outcome = .proved := by decide +kernel
  have hlinked : linked ∈ (r.kb.saturate 8).2.known := by decide +kernel
  obtain ⟨hopen, hstored⟩ := r.saturate_agrees_proveMonotonic hr (by decide +kernel) 8
  exact ⟨hproved, hstored (by decide +kernel) hreached path (by decide) hproved, hlinked,
    hopen linked hlinked⟩

end Reasoner

end Defeasible
