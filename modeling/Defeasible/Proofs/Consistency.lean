import Defeasible.Proofs.Defaults

/-!
Defaults never contradict. Two queries over one knowledge base are answered by
separate searches with limits of their own, and neither sees the other's answer. What
a default answer says about facts, rules and defaults alone is enough: of two default
rules for contrary conclusions the one of at least the other's priority would have
hindered it. Answers note what they derived, but no search reads those notes.
-/

namespace Defeasible

variable {Time : Type}

namespace Snapshot

/-- The snapshots differ at most in the facts that were noted as derived. -/
def SameTheory (kb kb' : Snapshot Time) : Prop := ∃ derived, kb' = { kb with derived }

variable {kb : Snapshot Time} {limits : Limits} {generation : Nat} {c : Predicate}

theorem derivable_withDerived {derived : List Predicate} {p : Predicate} :
    ({ kb with derived } : Snapshot Time).Derivable p ↔ kb.Derivable p := by
  constructor
  · intro h
    induction h with
    | fact hp => exact .fact hp
    | rule σ hr _ ih => exact .rule σ hr ih
  · intro h
    induction h with
    | fact hp => exact .fact hp
    | rule σ hr _ ih => exact .rule σ hr ih

theorem applies_withDerived {derived : List Predicate} {r : DefaultRule} {σ : String → Term} :
    ({ kb with derived } : Snapshot Time).Applies r σ ↔ kb.Applies r σ :=
  ⟨fun h => ⟨h.stored, derivable_withDerived.mp h.derivable, h.unexcepted⟩,
    fun h => ⟨h.stored, derivable_withDerived.mpr h.derivable, h.unexcepted⟩⟩

theorem unhindered_withDerived {derived : List Predicate} {priority : Certainty}
    (h : ({ kb with derived } : Snapshot Time).Unhindered c priority) :
    kb.Unhindered c priority where
  underivable θ hderivable := h.underivable θ (derivable_withDerived.mpr hderivable)
  unopposed r hr := by
    rintro ⟨τ, θ, happlies, hmatch⟩
    exact h.unopposed r hr ⟨τ, θ, applies_withDerived.mpr happlies, hmatch⟩

theorem Regular.withDerived (h : kb.Regular) (derived : List Predicate) :
    ({ kb with derived } : Snapshot Time).Regular :=
  ⟨h.factsGround, h.kindsApart, h.exceptionsGround, h.rulesPlain, h.defaultRulesPlain⟩

/-- Some default rule concludes the predicate and is not hindered. -/
def Concludes (kb : Snapshot Time) (c : Predicate) : Prop :=
  ∃ r σ, kb.Applies r σ ∧ r.conclusion.subst σ = c ∧ kb.Unhindered c.negated r.priority

theorem Concludes.not_derivable_negated (h : kb.Concludes c) : ¬ kb.Derivable c.negated := by
  obtain ⟨r, σ, -, -, hunhindered⟩ := h
  have hnone := hunhindered.underivable .var
  rwa [Predicate.subst_id] at hnone

theorem Concludes.not_concludes_negated (h : kb.Concludes c) (hc : c.negated.negated = c) :
    ¬ kb.Concludes c.negated := by
  rintro ⟨r', σ', happlies', hconclusion', hunhindered'⟩
  obtain ⟨r, σ, happlies, hconclusion, hunhindered⟩ := h
  rw [hc] at hunhindered'
  obtain hle | hle := Nat.le_total r.priority.rank r'.priority.rank
  · refine hunhindered.unopposed r' hle ⟨σ', .var, happlies', ?_⟩
    rw [hconclusion', Predicate.subst_id]
  · refine hunhindered'.unopposed r hle ⟨σ, .var, happlies, ?_⟩
    rw [hconclusion, Predicate.subst_id]

end Snapshot

/-- The answer is positive and was found in the given way. -/
def Answer.ProvedBy (answer : Answer) (reasoning : Reasoning) : Prop :=
  answer.outcome = .proved ∧ answer.reasoning = reasoning

instance (answer : Answer) (reasoning : Reasoning) : Decidable (answer.ProvedBy reasoning) :=
  inferInstanceAs (Decidable (answer.outcome = .proved ∧ answer.reasoning = reasoning))

namespace Snapshot

variable {kb kb' : Snapshot Time} {limits : Limits} {generation : Nat} {c : Predicate}

theorem concludes_of_prove (hkb : kb.Regular) (hsame : kb.SameTheory kb') (hc : c.isGround = true)
    (h : (kb'.prove limits true generation c).1.ProvedBy .byDefault) : kb.Concludes c := by
  obtain ⟨derived, rfl⟩ := hsame
  obtain ⟨r, σ, happlies, hconclusion, hunhindered⟩ :=
    applies_of_prove (hkb.withDerived derived) (Predicate.plain_of_isGround hc) h.1 h.2
  rw [Predicate.subst_of_isGround hc] at hconclusion
  rw [hconclusion] at hunhindered
  exact ⟨r, σ, applies_withDerived.mp happlies, hconclusion, unhindered_withDerived hunhindered⟩

theorem derivable_of_provedBy (hkb : kb.Regular) (hsame : kb.SameTheory kb')
    (hc : c.isGround = true) {reasoning : Reasoning} (hreasoning : reasoning ≠ .byDefault)
    (h : (kb'.prove limits true generation c).1.ProvedBy reasoning) : kb.Derivable c := by
  obtain ⟨derived, rfl⟩ := hsame
  have hderivable := derivable_of_prove (hkb.withDerived derived).factsGround h.1 (h.2 ▸ hreasoning)
  rw [Predicate.subst_of_isGround hc] at hderivable
  exact derivable_withDerived.mp hderivable

end Snapshot

theorem KnowledgeBase.sameTheory_recordDerived (kb : KnowledgeBase Time) (ps : List Predicate) :
    kb.snapshot.SameTheory (kb.recordDerived ps).2.snapshot := by
  obtain ⟨derived, hderived⟩ := kb.recordDerived_eq ps
  rw [hderived]
  exact ⟨_, rfl⟩

theorem Reasoner.sameTheory_prove (r : Reasoner Time) (goal : Predicate) :
    r.kb.snapshot.SameTheory (r.prove goal).2.kb.snapshot :=
  r.kb.sameTheory_recordDerived _

theorem Predicate.isGround_negated (c : Predicate) : c.negated.isGround = c.isGround := rfl

namespace Reasoner

variable {r r' : Reasoner Time} {c : Predicate}

theorem prove_answer (r : Reasoner Time) (goal : Predicate) :
    (r.prove goal).1 = (r.kb.snapshot.prove r.config.limits true r.generation goal).1 := by rfl

theorem concludes_of_prove (hkb : r.kb.snapshot.Regular)
    (hsame : r.kb.snapshot.SameTheory r'.kb.snapshot) (hc : c.isGround = true)
    (h : (r'.prove c).1.ProvedBy .byDefault) : r.kb.snapshot.Concludes c := by
  rw [prove_answer] at h
  exact Snapshot.concludes_of_prove hkb hsame hc h

theorem derivable_of_prove (hkb : r.kb.snapshot.Regular)
    (hsame : r.kb.snapshot.SameTheory r'.kb.snapshot) (hc : c.isGround = true)
    (h : (r'.prove c).1.ProvedBy .fact ∨ (r'.prove c).1.ProvedBy .rule) :
    r.kb.snapshot.Derivable c := by
  rw [prove_answer] at h
  obtain h | h := h
  · exact Snapshot.derivable_of_provedBy hkb hsame hc (by decide) h
  · exact Snapshot.derivable_of_provedBy hkb hsame hc (by decide) h

/-- Over one knowledge base a ground predicate and its negation are not both proved by
default, and neither is proved by default if the other is proved by facts or rules. The
two queries may have any limits, and each may come after any others. -/
theorem prove_byDefault_consistent (r r' : Reasoner Time) (hr : r.kb.Reachable)
    (hsame : r.kb.snapshot.SameTheory r'.kb.snapshot)
    (hexceptions : ∀ e ∈ r.kb.exceptions, e.excluded.isGround = true)
    (hrules : ∀ rule ∈ r.kb.rules, rule.Plain)
    (hdefaults : ∀ rule ∈ r.kb.defaultRules, rule.Plain) (c : Predicate)
    (hground : c.isGround = true) (hc : c.negated.negated = c) :
    let answer := (r.prove c).1
    let contrary := (r'.prove c.negated).1
    ¬ (answer.ProvedBy .byDefault ∧ contrary.ProvedBy .byDefault) ∧
      (answer.ProvedBy .fact ∨ answer.ProvedBy .rule → ¬ contrary.ProvedBy .byDefault) ∧
      (contrary.ProvedBy .fact ∨ contrary.ProvedBy .rule → ¬ answer.ProvedBy .byDefault) := by
  intro answer contrary
  have hkb := hr.placed.regular hexceptions hrules hdefaults
  have hself : r.kb.snapshot.SameTheory r.kb.snapshot := ⟨_, rfl⟩
  have hground' : c.negated.isGround = true := c.isGround_negated.trans hground
  refine ⟨?_, ?_, ?_⟩
  · rintro ⟨hdefault, hdefault'⟩
    have hconcludes := concludes_of_prove hkb hself hground hdefault
    exact hconcludes.not_concludes_negated hc (concludes_of_prove hkb hsame hground' hdefault')
  · intro h hdefault
    have hderivable := derivable_of_prove hkb hself hground h
    rw [← hc] at hderivable
    exact (concludes_of_prove hkb hsame hground' hdefault).not_derivable_negated hderivable
  · intro h hdefault
    have hderivable := derivable_of_prove hkb hsame hground' h
    exact (concludes_of_prove hkb hself hground hdefault).not_derivable_negated hderivable

/-- The stronger default decides for the penguin. A later query with other limits does
not conclude the contrary by the weaker one. -/
theorem prove_byDefault_consistent_on_penguin :
    let r : Reasoner Nat := [.addFact ⟨"Penguin", [.const "Pingu"]⟩,
      .addRule ⟨⟨"Penguin", [.var "x"]⟩, ⟨"Bird", [.var "x"]⟩⟩,
      .addDefaultRule ⟨⟨"Bird", [.var "x"]⟩, ⟨"Flies", [.var "x"]⟩, ⟨0x3F666666, by decide⟩⟩,
      .addDefaultRule ⟨⟨"Penguin", [.var "x"]⟩, ⟨"NotFlies", [.var "x"]⟩, .full⟩].foldl serve {}
    let r' : Reasoner Nat := { (r.prove ⟨"NotFlies", [.const "Pingu"]⟩).2 with
      config := { limits := { maxDepth := 7, maxSteps := 20 } } }
    (r.prove ⟨"NotFlies", [.const "Pingu"]⟩).1.ProvedBy .byDefault ∧
      ¬ (r'.prove (Predicate.negated ⟨"NotFlies", [.const "Pingu"]⟩)).1.ProvedBy .byDefault := by
  intro r r'
  have hr : r.kb.Reachable := KnowledgeBase.Reachable.empty.foldl_serve _
  have hsame : r.kb.snapshot.SameTheory r'.kb.snapshot :=
    r.sameTheory_prove ⟨"NotFlies", [.const "Pingu"]⟩
  have hdefault : (r.prove ⟨"NotFlies", [.const "Pingu"]⟩).1.ProvedBy .byDefault := by
    decide +kernel
  have hconsistent := r.prove_byDefault_consistent r' hr hsame (by decide +kernel)
    (by decide +kernel) (by decide +kernel) ⟨"NotFlies", [.const "Pingu"]⟩ (by decide) (by decide)
  exact ⟨hdefault, fun hcontrary => hconsistent.1 ⟨hdefault, hcontrary⟩⟩

end Reasoner

end Defeasible
