import Defeasible.Proofs.MostGeneral
import Defeasible.Proofs.SearchRuns
import Defeasible.Proofs.Storage

/-!
Soundness of backward chaining. The search returns a substitution under which the
goal is derivable for every assignment that respects it: a matching fact is the
goal itself, and a rule whose renamed conclusion unifies with the goal passes the
derivation of its premise on. What is recorded on the way back is derivable too.
No assumption is made about the names of variables.
-/

namespace Defeasible

variable {Time : Type}

namespace Search

variable {kb : Snapshot Time} {limits : Limits} {depth : Nat} {goal : Predicate} {s : Substitution}
  {st st' : SearchState}

/-- Every assignment that respects the proof makes the goal derivable by at most
`depth` rule applications. -/
structure Justifies (kb : Snapshot Time) (depth : Nat) (goal : Predicate)
    (s proof : Substitution) : Prop where
  acyclic : proof.Acyclic
  keeps : proof.Extends s
  derivable : ∀ θ, proof.Respects θ → ∃ n ≤ depth, kb.DerivableIn n (goal.subst θ)

def DerivedSound (kb : Snapshot Time) (st : SearchState) : Prop :=
  ∀ p ∈ st.derived.toList, p.isGround = true ∧ kb.Derivable p

/-- What a search for the goal may end with. -/
def SoundResult (kb : Snapshot Time) (depth : Nat) (goal : Predicate) (s : Substitution)
    (found : SearchResult × SearchState) : Prop :=
  DerivedSound kb found.2 ∧ ∀ proof, found.1 = .proved proof → Justifies kb depth goal s proof

def SoundProver (kb : Snapshot Time) (depth : Nat) (prove : Prover) : Prop :=
  ∀ goal s st, s.Acyclic → DerivedSound kb st → SoundResult kb depth goal s (prove goal s st)

theorem soundResult_of_unproved (h : DerivedSound kb st) {r : SearchResult}
    (hr : ∀ proof, r ≠ .proved proof) : SoundResult kb depth goal s (r, st) :=
  ⟨h, fun proof hproof => absurd hproof (hr proof)⟩

theorem DerivedSound.tried (h : DerivedSound kb st) : DerivedSound kb st.tried := h

theorem DerivedSound.nextGeneration (h : DerivedSound kb st) :
    DerivedSound kb st.nextGeneration := h

theorem DerivedSound.record (h : DerivedSound kb st) {p : Predicate} (hp : kb.Derivable p) :
    DerivedSound kb (st.record p) := by
  rw [SearchState.record]
  split
  next hground =>
    intro q hq
    obtain rfl | hq := OrderedMap.mem_keys_insert.mp hq
    · exact ⟨hground, hp⟩
    · exact h q hq
  next => exact h

theorem Justifies.derivable_apply {proof : Substitution} (h : Justifies kb depth goal s proof) :
    kb.Derivable (proof.apply goal) := by
  obtain ⟨n, -, hn⟩ := h.derivable _ h.acyclic.respects_resolve
  rw [Substitution.apply_eq_subst]
  exact hn.derivable

theorem mem_stored_of_mem_candidates {p : Predicate} (h : p ∈ candidates kb goal) :
    p ∈ kb.stored := by
  rw [candidates] at h
  split at h
  · exact List.mem_append_right _ h
  · exact List.mem_append_left _ h

/-- A matching fact is the goal itself. -/
theorem Justifies.fact {fact : Predicate} {proof : Substitution} (hkb : kb.FactsGround)
    (hs : s.Acyclic) (hfact : fact ∈ kb.stored)
    (hunify : unifyPredicates fact goal s = some proof) : Justifies kb depth goal s proof := by
  obtain ⟨hproof, hext, hresp⟩ := hs.unifyPredicates_some hunify
  refine ⟨hproof, hext, fun θ hθ => ⟨0, Nat.zero_le _, ?_⟩⟩
  have hinstance := ((hresp θ).mp hθ).2
  rw [Predicate.subst_of_isGround (hkb fact hfact)] at hinstance
  exact hinstance ▸ .fact hfact

theorem FactRun.sound {facts : List Predicate} {result : SearchResult}
    (hrun : FactRun limits goal s facts st result st') (hkb : kb.FactsGround) (hs : s.Acyclic)
    (hfacts : ∀ p ∈ facts, p ∈ kb.stored) (hst : DerivedSound kb st) :
    SoundResult kb depth goal s (result, st') := by
  induction hrun with
  | nil | limit => exact soundResult_of_unproved hst nofun
  | mismatch _ _ _ ih => exact ih (fun p hp => hfacts p (.tail _ hp)) hst.tried
  | @matched fact facts st proof _ hunify =>
      refine ⟨hst.tried, fun proof' heq => ?_⟩
      cases heq
      exact .fact hkb hs (hfacts fact (.head _)) hunify

/-- A renamed rule is an instance of the rule, whatever the names are. -/
theorem rename_eq_subst (generation : Nat) (r : Rule) :
    ∃ τ, (r.rename generation).premise = r.premise.subst τ ∧
      (r.rename generation).conclusion = r.conclusion.subst τ :=
  ⟨_, Substitution.apply_eq_subst _ _, Substitution.apply_eq_subst _ _⟩

/-- One rule passes a proof of its premise on to the goal. -/
theorem Justifies.chain {r : Rule} {generation : Nat} {bound proof : Substitution}
    (hr : r ∈ kb.rules) (hs : s.Acyclic)
    (hunify : unifyPredicates (r.rename generation).conclusion goal s = some bound)
    (h : Justifies kb depth (bound.apply (r.rename generation).premise) bound proof) :
    Justifies kb (depth + 1) goal s proof := by
  obtain ⟨-, hext, hresp⟩ := hs.unifyPredicates_some hunify
  obtain ⟨τ, hpremise, hconclusion⟩ := rename_eq_subst generation r
  refine ⟨h.acyclic, h.keeps.trans hext, fun θ hθ => ?_⟩
  have hbound : bound.Respects θ := hθ.of_extends h.keeps
  obtain ⟨n, hn, hderivable⟩ := h.derivable θ hθ
  rw [hbound.subst_apply, hpremise, Predicate.subst_subst] at hderivable
  refine ⟨n + 1, Nat.succ_le_succ hn, ?_⟩
  rw [← ((hresp θ).mp hbound).2, hconclusion, Predicate.subst_subst]
  exact .rule _ hr hderivable

theorem premiseSearch_sound {prove : Prover} {rule : Rule} {bound : Substitution}
    (hprove : SoundProver kb depth prove) (hs : s.Acyclic) (hst : DerivedSound kb st)
    (hunify : unifyPredicates (rule.rename (st.generation + 1)).conclusion goal s = some bound) :
    SoundResult kb depth (bound.apply (rule.rename (st.generation + 1)).premise) bound
      (premiseSearch prove rule bound st) :=
  hprove _ _ _ (hs.unifyPredicates_some hunify).1 hst.tried.nextGeneration

theorem RuleRun.sound {prove : Prover} {rules : List Rule} {cutOff : Bool} {result : SearchResult}
    (hrun : RuleRun limits prove goal s rules cutOff st result st')
    (hprove : SoundProver kb depth prove) (hs : s.Acyclic) (hrules : ∀ r ∈ rules, r ∈ kb.rules)
    (hst : DerivedSound kb st) : SoundResult kb (depth + 1) goal s (result, st') := by
  induction hrun with
  | done | cut | limit => exact soundResult_of_unproved hst nofun
  | mismatch _ _ _ ih =>
      exact ih (fun r hr => hrules r (.tail _ hr)) hst.tried.nextGeneration
  | failed _ hunify hcall _ ih | exhausted _ hunify hcall _ ih =>
      have hfound := premiseSearch_sound hprove hs hst hunify
      rw [hcall] at hfound
      exact ih (fun r hr => hrules r (.tail _ hr)) hfound.1
  | @proved rule _ _ _ _ _ proof _ hunify hcall =>
      have hfound := premiseSearch_sound hprove hs hst hunify
      rw [hcall] at hfound
      have hjust : Justifies kb (depth + 1) goal s proof :=
        .chain (hrules rule (.head _)) hs hunify (hfound.2 proof rfl)
      refine ⟨hfound.1.record hjust.derivable_apply, fun proof' heq => ?_⟩
      cases heq
      exact hjust

theorem factsThen_sound (hkb : kb.FactsGround) {next : Prover} (hnext : SoundProver kb depth next) :
    SoundProver kb depth (factsThen kb limits next) := by
  intro goal s st hs hst
  have hstored : ∀ p ∈ candidates kb goal, p ∈ kb.stored :=
    fun _ hp => mem_stored_of_mem_candidates hp
  obtain ⟨st₁, hrun, heq⟩ | ⟨result, st', hrun, -, heq⟩ := factsThen_cases kb limits next goal s st
  · have hfacts : SoundResult kb depth goal s (.failed, st₁) := hrun.sound hkb hs hstored hst
    rw [heq]
    exact hnext goal s st₁ hs hfacts.1
  · rw [heq]
    exact hrun.sound hkb hs hstored hst

theorem byRules_sound (hkb : kb.FactsGround) (depth : Nat) :
    SoundProver kb depth (byRules kb limits depth) := by
  induction depth with
  | zero => exact fun goal s st _ hst => soundResult_of_unproved hst nofun
  | succ depth ih =>
      exact fun goal s st hs hst =>
        (ruleRun_chainRules _ kb.rules false st).sound (factsThen_sound hkb ih) hs
          (fun r hr => hr) hst

theorem ask_sound (hkb : kb.FactsGround) (limits : Limits) (depth : Nat) :
    SoundProver kb depth (ask kb limits depth) :=
  factsThen_sound hkb (byRules_sound hkb depth)

/-- Without defaults only facts and rules are tried. -/
theorem run_monotonic (kb : Snapshot Time) (limits : Limits) (goal : Predicate) (st : SearchState) :
    (run kb limits false goal st).2 = ask kb limits limits.maxDepth goal ∅ st := by
  cases hfacts : matchFacts limits goal ∅ (candidates kb goal) st with
  | mk result st₁ =>
      cases result with
      | proved | exhausted => simp [run, ask, factsThen, hfacts]
      | failed =>
          cases hrules : byRules kb limits limits.maxDepth goal ∅ st₁ with
          | mk result st₂ => cases result <;> simp [run, ask, factsThen, hfacts, hrules]

end Search

namespace SearchResult

def outcome : SearchResult → Outcome
  | .proved _ => .proved
  | .failed => .notProved
  | .exhausted => .exhausted

def bindings (goal : Predicate) : SearchResult → Substitution
  | .proved proof => answerBindings goal proof
  | _ => ∅

theorem outcome_eq_proved {r : SearchResult} (h : r.outcome = .proved) :
    ∃ proof, r = .proved proof := by
  cases r with
  | proved proof => exact ⟨proof, rfl⟩
  | failed | exhausted => cases h

end SearchResult

/-- The answer from facts and rules, read off the search for the goal. -/
theorem Reasoner.proveMonotonic_answer (r : Reasoner Time) (goal : Predicate) :
    ∃ result st reasoning,
      Search.ask r.kb.snapshot r.config.limits r.config.limits.maxDepth goal ∅
        { generation := r.generation } = (result, st) ∧
      (r.proveMonotonic goal).1 =
        ⟨result.outcome, reasoning, result.bindings goal, st.derived, st.steps⟩ := by
  have hrun := Search.run_monotonic r.kb.snapshot r.config.limits goal
    { generation := r.generation }
  cases hsearch : Search.run r.kb.snapshot r.config.limits false goal
      { generation := r.generation } with
  | mk reasoning found =>
      obtain ⟨result, st⟩ := found
      rw [hsearch] at hrun
      simp only [proveMonotonic, proveWith, Snapshot.prove, hsearch]
      cases result with
      | proved proof => exact ⟨.proved proof, st, reasoning, hrun.symm, rfl⟩
      | failed => exact ⟨.failed, st, .unproved, hrun.symm, rfl⟩
      | exhausted => exact ⟨.exhausted, st, .unproved, hrun.symm, rfl⟩

/-- What a variable is bound to, without following bindings any further. -/
def Substitution.once (s : Substitution) (v : String) : Term := (s.get? v).getD (.var v)

theorem get?_answerBindings {goal : Predicate} {v : String} (hv : v ∈ goal.vars)
    (proof : Substitution) :
    (answerBindings goal proof).get? v = some (proof.applyTerm (.var v)) := by
  rw [answerBindings, OrderedMap.get?_ofList_map, if_pos hv]

theorem subst_answerBindings (goal : Predicate) (proof : Substitution) :
    goal.subst (answerBindings goal proof).once = goal.subst (proof.resolve proof.size) := by
  refine Predicate.subst_congr fun v hv => ?_
  rw [Substitution.once, get?_answerBindings hv]
  rfl

/-- An answer from facts and rules binds every variable of a proved goal, and every
instance of the goal under these bindings is derivable. So is all that the answer
lists as derived, whatever its outcome. -/
theorem Reasoner.proveMonotonic_sound (r : Reasoner Time) (hr : r.kb.Reachable) (goal : Predicate) :
    let answer := (r.proveMonotonic goal).1
    (answer.outcome = .proved →
      (∀ v ∈ goal.vars, ∃ t, answer.bindings.get? v = some t) ∧
      ∀ θ, r.kb.snapshot.Derivable ((goal.subst answer.bindings.once).subst θ)) ∧
    ∀ p ∈ answer.derived.toList, p.isGround = true ∧ r.kb.snapshot.Derivable p := by
  intro answer
  obtain ⟨result, st, reasoning, hask, hanswer⟩ := r.proveMonotonic_answer goal
  have hsound := Search.ask_sound hr.placed.factsGround r.config.limits
    r.config.limits.maxDepth goal ∅ { generation := r.generation }
    Substitution.acyclic_empty nofun
  rw [hask] at hsound
  obtain ⟨hderived, hproof⟩ := hsound
  simp only [answer, hanswer]
  refine ⟨fun hproved => ?_, hderived⟩
  obtain ⟨proof, rfl⟩ := SearchResult.outcome_eq_proved hproved
  refine ⟨fun v hv => ⟨_, get?_answerBindings hv proof⟩, fun θ => ?_⟩
  have hjust := hproof proof rfl
  obtain ⟨n, -, hn⟩ := hjust.derivable _ (hjust.acyclic.respects θ)
  rw [SearchResult.bindings, subst_answerBindings, Predicate.subst_subst]
  exact hn.derivable

/-- The second argument of the conclusion is open, so the answer leaves it open. -/
theorem Reasoner.proveMonotonic_sound_open_answer :
    let r : Reasoner Nat := [.addFact ⟨"Wrote", [.const "Ann", .const "Memo"]⟩,
      .addRule ⟨⟨"Wrote", [.var "x", .var "y"]⟩, ⟨"Owns", [.app "copy" [.var "y"], .var "z"]⟩⟩
      ].foldl serve {}
    let goal : Predicate := ⟨"Owns", [.var "y", .var "x"]⟩
    (r.proveMonotonic goal).1.outcome = .proved ∧
      r.kb.snapshot.Derivable ⟨"Owns", [.app "copy" [.const "Memo"], .const "Bob"]⟩ := by
  intro r goal
  have hr : r.kb.Reachable := KnowledgeBase.Reachable.empty.foldl_serve _
  have hproved : (r.proveMonotonic goal).1.outcome = .proved := by decide
  have hinstance : (goal.subst (r.proveMonotonic goal).1.bindings.once).subst
      (fun _ => .const "Bob") = ⟨"Owns", [.app "copy" [.const "Memo"], .const "Bob"]⟩ := by decide
  have hderivable := ((r.proveMonotonic_sound hr goal).1 hproved).2 fun _ => .const "Bob"
  rw [hinstance] at hderivable
  exact ⟨hproved, hderivable⟩

end Defeasible
