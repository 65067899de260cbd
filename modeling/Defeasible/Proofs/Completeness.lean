import Defeasible.Proofs.Freshness
import Defeasible.Proofs.Soundness

/-!
Completeness of backward chaining. A failed search leaves no derivation of any
length, and a search that was cut off by the depth alone leaves none up to that
depth. Every derivation of an instance of the goal ends with a stored fact or with
a rule; in the second case the renamed rule matches the goal, since its variables
are new, and the derivation of the premise is one that the search for the premise
would have left out.
-/

namespace Defeasible

variable {Time : Type}
namespace Search

variable {kb : Snapshot Time} {limits : Limits} {depth n : Nat} {goal : Predicate}
  {s : Substitution} {st st' : SearchState}

/-- The result excludes derivations of the given length: a failure those of every
length, and an exhausted search with steps to spare those within its depth. -/
def Excludes (limits : Limits) (depth n : Nat) : SearchResult × SearchState → Prop
  | (.proved _, _) => False
  | (.failed, _) => True
  | (.exhausted, st) => st.steps < limits.maxSteps ∧ n ≤ depth

/-- No assignment that respects the substitution makes the goal derivable in the
given number of rule applications. -/
def Underivable (kb : Snapshot Time) (goal : Predicate) (s : Substitution) (n : Nat) : Prop :=
  ∀ θ, s.Respects θ → ¬ kb.DerivableIn n (goal.subst θ)

/-- What the search does not find by at least `least` rule applications is not there. -/
def CompleteProver (kb : Snapshot Time) (limits : Limits) (least depth : Nat) (prove : Prover) :
    Prop :=
  ∀ goal s st, s.Acyclic → Scoped st.generation goal s →
    Forward st (prove goal s st).2 ∧
      ∀ n, least ≤ n → Excludes limits depth n (prove goal s st) → Underivable kb goal s n

section FactRun

variable {facts : List Predicate} {result : SearchResult}

theorem FactRun.maxSteps_le (hrun : FactRun limits goal s facts st result st')
    (h : result = .exhausted) : limits.maxSteps ≤ st'.steps := by
  induction hrun with
  | nil | matched => cases h
  | limit hlimit => exact hlimit
  | mismatch _ _ _ ih => exact ih h

theorem FactRun.subst_ne (hrun : FactRun limits goal s facts st result st')
    (h : result = .failed) (hs : s.Acyclic) :
    ∀ fact ∈ facts, ∀ θ, s.Respects θ → fact.subst θ ≠ goal.subst θ := by
  induction hrun with
  | nil => exact List.forall_mem_nil _
  | limit | matched => cases h
  | mismatch _ hunify _ ih =>
      intro fact hfact θ hθ
      obtain rfl | hfact := List.mem_cons.mp hfact
      · exact hs.unifyPredicates_none hunify hθ
      · exact ih h fact hfact θ hθ

end FactRun

theorem mem_candidates (hkb : kb.KindsApart) {p : Predicate} (hp : p ∈ kb.stored)
    (hkind : p.isTimed = goal.isTimed) : p ∈ candidates kb goal := by
  rw [candidates, ← hkind]
  obtain hp | hp := List.mem_append.mp hp
  · rw [if_neg (Bool.not_eq_true _ ▸ hkb.1 p hp)]
    exact hp
  · rw [if_pos (hkb.2 p hp)]
    exact hp

/-- A goal that no candidate matches has no stored instance. -/
theorem underivable_zero (hground : kb.FactsGround) (hkinds : kb.KindsApart)
    (h : ∀ fact ∈ candidates kb goal, ∀ θ, s.Respects θ → fact.subst θ ≠ goal.subst θ) :
    Underivable kb goal s 0 := by
  intro θ hθ hderivable
  have hstored := Snapshot.derivableIn_zero hderivable
  refine h _ (mem_candidates hkinds hstored rfl) θ hθ ?_
  exact Predicate.subst_of_isGround (hground _ hstored) θ

theorem factsThen_complete (hground : kb.FactsGround) (hkinds : kb.KindsApart) {next : Prover}
    (hnext : CompleteProver kb limits 1 depth next) :
    CompleteProver kb limits 0 depth (factsThen kb limits next) := by
  intro goal s st hs hscope
  obtain ⟨st₁, hrun, heq⟩ | ⟨result, st', hrun, hne, heq⟩ :=
    factsThen_cases kb limits next goal s st
  · obtain ⟨hforward, hexcluded⟩ := hnext goal s st₁ hs (hscope.mono hrun.forward.generation)
    rw [heq]
    refine ⟨hrun.forward.trans hforward, fun n _ hexcludes => ?_⟩
    cases n with
    | zero => exact underivable_zero hground hkinds (hrun.subst_ne rfl hs)
    | succ n => exact hexcluded (n + 1) (Nat.succ_pos n) hexcludes
  · rw [heq]
    refine ⟨hrun.forward, fun n _ hexcludes => ?_⟩
    cases result with
    | proved => exact hexcludes.elim
    | failed => exact absurd rfl hne
    | exhausted => exact absurd hexcludes.1 (Nat.not_lt_of_le (hrun.maxSteps_le rfl))

/-- No derivation of the given length concludes an instance of the goal by the rule. -/
def NoChain (kb : Snapshot Time) (goal : Predicate) (s : Substitution) (n : Nat) (r : Rule) :
    Prop :=
  ∀ θ σ, s.Respects θ → r.conclusion.subst σ = goal.subst θ →
    ¬ kb.DerivableIn n (r.premise.subst σ)

section Rule

variable {r : Rule} {g : Nat} {bound : Substitution}

theorem noChain_of_unify_none (hs : s.Acyclic) (hscope : Scoped g goal s) (hr : r.Plain)
    (hunify : unifyPredicates (r.rename (g + 1)).conclusion goal s = none) (n : Nat) :
    NoChain kb goal s n r := by
  intro θ σ hθ hmatch _
  obtain ⟨τ, hτ, hconclusion, -⟩ := hscope.lift hr hθ hmatch
  exact hs.unifyPredicates_none hunify hτ hconclusion

theorem noChain_of_underivable (hs : s.Acyclic) (hscope : Scoped g goal s) (hr : r.Plain)
    (hunify : unifyPredicates (r.rename (g + 1)).conclusion goal s = some bound)
    (h : Underivable kb (bound.apply (r.rename (g + 1)).premise) bound n) :
    NoChain kb goal s n r := by
  intro θ σ hθ hmatch hderivable
  obtain ⟨τ, hτ, hconclusion, hpremise, -⟩ := hscope.lift hr hθ hmatch
  have hbound : bound.Respects τ := ((hs.unifyPredicates_some hunify).2.2 τ).mpr ⟨hτ, hconclusion⟩
  refine h τ hbound ?_
  rw [hbound.subst_apply, hpremise]
  exact hderivable

end Rule

theorem Excludes.of_not_failed {found : SearchResult × SearchState}
    (h : Excludes limits depth n found) (hfound : found.1 ≠ .failed) :
    found.2.steps < limits.maxSteps ∧ n ≤ depth := by
  obtain ⟨result, st⟩ := found
  cases result with
  | proved => cases h
  | failed => exact absurd rfl hfound
  | exhausted => exact h

/-- What trying the rules in turn leaves out. The flag tells of an earlier cut-off. -/
structure Tried (kb : Snapshot Time) (limits : Limits) (depth : Nat) (goal : Predicate)
    (s : Substitution) (rules : List Rule) (cutOff : Bool) (st : SearchState)
    (found : SearchResult × SearchState) : Prop where
  forward : Forward st found.2
  cut : cutOff = true → found.1 ≠ .failed
  excluded : ∀ n, Excludes limits (depth + 1) (n + 1) found → ∀ r ∈ rules, NoChain kb goal s n r

section Tried

variable {rule : Rule} {rules : List Rule} {cutOff : Bool} {found : SearchResult × SearchState}

theorem Tried.cons (hforward : Forward st st')
    (hrule : ∀ n, Excludes limits (depth + 1) (n + 1) found → NoChain kb goal s n rule)
    (hrest : Tried kb limits depth goal s rules cutOff st' found) :
    Tried kb limits depth goal s (rule :: rules) cutOff st found := by
  refine ⟨hforward.trans hrest.forward, hrest.cut, fun n hexcludes r hr => ?_⟩
  obtain rfl | hr := List.mem_cons.mp hr
  · exact hrule n hexcludes
  · exact hrest.excluded n hexcludes r hr

/-- After a cut-off the result is no failure, so it excludes only what the search
that was cut off excludes as well. -/
theorem Tried.cons_cutOff (hforward : Forward st st')
    (hrule : ∀ n, Excludes limits depth n (.exhausted, st') → NoChain kb goal s n rule)
    (hrest : Tried kb limits depth goal s rules true st' found) :
    Tried kb limits depth goal s (rule :: rules) cutOff st found := by
  refine ⟨hforward.trans hrest.forward, fun _ => hrest.cut rfl, fun n hexcludes r hr => ?_⟩
  obtain rfl | hr := List.mem_cons.mp hr
  · obtain ⟨hsteps, hdepth⟩ := hexcludes.of_not_failed (hrest.cut rfl)
    exact hrule n ⟨Nat.lt_of_le_of_lt hrest.forward.steps hsteps, Nat.le_of_succ_le_succ hdepth⟩
  · exact hrest.excluded n hexcludes r hr

end Tried

/-- What the search for the premise excludes is excluded for the rule. -/
theorem premiseSearch_complete {prove : Prover} {rule : Rule} {bound : Substitution}
    {result : SearchResult} (hprove : CompleteProver kb limits 0 depth prove) (hs : s.Acyclic)
    (hrule : rule.Plain) (hscope : Scoped st.generation goal s)
    (hunify : unifyPredicates (rule.rename (st.generation + 1)).conclusion goal s = some bound)
    (hcall : premiseSearch prove rule bound st = (result, st')) :
    Forward st st' ∧
      ∀ n, Excludes limits depth n (result, st') → NoChain kb goal s n rule := by
  have hfound := hprove (bound.apply (rule.rename (st.generation + 1)).premise) bound
    st.tried.nextGeneration (hs.unifyPredicates_some hunify).1 (hscope.chain hrule hs hunify)
  rw [premiseSearch] at hcall
  rw [hcall] at hfound
  refine ⟨(forward_ruleTried st).trans hfound.1, fun n hexcludes => ?_⟩
  exact noChain_of_underivable hs hscope hrule hunify (hfound.2 n (Nat.zero_le n) hexcludes)

theorem RuleRun.tried {prove : Prover} {rules : List Rule} {cutOff : Bool} {result : SearchResult}
    (hrun : RuleRun limits prove goal s rules cutOff st result st')
    (hprove : CompleteProver kb limits 0 depth prove) (hs : s.Acyclic)
    (hrules : ∀ r ∈ rules, r.Plain) (hscope : Scoped st.generation goal s) :
    Tried kb limits depth goal s rules cutOff st (result, st') := by
  induction hrun with
  | done st =>
      refine ⟨.refl st, fun hcut => ?_, fun _ _ => List.forall_mem_nil _⟩
      cases hcut
  | cut st =>
      refine ⟨.refl st, fun _ h => ?_, fun _ _ => List.forall_mem_nil _⟩
      cases h
  | limit hlimit =>
      refine ⟨.refl _, fun _ h => ?_, fun n hexcludes => ?_⟩
      · cases h
      · exact absurd hexcludes.1 (Nat.not_lt_of_le hlimit)
  | mismatch _ hunify _ ih =>
      have hrest := ih (fun r hr => hrules r (.tail _ hr))
        (hscope.mono (forward_ruleTried _).generation)
      refine hrest.cons (forward_ruleTried _) fun n _ => ?_
      exact noChain_of_unify_none hs hscope (hrules _ (.head _)) hunify n
  | proved _ hunify hcall =>
      obtain ⟨hforward, -⟩ :=
        premiseSearch_complete hprove hs (hrules _ (.head _)) hscope hunify hcall
      refine ⟨hforward.trans (forward_record _ _), fun _ h => ?_, fun _ => False.elim⟩
      cases h
  | failed _ hunify hcall _ ih =>
      obtain ⟨hforward, hhead⟩ :=
        premiseSearch_complete hprove hs (hrules _ (.head _)) hscope hunify hcall
      have hrest := ih (fun r hr => hrules r (.tail _ hr)) (hscope.mono hforward.generation)
      exact hrest.cons hforward fun n _ => hhead n trivial
  | exhausted _ hunify hcall _ ih =>
      obtain ⟨hforward, hhead⟩ :=
        premiseSearch_complete hprove hs (hrules _ (.head _)) hscope hunify hcall
      have hrest := ih (fun r hr => hrules r (.tail _ hr)) (hscope.mono hforward.generation)
      exact hrest.cons_cutOff hforward hhead

theorem byRules_complete (hground : kb.FactsGround) (hkinds : kb.KindsApart)
    (hrules : ∀ r ∈ kb.rules, r.Plain) (limits : Limits) (depth : Nat) :
    CompleteProver kb limits 1 depth (byRules kb limits depth) := by
  induction depth with
  | zero =>
      refine fun goal s st _ _ => ⟨.refl st, fun n hn hexcludes => ?_⟩
      have hzero := hexcludes.2
      omega
  | succ depth ih =>
      intro goal s st hs hscope
      have htried := (ruleRun_chainRules _ kb.rules false st).tried
        (factsThen_complete hground hkinds ih) hs hrules hscope
      refine ⟨htried.forward, fun n hn hexcludes θ hθ hderivable => ?_⟩
      obtain ⟨m, rfl⟩ := Nat.exists_eq_succ_of_ne_zero (Nat.ne_of_gt hn)
      obtain ⟨r, hr, σ, hmatch, hpremise⟩ := Snapshot.derivableIn_succ hderivable
      exact htried.excluded m hexcludes r hr θ σ hθ hmatch hpremise

theorem ask_complete (hground : kb.FactsGround) (hkinds : kb.KindsApart)
    (hrules : ∀ r ∈ kb.rules, r.Plain) (limits : Limits) (depth : Nat) :
    CompleteProver kb limits 0 depth (ask kb limits depth) :=
  factsThen_complete hground hkinds (byRules_complete hground hkinds hrules limits depth)

end Search

/-- An unproved goal has no derivable instance, and an answer that did not use up
its steps is positive exactly if some instance is derivable within the depth. -/
theorem Reasoner.proveMonotonic_complete (r : Reasoner Time) (hr : r.kb.Reachable)
    (hrules : ∀ rule ∈ r.kb.rules, rule.Plain) (goal : Predicate) (hgoal : goal.Plain) :
    let answer := (r.proveMonotonic goal).1
    (answer.outcome = .notProved → ∀ θ, ¬ r.kb.snapshot.Derivable (goal.subst θ)) ∧
    (answer.steps < r.config.limits.maxSteps →
      (answer.outcome = .proved ↔
        ∃ θ, ∃ n ≤ r.config.limits.maxDepth, r.kb.snapshot.DerivableIn n (goal.subst θ))) := by
  intro answer
  obtain ⟨result, st, reasoning, hask, hanswer⟩ := r.proveMonotonic_answer goal
  have hground := hr.placed.factsGround
  have hsound := Search.ask_sound hground r.config.limits r.config.limits.maxDepth goal
    ∅ { generation := r.generation } Substitution.acyclic_empty nofun
  have hcomplete := Search.ask_complete hground hr.placed.kindsApart hrules r.config.limits
    r.config.limits.maxDepth goal ∅ { generation := r.generation } Substitution.acyclic_empty
    (hgoal.scoped _)
  rw [hask] at hsound hcomplete
  have hexcluded := fun n => hcomplete.2 n (Nat.zero_le n)
  simp only [answer, hanswer]
  cases result with
  | proved proof =>
      refine ⟨nofun, fun _ => iff_of_true rfl ?_⟩
      have hjust := hsound.2 proof rfl
      exact ⟨_, hjust.derivable _ hjust.acyclic.respects_resolve⟩
  | failed =>
      have hnone : ∀ n θ, ¬ r.kb.snapshot.DerivableIn n (goal.subst θ) :=
        fun n θ => hexcluded n trivial θ (Substitution.respects_empty θ)
      refine ⟨fun _ θ hderivable => ?_, fun _ => iff_of_false nofun ?_⟩
      · obtain ⟨n, hn⟩ := hderivable.exists_derivableIn
        exact hnone n θ hn
      · rintro ⟨θ, n, -, hn⟩
        exact hnone n θ hn
  | exhausted =>
      refine ⟨nofun, fun hsteps => iff_of_false nofun ?_⟩
      rintro ⟨θ, n, hdepth, hn⟩
      exact hexcluded n ⟨hsteps, hdepth⟩ θ (Substitution.respects_empty θ) hn

/-- A rule that applies to its own conclusion. It is used twice for the open goal,
and for the closed one it does not match. -/
theorem Reasoner.proveMonotonic_complete_on_recursion :
    let r : Reasoner Nat := [.addFact ⟨"Even", [.const "Zero"]⟩,
      .addRule ⟨⟨"Even", [.var "x"]⟩, ⟨"Even", [.app "s" [.app "s" [.var "x"]]]⟩⟩].foldl serve
        { config := { limits := { maxDepth := 2, maxSteps := 9 } } }
    let even : Predicate := ⟨"Even", [.app "s" [.app "s" [.app "s" [.var "x"]]]]⟩
    let odd : Predicate := ⟨"Even", [.app "s" [.const "Zero"]]⟩
    (∃ θ, ∃ n ≤ 2, r.kb.snapshot.DerivableIn n (even.subst θ)) ∧
      ∀ θ, ¬ r.kb.snapshot.Derivable (odd.subst θ) := by
  intro r even odd
  have hr : r.kb.Reachable := KnowledgeBase.Reachable.empty.foldl_serve _
  have hrules : ∀ rule ∈ r.kb.rules, rule.Plain := by decide
  have heven := (r.proveMonotonic_complete hr hrules even (by decide)).2 (by decide)
  have hodd := (r.proveMonotonic_complete hr hrules odd (by decide)).1
  exact ⟨heven.mp (by decide), hodd (by decide)⟩

end Defeasible
