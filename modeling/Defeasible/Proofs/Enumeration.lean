import Defeasible.Proofs.Completeness
import Defeasible.Proofs.SolutionRuns

/-!
Enumerating all proofs of a goal. Each proof found makes the goal derivable under
every assignment that respects it, and an enumeration that was not cut off loses no
derivation: for every derivable instance of the goal some proof found is respected by
an assignment that agrees with the instance on all variables older than the search.
-/

namespace Defeasible

variable {Time : Type}
namespace Search

variable {kb : Snapshot Time} {limits : Limits} {depth : Nat} {goal : Predicate} {s : Substitution}
  {st st' : SearchState}

section Sound

def SoundSolver (kb : Snapshot Time) (depth : Nat) (solve : Solver) : Prop :=
  ∀ goal s st, s.Acyclic → ∀ proof ∈ (solve goal s st).1.found, Justifies kb depth goal s proof

theorem FactCollection.sound {facts : List Predicate} {out : Solutions}
    (hrun : FactCollection limits goal s facts st out st') (hkb : kb.FactsGround) (hs : s.Acyclic)
    (hfacts : ∀ p ∈ facts, p ∈ kb.stored) :
    ∀ proof ∈ out.found, Justifies kb depth goal s proof := by
  induction hrun with
  | nil | limit => exact List.forall_mem_nil _
  | matched _ hunify _ ih =>
      rw [List.forall_mem_cons] at hfacts ⊢
      exact ⟨.fact hkb hs hfacts.1 hunify, ih hfacts.2⟩
  | mismatch _ _ _ ih => exact ih (List.forall_mem_cons.mp hfacts).2

theorem RuleCollection.sound {solve : Solver} {rules : List Rule} {out : Solutions}
    (hrun : RuleCollection limits solve goal s rules st out st')
    (hsolve : SoundSolver kb depth solve) (hs : s.Acyclic) (hrules : ∀ r ∈ rules, r ∈ kb.rules) :
    ∀ proof ∈ out.found, Justifies kb (depth + 1) goal s proof := by
  induction hrun with
  | nil | limit => exact List.forall_mem_nil _
  | mismatch _ _ _ ih => exact ih (List.forall_mem_cons.mp hrules).2
  | @solved rule _ st _ _ bound inner _ _ hunify hcall _ ih =>
      rw [List.forall_mem_cons] at hrules
      refine List.forall_mem_append.mpr ⟨fun proof hproof => ?_, ih hrules.2⟩
      have hinner : proof ∈ (premiseSolutions solve rule bound st).1.found := by
        rw [hcall]
        exact hproof
      exact .chain hrules.1 hs hunify
        (hsolve _ _ _ (hs.unifyPredicates_some hunify).1 proof hinner)

theorem factsAnd_sound (hkb : kb.FactsGround) {next : Solver} (hnext : SoundSolver kb depth next) :
    SoundSolver kb depth (factsAnd kb limits next) := by
  intro goal s st hs
  have hstored : ∀ p ∈ candidates kb goal, p ∈ kb.stored :=
    fun _ hp => mem_stored_of_mem_candidates hp
  obtain ⟨found, st', hrun, heq⟩ | ⟨found, st₁, hrun, heq⟩ :=
    factsAnd_cases kb limits next goal s st
  · rw [heq]
    exact hrun.sound hkb hs hstored
  · rw [heq, List.forall_mem_append]
    exact ⟨hrun.sound hkb hs hstored, hnext goal s st₁ hs⟩

theorem solveByRules_sound (hkb : kb.FactsGround) (limits : Limits) (depth : Nat) :
    SoundSolver kb depth (solveByRules kb limits depth) := by
  induction depth with
  | zero => exact fun _ _ _ _ => List.forall_mem_nil _
  | succ depth ih =>
      exact fun goal s st hs =>
        (ruleCollection_chainAll _ kb.rules st).sound (factsAnd_sound hkb ih) hs fun r hr => hr

theorem solve_sound (hkb : kb.FactsGround) (limits : Limits) (depth : Nat) :
    SoundSolver kb depth (solve kb limits depth) :=
  factsAnd_sound hkb (solveByRules_sound hkb limits depth)

end Sound

/-- Some assignment respects the proof and agrees on the older variables. -/
def Covers (generation : Nat) (θ : String → Term) (proof : Substitution) : Prop :=
  ∃ τ, proof.Respects τ ∧ ∀ v, Older generation v → τ v = θ v

theorem Covers.mono {g k : Nat} {θ : String → Term} {proof : Substitution}
    (h : Covers k θ proof) (hk : g ≤ k) : Covers g θ proof := by
  obtain ⟨τ, hτ, hagree⟩ := h
  exact ⟨τ, hτ, fun v hv => hagree v (hv.mono hk)⟩

/-- What an enumeration of the proofs of a goal comes to. The proofs mention no
generation that is still to come, and without a cut-off they cover each derivation by
at least `least` rule applications. -/
structure Enumerates (kb : Snapshot Time) (least : Nat) (goal : Predicate) (s : Substitution)
    (st : SearchState) (out : Solutions × SearchState) : Prop where
  forward : Forward st out.2
  within : ∀ proof ∈ out.1.found, proof.Within (Term.Older out.2.generation)
  covered : out.1.cutOff = false → ∀ n, least ≤ n → ∀ θ, s.Respects θ →
    kb.DerivableIn n (goal.subst θ) → ∃ proof ∈ out.1.found, Covers st.generation θ proof

def CompleteSolver (kb : Snapshot Time) (least : Nat) (solve : Solver) : Prop :=
  ∀ goal s st, s.Acyclic → Scoped st.generation goal s →
    Enumerates kb least goal s st (solve goal s st)

section Facts

variable {facts : List Predicate} {out : Solutions}

theorem FactCollection.within (hrun : FactCollection limits goal s facts st out st') {g : Nat}
    (hs : s.Acyclic) (hscope : Scoped g goal s) (hground : ∀ p ∈ facts, p.isGround = true) :
    ∀ proof ∈ out.found, proof.Within (Term.Older g) := by
  induction hrun with
  | nil | limit => exact List.forall_mem_nil _
  | matched _ hunify _ ih =>
      rw [List.forall_mem_cons] at hground ⊢
      refine ⟨?_, ih hground.2⟩
      refine hs.unifyPredicates_within (argumentClosed_older g) hscope.bindings ?_ ?_ hunify
      · intro a ha v hv
        exact absurd (Predicate.mem_vars_of_mem_args ha hv) (Predicate.isGround_iff.mp hground.1 v)
      · exact fun a ha v hv => hscope.goal v (Predicate.mem_vars_of_mem_args ha hv)
  | mismatch _ _ _ ih => exact ih (List.forall_mem_cons.mp hground).2

theorem FactCollection.exists_respects (hrun : FactCollection limits goal s facts st out st')
    (hs : s.Acyclic) (hcut : out.cutOff = false) {θ : String → Term} (hθ : s.Respects θ)
    {fact : Predicate} (hfact : fact ∈ facts) (hmatch : fact.subst θ = goal.subst θ) :
    ∃ proof ∈ out.found, proof.Respects θ := by
  induction hrun with
  | nil => cases hfact
  | limit => cases hcut
  | matched _ hunify _ ih =>
      obtain rfl | hfact := List.mem_cons.mp hfact
      · exact ⟨_, .head _, ((hs.unifyPredicates_some hunify).2.2 θ).mpr ⟨hθ, hmatch⟩⟩
      · obtain ⟨proof, hproof, hresp⟩ := ih hcut hfact
        exact ⟨proof, .tail _ hproof, hresp⟩
  | mismatch _ hunify _ ih =>
      obtain rfl | hfact := List.mem_cons.mp hfact
      · exact absurd hmatch (hs.unifyPredicates_none hunify hθ)
      · exact ih hcut hfact

end Facts

theorem factsAnd_complete (hground : kb.FactsGround) (hkinds : kb.KindsApart) (limits : Limits)
    {next : Solver} (hnext : CompleteSolver kb 1 next) :
    CompleteSolver kb 0 (factsAnd kb limits next) := by
  intro goal s st hs hscope
  have hcandidates : ∀ p ∈ candidates kb goal, p.isGround = true :=
    fun p hp => hground p (mem_stored_of_mem_candidates hp)
  obtain ⟨found, st', hrun, heq⟩ | ⟨found, st₁, hrun, heq⟩ :=
    factsAnd_cases kb limits next goal s st
  · rw [heq]
    exact ⟨hrun.forward, hrun.within hs (hscope.mono hrun.forward.generation) hcandidates, nofun⟩
  · obtain ⟨hforward, hwithin, hcovered⟩ :=
      hnext goal s st₁ hs (hscope.mono hrun.forward.generation)
    rw [heq]
    have htotal := hrun.forward.trans hforward
    refine ⟨htotal, ?_, fun hcut n _ θ hθ hderivable => ?_⟩
    · rw [List.forall_mem_append]
      exact ⟨hrun.within hs (hscope.mono htotal.generation) hcandidates, hwithin⟩
    · cases n with
      | zero =>
          have hstored := Snapshot.derivableIn_zero hderivable
          obtain ⟨proof, hproof, hresp⟩ := hrun.exists_respects hs rfl hθ
            (mem_candidates hkinds hstored rfl) (Predicate.subst_of_isGround (hground _ hstored) θ)
          exact ⟨proof, List.mem_append_left _ hproof, θ, hresp, fun _ _ => rfl⟩
      | succ n =>
          obtain ⟨proof, hproof, hcovers⟩ := hcovered hcut (n + 1) (Nat.succ_pos n) θ hθ hderivable
          exact ⟨proof, List.mem_append_right _ hproof, hcovers.mono hrun.forward.generation⟩

/-- The proofs of the premise of a renamed rule cover every derivation by the rule. The
variables of the renamed rule are among those on which they agree with it. -/
theorem premise_covered {solve : Solver} {r : Rule} {bound : Substitution} {g n : Nat}
    {θ σ : String → Term} (hsolve : CompleteSolver kb 0 solve) (hs : s.Acyclic)
    (hscope : Scoped g goal s) (hr : r.Plain)
    (hunify : unifyPredicates (r.rename (g + 1)).conclusion goal s = some bound)
    (st : SearchState) (hst : st.generation = g + 1)
    (hcut : (solve (bound.apply (r.rename (g + 1)).premise) bound st).1.cutOff = false)
    (hθ : s.Respects θ) (hmatch : r.conclusion.subst σ = goal.subst θ)
    (hderivable : kb.DerivableIn n (r.premise.subst σ)) :
    ∃ proof ∈ (solve (bound.apply (r.rename (g + 1)).premise) bound st).1.found,
      ∃ τ, proof.Respects τ ∧ (∀ v, Older g v → τ v = θ v) ∧
        (r.rename (g + 1)).premise.subst τ = r.premise.subst σ := by
  obtain ⟨τ, hτ, hconclusion, hpremise, hagree⟩ := hscope.lift hr hθ hmatch
  obtain ⟨hacyclic, -, hresp⟩ := hs.unifyPredicates_some hunify
  have hbound : bound.Respects τ := (hresp τ).mpr ⟨hτ, hconclusion⟩
  have hscope' : Scoped st.generation (bound.apply (r.rename (g + 1)).premise) bound := by
    rw [hst]
    exact hscope.chain hr hs hunify
  have hderivable' : kb.DerivableIn n ((bound.apply (r.rename (g + 1)).premise).subst τ) := by
    rw [hbound.subst_apply, hpremise]
    exact hderivable
  obtain ⟨proof, hproof, ρ, hρ, holder⟩ :=
    (hsolve _ bound st hacyclic hscope').covered hcut n (Nat.zero_le n) τ hbound hderivable'
  rw [hst] at holder
  refine ⟨proof, hproof, ρ, hρ, fun v hv => ?_, ?_⟩
  · rw [holder v (hv.mono (Nat.le_succ g)), hagree v hv]
  · rw [← hpremise]
    refine Predicate.subst_congr fun v hv => holder v ?_
    rw [(hr.rename (g + 1)).1] at hv
    exact older_subst_freshName hv

/-- The proofs cover every derivation of an instance of the goal that ends with the rule. -/
def CoversRule (kb : Snapshot Time) (generation : Nat) (goal : Predicate) (s : Substitution)
    (found : List Substitution) (r : Rule) : Prop :=
  ∀ n θ σ, s.Respects θ → r.conclusion.subst σ = goal.subst θ →
    kb.DerivableIn n (r.premise.subst σ) → ∃ proof ∈ found, Covers generation θ proof

/-- What collecting the proofs by the rules in turn comes to. -/
structure Collects (kb : Snapshot Time) (goal : Predicate) (s : Substitution) (rules : List Rule)
    (st : SearchState) (out : Solutions × SearchState) : Prop where
  forward : Forward st out.2
  within : ∀ proof ∈ out.1.found, proof.Within (Term.Older out.2.generation)
  covered : out.1.cutOff = false →
    ∀ r ∈ rules, CoversRule kb st.generation goal s out.1.found r

/-- One rule adds its proofs to those of the rest. A rule that does not match adds none. -/
theorem Collects.cons {rule : Rule} {rules : List Rule} (inner : Solutions) {rest : Solutions}
    {st₁ : SearchState} (hstep : Forward st st₁)
    (hwithin : ∀ proof ∈ inner.found, proof.Within (Term.Older st₁.generation))
    (hrule : inner.cutOff = false → CoversRule kb st.generation goal s inner.found rule)
    (hrest : Collects kb goal s rules st₁ (rest, st')) :
    Collects kb goal s (rule :: rules) st
      (⟨inner.found ++ rest.found, inner.cutOff || rest.cutOff⟩, st') := by
  refine ⟨hstep.trans hrest.forward, List.forall_mem_append.mpr ⟨?_, hrest.within⟩, ?_⟩
  · exact fun proof hproof => (hwithin proof hproof).older_mono hrest.forward.generation
  · intro hcut r hr n θ σ hθ hmatch hderivable
    obtain ⟨hinner, hlater⟩ := Bool.or_eq_false_iff.mp hcut
    obtain rfl | hr := List.mem_cons.mp hr
    · obtain ⟨proof, hproof, hcovers⟩ := hrule hinner n θ σ hθ hmatch hderivable
      exact ⟨proof, List.mem_append_left _ hproof, hcovers⟩
    · obtain ⟨proof, hproof, hcovers⟩ := hrest.covered hlater r hr n θ σ hθ hmatch hderivable
      exact ⟨proof, List.mem_append_right _ hproof, hcovers.mono hstep.generation⟩

theorem RuleCollection.collects {solve : Solver} {rules : List Rule} {out : Solutions}
    (hrun : RuleCollection limits solve goal s rules st out st')
    (hsolve : CompleteSolver kb 0 solve) (hs : s.Acyclic) (hrules : ∀ r ∈ rules, r.Plain)
    (hscope : Scoped st.generation goal s) : Collects kb goal s rules st (out, st') := by
  induction hrun with
  | nil st => exact ⟨.refl st, List.forall_mem_nil _, fun _ => List.forall_mem_nil _⟩
  | limit => exact ⟨.refl _, List.forall_mem_nil _, nofun⟩
  | @mismatch rule rules st st' rest _ hunify _ ih =>
      rw [List.forall_mem_cons] at hrules
      have hstep := forward_ruleTried st
      have hnone : CoversRule kb st.generation goal s [] rule := fun n θ σ hθ hmatch hderivable =>
        (noChain_of_unify_none hs hscope hrules.1 hunify n θ σ hθ hmatch hderivable).elim
      exact Collects.cons ⟨[], false⟩ hstep (List.forall_mem_nil _) (fun _ => hnone)
        (ih hrules.2 (hscope.mono hstep.generation))
  | @solved rule rules st st₁ st' bound inner rest _ hunify hcall _ ih =>
      rw [List.forall_mem_cons] at hrules
      have hinner := hsolve _ bound st.tried.nextGeneration (hs.unifyPredicates_some hunify).1
        (hscope.chain hrules.1 hs hunify)
      have hpremise := fun n θ σ => premise_covered (n := n) (θ := θ) (σ := σ) hsolve hs hscope
        hrules.1 hunify st.tried.nextGeneration rfl
      rw [premiseSolutions] at hcall
      rw [hcall] at hinner hpremise
      have hrecord := forward_recordAll goal inner.found st₁
      have hstep := ((forward_ruleTried st).trans hinner.forward).trans hrecord
      refine Collects.cons inner hstep (fun proof hproof => ?_)
        (fun hcut n θ σ hθ hmatch hderivable => ?_) (ih hrules.2 (hscope.mono hstep.generation))
      · exact (hinner.within proof hproof).older_mono hrecord.generation
      · obtain ⟨proof, hproof, τ, hτ, hagree, -⟩ := hpremise n θ σ hcut hθ hmatch hderivable
        exact ⟨proof, hproof, τ, hτ, hagree⟩

theorem solveByRules_complete (hground : kb.FactsGround) (hkinds : kb.KindsApart)
    (hrules : ∀ r ∈ kb.rules, r.Plain) (limits : Limits) (depth : Nat) :
    CompleteSolver kb 1 (solveByRules kb limits depth) := by
  induction depth with
  | zero => exact fun _ _ st _ _ => ⟨.refl st, List.forall_mem_nil _, nofun⟩
  | succ depth ih =>
      intro goal s st hs hscope
      have hrun : RuleCollection limits (factsAnd kb limits (solveByRules kb limits depth)) goal s
          kb.rules st _ _ := ruleCollection_chainAll _ kb.rules st
      have hcollects := hrun.collects (factsAnd_complete hground hkinds limits ih) hs hrules hscope
      refine ⟨hcollects.forward, hcollects.within, fun hcut n hn θ hθ hderivable => ?_⟩
      obtain ⟨m, rfl⟩ := Nat.exists_eq_succ_of_ne_zero (Nat.ne_of_gt hn)
      obtain ⟨r, hr, σ, hmatch, hpremise⟩ := Snapshot.derivableIn_succ hderivable
      exact hcollects.covered hcut r hr m θ σ hθ hmatch hpremise

theorem solve_complete (hground : kb.FactsGround) (hkinds : kb.KindsApart)
    (hrules : ∀ r ∈ kb.rules, r.Plain) (limits : Limits) (depth : Nat) :
    CompleteSolver kb 0 (solve kb limits depth) :=
  factsAnd_complete hground hkinds limits
    (solveByRules_complete hground hkinds hrules limits depth)

theorem Justifies.derivable_instance {proof : Substitution} (h : Justifies kb depth goal s proof)
    (θ : String → Term) : kb.Derivable ((proof.apply goal).subst θ) := by
  obtain ⟨n, -, hn⟩ := h.derivable _ (h.acyclic.respects θ)
  rw [Substitution.apply_eq_subst, Predicate.subst_subst]
  exact hn.derivable

end Search

/-- The substitution binds the variable or binds some variable to a term with it. -/
def Substitution.Mentions (s : Substitution) (v : String) : Prop :=
  ∃ u t, s.get? u = some t ∧ (v = u ∨ v ∈ t.vars)

theorem Scoped.older {g : Nat} {goal : Predicate} {s : Substitution} (h : Scoped g goal s)
    {v : String} (hv : v ∈ goal.vars ∨ s.Mentions v) : Older g v := by
  obtain hv | ⟨u, t, hu, rfl | hv⟩ := hv
  · exact h.goal v hv
  · exact (h.bindings v t hu).1 v (Term.mem_vars_var.mpr rfl)
  · exact (h.bindings u t hu).2 v hv

/-- Under every proof found all instances of the goal are derivable, and unless the
search was cut off, every assignment under which the goal is derivable is covered by a
proof found, on all variables that the goal and the substitution mention. -/
theorem Search.solve_finds_every_derivation {kb : KnowledgeBase Time} (hkb : kb.Reachable)
    (hrules : ∀ r ∈ kb.rules, r.Plain) (limits : Limits) (depth : Nat) (goal : Predicate)
    (s : Substitution) (st : SearchState) (hs : s.Acyclic)
    (hscope : Scoped st.generation goal s) :
    let out := (solve kb.snapshot limits depth goal s st).1
    (∀ proof ∈ out.found,
      proof.Extends s ∧ ∀ θ, kb.snapshot.Derivable ((proof.apply goal).subst θ)) ∧
    (out.cutOff = false → ∀ θ, s.Respects θ → kb.snapshot.Derivable (goal.subst θ) →
      ∃ proof ∈ out.found, ∃ τ, proof.Respects τ ∧
        ∀ v, v ∈ goal.vars ∨ s.Mentions v → τ v = θ v) := by
  intro out
  constructor
  · intro proof hproof
    have hjust := solve_sound hkb.placed.factsGround limits depth goal s st hs proof hproof
    exact ⟨hjust.keeps, hjust.derivable_instance⟩
  · intro hcut θ hθ hderivable
    have hcomplete := solve_complete hkb.placed.factsGround hkb.placed.kindsApart hrules limits
      depth goal s st hs hscope
    obtain ⟨n, hn⟩ := hderivable.exists_derivableIn
    obtain ⟨proof, hproof, τ, hτ, hagree⟩ := hcomplete.covered hcut n (Nat.zero_le n) θ hθ hn
    exact ⟨proof, hproof, τ, hτ, fun v hv => hagree v (hscope.older hv)⟩

/-- A search inside another: its second argument stands for a variable of the rule that
was used first. The rule to be used next has variables of the same names as the goal. -/
theorem Search.solve_finds_every_derivation_below_rule :
    let r : Reasoner Nat := [.addFact ⟨"Parent", [.const "Ann", .const "Bob"]⟩,
      .addFact ⟨"Parent", [.const "Bob", .const "Cid"]⟩,
      .addRule ⟨⟨"Parent", [.var "y", .var "x"]⟩, ⟨"Child", [.var "x", .var "y"]⟩⟩].foldl
        Reasoner.serve {}
    let s : Substitution := OrderedMap.insert ∅ "y" (.var (freshName 1 "y"))
    let goal : Predicate := ⟨"Child", [.var "x", .var "y"]⟩
    let out := (solve r.kb.snapshot {} 2 goal s { generation := 1 }).1
    s.Acyclic ∧ Scoped 1 goal s ∧ out.cutOff = false ∧
      (∀ proof ∈ out.found, ∀ θ, r.kb.snapshot.Derivable ((proof.apply goal).subst θ)) ∧
      ∃ proof ∈ out.found, ∃ τ, proof.Respects τ ∧ τ "x" = .const "Cid" ∧
        τ (freshName 1 "y") = .const "Bob" := by
  intro r s goal out
  have hkb : r.kb.Reachable := KnowledgeBase.Reachable.empty.foldl_serve _
  have hs : s.Acyclic := Substitution.acyclic_empty.insert rfl (by decide)
  have hbound : ∀ v t, s.get? v = some t → v = "y" ∧ t = .var (freshName 1 "y") := by
    intro v t hv
    rw [OrderedMap.get?_insert] at hv
    split at hv
    next heq => exact ⟨heq, (Option.some.inj hv).symm⟩
    next => cases hv
  have hscope : Scoped 1 goal s := by
    refine ⟨fun v hv => (show goal.Plain by decide) v hv |>.older 1, fun v t hv => ?_⟩
    obtain ⟨rfl, rfl⟩ := hbound v t hv
    constructor
    · exact fun w hw => Term.mem_vars_var.mp hw ▸ Plain.older (by decide) 1
    · exact fun w hw => Term.mem_vars_var.mp hw ▸ older_freshName 1 "y"
  let θ : String → Term := fun v => if v = "x" then .const "Cid" else .const "Bob"
  have hθ : s.Respects θ := by
    intro v t hv
    obtain ⟨rfl, rfl⟩ := hbound v t hv
    decide
  have hderivable : r.kb.snapshot.Derivable (goal.subst θ) :=
    .rule (r := ⟨⟨"Parent", [.var "y", .var "x"]⟩, goal⟩) θ (by decide) (.fact (by decide))
  have hcut : out.cutOff = false := by decide
  have hfound :=
    solve_finds_every_derivation hkb (by decide) {} 2 goal s { generation := 1 } hs hscope
  obtain ⟨proof, hproof, τ, hτ, hagree⟩ := hfound.2 hcut θ hθ hderivable
  refine ⟨hs, hscope, hcut, fun p hp => (hfound.1 p hp).2, proof, hproof, τ, hτ, ?_, ?_⟩
  · exact hagree "x" (.inl (by decide))
  · exact (hagree _ (.inr ⟨"y", _, rfl, .inr (by decide)⟩)).trans (by decide)

end Defeasible
