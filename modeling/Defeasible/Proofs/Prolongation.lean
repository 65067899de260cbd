import Defeasible.Proofs.Budget

/-!
Default reasoning with more steps. A search that has run out of steps goes on, with what it
found so far: it still turns away proofs that are excepted or that it has found a hindrance
for. It decides a question only where there is nothing left to try, and there a search with
steps to spare decides the same. All that was decided before is decided in the same way, so
more steps can only decide what was left open.
-/

namespace Defeasible

variable {Time : Type}
namespace Search

variable {kb : Snapshot Time} {limits limits' : Limits} {goal contrary : Predicate}
  {bound : Substitution} {st : SearchState} {r renamed : DefaultRule}

/-- The default rule adds nothing to a search for the goal: no instance of its conclusion is
one of the goal, or there is nothing to try for its premise. -/
def Idle (kb : Snapshot Time) (depth : Nat) (goal : Predicate) (r : DefaultRule) : Prop :=
  (∀ σ θ, r.conclusion.subst σ ≠ goal.subst θ) ∨ Untried kb depth r.premise

/-- There is nothing to try for the contrary, nor for a default that concludes it. -/
structure Barren (kb : Snapshot Time) (depth : Nat) (contrary : Predicate) (priority : Certainty) :
    Prop where
  untried : Untried kb depth contrary
  idle : ∀ r ∈ kb.defaultRules, priority ≤ r.priority → Idle kb depth contrary r

/-- Whether a renamed rule matches does not depend on the generation. -/
theorem unify_rename_eq_none {g : Nat} (hr : r.Plain) (hscope : Scoped g goal ∅) :
    unifyPredicates (r.rename (g + 1)).conclusion goal ∅ = none ↔
      ∀ σ θ, r.conclusion.subst σ ≠ goal.subst θ := by
  constructor
  · intro hunify σ θ hmatch
    obtain ⟨τ, hτ, hconclusion, -⟩ :=
      hscope.lift (r := r.strict) hr (Substitution.respects_empty θ) hmatch
    exact Substitution.acyclic_empty.unifyPredicates_none hunify hτ hconclusion
  · intro hapart
    cases hunify : unifyPredicates (r.rename (g + 1)).conclusion goal ∅ with
    | none => rfl
    | some bound =>
        obtain ⟨hacyclic, -, hresp⟩ := Substitution.acyclic_empty.unifyPredicates_some hunify
        have hsame := ((hresp _).mp hacyclic.respects_resolve).2
        obtain ⟨τ, -, hconclusion⟩ := rename_eq_subst (g + 1) r.strict
        change (r.rename (g + 1)).conclusion = _ at hconclusion
        rw [hconclusion, Predicate.subst_subst] at hsame
        exact absurd hsame (hapart _ _)

theorem candidates_apply (kb : Snapshot Time) (s : Substitution) (p : Predicate) :
    candidates kb (s.apply p) = candidates kb p := by
  rw [Substitution.apply_eq_subst]
  rfl

/-- Neither the renaming of a rule nor a match changes what there is to try for its premise. -/
theorem untried_premise {depth g : Nat} :
    Untried kb depth (bound.apply (r.rename g).premise) ↔ Untried kb depth r.premise := by
  have hcandidates : candidates kb (bound.apply (r.rename g).premise) = candidates kb r.premise :=
    (candidates_apply kb bound _).trans (candidates_apply kb _ r.premise)
  constructor
  · exact fun h => ⟨hcandidates ▸ h.facts, h.rules, h.depth⟩
  · exact fun h => ⟨hcandidates ▸ h.facts, h.rules, h.depth⟩

theorem defaultSolutions_spent (kb : Snapshot Time) (hst : Spent limits st) (r : DefaultRule)
    (bound : Substitution) :
    (defaultSolutions kb limits r bound st = (⟨[], false⟩, st.nextGeneration) ∧
        Untried kb (innerDepth limits) r.premise) ∨
      defaultSolutions kb limits r bound st = (⟨[], true⟩, st.nextGeneration) := by
  have hnext : Spent limits st.nextGeneration := hst
  obtain ⟨heq, huntried⟩ | heq := solve_spent kb hnext (innerDepth limits)
    (bound.apply (r.rename (st.generation + 1)).premise) bound
  · exact .inl ⟨heq, untried_premise.mp huntried⟩
  · exact .inr heq

theorem defaultSolutions_untried (h : Untried kb (innerDepth limits) r.premise)
    (bound : Substitution) (st : SearchState) :
    defaultSolutions kb limits r bound st = (⟨[], false⟩, st.nextGeneration) :=
  solve_untried (untried_premise.mpr h) limits bound st.nextGeneration

section Competing

variable {rules : List DefaultRule}

/-- Without steps no competing default is found, and the search fails only if all the rules
are idle. -/
theorem competing_spent (kb : Snapshot Time) (hrules : ∀ r ∈ rules, r.Plain)
    (hscope : Scoped st.generation contrary ∅) (hst : Spent limits st) (cutOff : Bool) :
    (competing kb limits contrary rules cutOff st).1 = .exhausted ∨
      (competing kb limits contrary rules cutOff st).1 = .failed ∧ cutOff = false ∧
        ∀ r ∈ rules, Idle kb (innerDepth limits) contrary r := by
  induction rules generalizing cutOff st with
  | nil =>
      cases cutOff with
      | false => exact .inr ⟨rfl, rfl, List.forall_mem_nil _⟩
      | true => exact .inl rfl
  | cons r rules ih =>
      rw [List.forall_mem_cons] at hrules
      have hnext : Spent limits st.nextGeneration := hst
      have hscope' := hscope.mono (forward_nextGeneration st).generation
      rw [competing_cons, List.forall_mem_cons]
      cases hunify : unifyPredicates (r.rename (st.generation + 1)).conclusion contrary ∅ with
      | none =>
          obtain hexhausted | ⟨hfailed, hcut, hidle⟩ := ih hrules.2 hscope' hnext cutOff
          · exact .inl hexhausted
          · have hapart := (unify_rename_eq_none hrules.1 hscope).mp hunify
            exact .inr ⟨hfailed, hcut, .inl hapart, hidle⟩
      | some bound =>
          dsimp only
          obtain ⟨heq, huntried⟩ | heq := defaultSolutions_spent kb hst r bound
          · rw [heq]
            obtain hexhausted | ⟨hfailed, hcut, hidle⟩ :=
              ih hrules.2 hscope' hnext (cutOff || false)
            · exact .inl hexhausted
            · exact .inr ⟨hfailed, by simpa using hcut, .inr huntried, hidle⟩
          · rw [heq]
            obtain hexhausted | ⟨-, hcut, -⟩ := ih hrules.2 hscope' hnext (cutOff || true)
            · exact .inl hexhausted
            · simp at hcut

theorem competing_idle (hrules : ∀ r ∈ rules, r.Plain) (hscope : Scoped st.generation contrary ∅)
    (hidle : ∀ r ∈ rules, Idle kb (innerDepth limits) contrary r) :
    (competing kb limits contrary rules false st).1 = .failed := by
  induction rules generalizing st with
  | nil => rfl
  | cons r rules ih =>
      rw [List.forall_mem_cons] at hrules hidle
      have hscope' := hscope.mono (forward_nextGeneration st).generation
      rw [competing_cons]
      cases hunify : unifyPredicates (r.rename (st.generation + 1)).conclusion contrary ∅ with
      | none => exact ih hrules.2 hscope' hidle.2
      | some bound =>
          obtain hapart | huntried := hidle.1
          · cases hunify.symm.trans ((unify_rename_eq_none hrules.1 hscope).mpr hapart)
          · dsimp only
            rw [defaultSolutions_untried huntried]
            exact ih hrules.2 hscope' hidle.2

/-- More steps find the same hindrance, or a search that ran out of steps was exhausted or had
found one already. -/
def HindranceKept (limits : Limits) (out out' : SearchResult × SearchState) : Prop :=
  out' = out ∨ Spent limits out.2 ∧
    (out.1 = .exhausted ∨ (∃ proof, out.1 = .proved proof) ∧ ∃ proof, out'.1 = .proved proof)

theorem defaultSolutions_prolonged (h : limits.Within limits') (kb : Snapshot Time)
    (r : DefaultRule) (bound : Substitution) (st : SearchState) :
    Prolonged limits (defaultSolutions kb limits r bound st)
      (defaultSolutions kb limits' r bound st) := by
  rw [defaultSolutions, defaultSolutions, innerDepth_within h]
  exact solve_prolonged h kb _ _ _ _

theorem competing_kept (h : limits.Within limits') (hrules : ∀ r ∈ rules, r.Plain)
    (hscope : Scoped st.generation contrary ∅) (cutOff : Bool) :
    HindranceKept limits (competing kb limits contrary rules cutOff st)
      (competing kb limits' contrary rules cutOff st) := by
  induction rules generalizing cutOff st with
  | nil => exact .inl rfl
  | cons r rules ih =>
      rw [List.forall_mem_cons] at hrules
      rw [competing_cons, competing_cons]
      cases hunify : unifyPredicates (r.rename (st.generation + 1)).conclusion contrary ∅ with
      | none => exact ih hrules.2 (hscope.mono (forward_nextGeneration st).generation) cutOff
      | some bound =>
          dsimp only
          have hlater := hscope.mono (defaultSolutions_spends kb limits r bound st).generation
          obtain heq | ⟨hcut, hspent, hfound⟩ := defaultSolutions_prolonged h kb r bound st
          · rw [heq]
            cases (defaultSolutions kb limits r bound st).1.found.find?
                (isInForce kb r (r.rename (st.generation + 1))) with
            | some proof => exact .inl rfl
            | none => exact ih hrules.2 hlater _
          · refine .inr ?_
            cases hfind : (defaultSolutions kb limits r bound st).1.found.find?
                (isInForce kb r (r.rename (st.generation + 1))) with
            | some proof =>
                rw [hfound.find?_eq_some hfind]
                exact ⟨hspent, .inr ⟨⟨proof, rfl⟩, proof, rfl⟩⟩
            | none =>
                -- The rest of the rules is tried without steps, after a search was cut off.
                refine ⟨hspent.later (competing_spends kb limits contrary rules _ _).toForward, ?_⟩
                obtain hexhausted | ⟨-, hcut', -⟩ := competing_spent kb hrules.2 hlater hspent
                  (cutOff || (defaultSolutions kb limits r bound st).1.cutOff)
                · exact .inl hexhausted
                · rw [hcut, Bool.or_true] at hcut'
                  cases hcut'

end Competing

section Hindrance

variable {priority : Certainty}

theorem filter_plain (hrules : ∀ r ∈ kb.defaultRules, r.Plain) (priority : Certainty) :
    ∀ r ∈ kb.defaultRules.filter fun r => priority ≤ r.priority, r.Plain :=
  fun r hr => hrules r (List.mem_of_mem_filter hr)

/-- Without steps no hindrance is found, and there is none only if there is nothing to try. -/
theorem hindrance_spent (kb : Snapshot Time) (hrules : ∀ r ∈ kb.defaultRules, r.Plain)
    (hscope : Scoped st.generation contrary ∅) (hst : Spent limits st) (priority : Certainty) :
    (hindrance kb limits contrary priority st).1 = .exhausted ∨
      (hindrance kb limits contrary priority st).1 = .failed ∧
        Barren kb (innerDepth limits) contrary priority := by
  rw [hindrance]
  obtain ⟨heq, huntried⟩ | heq := ask_spent kb hst (innerDepth limits) contrary ∅
  · rw [heq]
    obtain hexhausted | ⟨hfailed, -, hidle⟩ :=
      competing_spent kb (filter_plain hrules priority) hscope hst false
    · exact .inl hexhausted
    · refine .inr ⟨hfailed, huntried, fun r hr hpriority => hidle r ?_⟩
      simpa using ⟨hr, hpriority⟩
  · rw [heq]
    exact .inl rfl

theorem hindrance_barren (hrules : ∀ r ∈ kb.defaultRules, r.Plain)
    (hscope : Scoped st.generation contrary ∅)
    (h : Barren kb (innerDepth limits) contrary priority) :
    (hindrance kb limits contrary priority st).1 = .failed := by
  rw [hindrance, ask_untried h.untried]
  refine competing_idle (filter_plain hrules priority) hscope fun r hr => ?_
  obtain ⟨hmem, hpriority⟩ := List.mem_filter.mp hr
  exact h.idle r hmem (by simpa using hpriority)

theorem hindrance_kept (kb : Snapshot Time) (h : limits.Within limits')
    (hrules : ∀ r ∈ kb.defaultRules, r.Plain) (hscope : Scoped st.generation contrary ∅)
    (priority : Certainty) :
    HindranceKept limits (hindrance kb limits contrary priority st)
      (hindrance kb limits' contrary priority st) := by
  have hlater := hscope.mono (ask_spends kb limits (innerDepth limits) contrary ∅ st).generation
  have hask := ask_kept h kb (innerDepth limits) contrary ∅ st
  rw [hindrance, hindrance, innerDepth_within h]
  generalize ask kb limits (innerDepth limits) contrary ∅ st = out at hlater hask ⊢
  obtain ⟨result, st₁⟩ := out
  obtain heq | ⟨rfl, hspent⟩ := hask
  · rw [heq]
    cases result with
    | failed => exact competing_kept h (filter_plain hrules priority) hlater false
    | proved | exhausted => exact .inl rfl
  · exact .inr ⟨hspent, .inl rfl⟩

end Hindrance

section FirstUnhindered

variable {proofs : List Substitution}

/-- The conclusions under the proofs mention no generation that is still to come. -/
def InScope (g : Nat) (renamed : DefaultRule) (proofs : List Substitution) : Prop :=
  ∀ proof ∈ proofs, Scoped g (proof.apply renamed.conclusion).negated ∅

theorem InScope.mono {g k : Nat} (h : InScope g renamed proofs) (hk : g ≤ k) :
    InScope k renamed proofs :=
  fun proof hproof => (h proof hproof).mono hk

/-- Some proof is in force, and there is nothing to try against its conclusion. -/
def Unthreatened (kb : Snapshot Time) (depth : Nat) (r renamed : DefaultRule)
    (proofs : List Substitution) : Prop :=
  ∃ proof ∈ proofs, isInForce kb r renamed proof = true ∧
    Barren kb depth (proof.apply renamed.conclusion).negated r.priority

theorem Unthreatened.mono {depth : Nat} {proofs' : List Substitution}
    (h : Unthreatened kb depth r renamed proofs) (hsubset : proofs ⊆ proofs') :
    Unthreatened kb depth r renamed proofs' := by
  obtain ⟨proof, hproof, hunthreatened⟩ := h
  exact ⟨proof, hsubset hproof, hunthreatened⟩

/-- Without steps a proof is chosen only if it is unthreatened, and that there is none to choose
is certain only if all are excepted. -/
theorem firstUnhindered_spent (hrules : ∀ r ∈ kb.defaultRules, r.Plain) (hst : Spent limits st)
    (hscope : InScope st.generation renamed proofs) (cutOff : Bool) :
    let out := firstUnhindered kb limits r renamed proofs cutOff st
    (out.1 ≠ none → Unthreatened kb (innerDepth limits) r renamed proofs) ∧
      (out.1 = none → out.2.1 = false →
        cutOff = false ∧ ∀ proof ∈ proofs, isInForce kb r renamed proof = false) := by
  induction proofs generalizing cutOff st with
  | nil => exact ⟨fun h => absurd rfl h, fun _ hcut => ⟨hcut, List.forall_mem_nil _⟩⟩
  | cons first proofs ih =>
      obtain ⟨hfirst, hrest⟩ := List.forall_mem_cons.mp hscope
      simp only [firstUnhindered_cons, List.forall_mem_cons]
      cases hforce : isInForce kb r renamed first with
      | false =>
          obtain ⟨hchosen, hnone⟩ := ih hst hrest cutOff
          refine ⟨fun h => (hchosen h).mono (List.subset_cons_self _ _), fun h hcut => ?_⟩
          obtain ⟨hcut', hexcepted⟩ := hnone h hcut
          exact ⟨hcut', rfl, hexcepted⟩
      | true =>
          have hspends := hindrance_spends kb limits (first.apply renamed.conclusion).negated
            r.priority st
          have hhindrance := hindrance_spent kb hrules hfirst hst r.priority
          simp only [if_true]
          generalize hindrance kb limits (first.apply renamed.conclusion).negated r.priority st =
            found at hspends hhindrance ⊢
          obtain ⟨result, st₁⟩ := found
          obtain rfl | ⟨rfl, hbarren⟩ := hhindrance
          · obtain ⟨hchosen, hnone⟩ := ih (hst.later hspends.toForward)
              (InScope.mono hrest hspends.generation) true
            refine ⟨fun h => (hchosen h).mono (List.subset_cons_self _ _), fun h hcut => ?_⟩
            cases (hnone h hcut).1
          · refine ⟨fun _ => ⟨first, .head _, hforce, hbarren⟩, fun h => ?_⟩
            cases h

/-- An unthreatened proof is chosen, if none before it is. -/
theorem firstUnhindered_unthreatened (hrules : ∀ r ∈ kb.defaultRules, r.Plain)
    (hscope : InScope st.generation renamed proofs)
    (h : Unthreatened kb (innerDepth limits) r renamed proofs) (cutOff : Bool) :
    (firstUnhindered kb limits r renamed proofs cutOff st).1 ≠ none := by
  induction proofs generalizing cutOff st with
  | nil =>
      obtain ⟨proof, hproof, -⟩ := h
      cases hproof
  | cons first proofs ih =>
      obtain ⟨hfirst, hrest⟩ := List.forall_mem_cons.mp hscope
      obtain ⟨proof, hproof, hforce, hbarren⟩ := h
      rw [firstUnhindered_cons]
      have hspends := hindrance_spends kb limits (first.apply renamed.conclusion).negated
        r.priority st
      have hlater := InScope.mono hrest hspends.generation
      obtain rfl | hproof := List.mem_cons.mp hproof
      · have hfailed := hindrance_barren hrules hfirst hbarren
        rw [if_pos hforce]
        dsimp only
        generalize hindrance kb limits (proof.apply renamed.conclusion).negated r.priority st =
          found at hfailed ⊢
        obtain ⟨result, st₁⟩ := found
        obtain rfl : result = .failed := hfailed
        exact Option.some_ne_none _
      · have hothers : Unthreatened kb (innerDepth limits) r renamed proofs :=
          ⟨proof, hproof, hforce, hbarren⟩
        split
        · dsimp only
          generalize hindrance kb limits (first.apply renamed.conclusion).negated r.priority st =
            found at hlater ⊢
          obtain ⟨result, st₁⟩ := found
          cases result with
          | failed => exact Option.some_ne_none _
          | proved => exact ih hlater hothers cutOff
          | exhausted => exact ih hlater hothers true
        · exact ih hrest hothers cutOff

theorem firstUnhindered_excepted (limits : Limits)
    (h : ∀ proof ∈ proofs, isInForce kb r renamed proof = false) (cutOff : Bool)
    (st : SearchState) :
    firstUnhindered kb limits r renamed proofs cutOff st = (none, cutOff, st) := by
  induction proofs with
  | nil => rfl
  | cons first proofs ih =>
      rw [List.forall_mem_cons] at h
      rw [firstUnhindered_cons, h.1]
      exact ih h.2

/-- What a choice among proofs comes to with more steps. If the steps ran out, a choice that was
made is still made, perhaps of another proof, and certainty that there is none stays. -/
def ChoiceKept (limits : Limits) (out out' : Option Substitution × Bool × SearchState) : Prop :=
  out' = out ∨ Spent limits out.2.2 ∧ (out.1 ≠ none → out'.1 ≠ none) ∧
    (out.1 = none → out.2.1 = false → out'.1 = none ∧ out'.2.1 = false)

theorem firstUnhindered_kept (h : limits.Within limits')
    (hrules : ∀ r ∈ kb.defaultRules, r.Plain) (hscope : InScope st.generation renamed proofs)
    (cutOff : Bool) : ChoiceKept limits (firstUnhindered kb limits r renamed proofs cutOff st)
      (firstUnhindered kb limits' r renamed proofs cutOff st) := by
  induction proofs generalizing cutOff st with
  | nil => exact .inl rfl
  | cons first proofs ih =>
      obtain ⟨hfirst, hrest⟩ := List.forall_mem_cons.mp hscope
      rw [firstUnhindered_cons, firstUnhindered_cons]
      cases hforce : isInForce kb r renamed first with
      | false => exact ih hrest cutOff
      | true =>
          have hlater := InScope.mono hrest (hindrance_spends kb limits
            (first.apply renamed.conclusion).negated r.priority st).generation
          have hlater' := InScope.mono hrest (hindrance_spends kb limits'
            (first.apply renamed.conclusion).negated r.priority st).generation
          have hhindrance := hindrance_kept kb h hrules hfirst r.priority
          simp only [if_true]
          generalize hindrance kb limits (first.apply renamed.conclusion).negated r.priority st =
            found at hlater hhindrance ⊢
          generalize hindrance kb limits' (first.apply renamed.conclusion).negated r.priority st =
            found' at hlater' hhindrance ⊢
          obtain ⟨result, st₁⟩ := found
          obtain ⟨result', st₁'⟩ := found'
          obtain heq | ⟨hspent, rfl | ⟨⟨proof, rfl⟩, proof', rfl⟩⟩ := hhindrance
          · cases heq
            cases result with
            | failed => exact .inl rfl
            | proved => exact ih hlater cutOff
            | exhausted => exact ih hlater true
          · obtain ⟨hchosen, hnone⟩ := firstUnhindered_spent (r := r) hrules hspent hlater true
            refine .inr ⟨?_, fun hsome => ?_, fun hout hcut => ?_⟩
            · exact hspent.later (firstUnhindered_spends _ _ _ _ _ _ _).toForward
            · have hothers := innerDepth_within h ▸ hchosen hsome
              cases result' with
              | failed => exact Option.some_ne_none _
              | proved => exact firstUnhindered_unthreatened hrules hlater' hothers cutOff
              | exhausted => exact firstUnhindered_unthreatened hrules hlater' hothers true
            · cases (hnone hout hcut).1
          · obtain ⟨hchosen, hnone⟩ := firstUnhindered_spent (r := r) hrules hspent hlater cutOff
            refine .inr ⟨?_, fun hsome => ?_, fun hout hcut => ?_⟩
            · exact hspent.later (firstUnhindered_spends _ _ _ _ _ _ _).toForward
            · have hothers := innerDepth_within h ▸ hchosen hsome
              exact firstUnhindered_unthreatened hrules hlater' hothers cutOff
            · obtain ⟨rfl, hexcepted⟩ := hnone hout hcut
              dsimp only
              rw [firstUnhindered_excepted limits' hexcepted]
              exact ⟨rfl, rfl⟩

end FirstUnhindered

section ByDefaults

variable {rules : List DefaultRule}

/-- Where no premise has a proof, concluding by default is looking for a competing default. -/
theorem byDefaults_eq_competing (cutOff : Bool)
    (h : ∀ r ∈ rules, ∀ bound st', Forward st st' →
      unifyPredicates (r.rename (st'.generation + 1)).conclusion goal ∅ = some bound →
        (defaultSolutions kb limits r bound st').1.found = []) :
    byDefaults kb limits goal rules cutOff st = competing kb limits goal rules cutOff st := by
  induction rules generalizing cutOff st with
  | nil => rfl
  | cons r rules ih =>
      obtain ⟨hfirst, hrest⟩ := List.forall_mem_cons.mp h
      rw [byDefaults_cons, competing_cons]
      cases hunify : unifyPredicates (r.rename (st.generation + 1)).conclusion goal ∅ with
      | none =>
          exact ih cutOff fun r' hr' bound st' hforward =>
            hrest r' hr' bound st' ((forward_nextGeneration st).trans hforward)
      | some bound =>
          have hsolve := (defaultSolutions_spends kb limits r bound st).toForward
          have hnone := hfirst bound st (.refl st) hunify
          simp only [defaultChoice, hnone]
          exact ih _ fun r' hr' bound' st' hforward =>
            hrest r' hr' bound' st' (hsolve.trans hforward)

/-- Without steps nothing is concluded by default, and the attempt fails only if all the rules
are idle. -/
theorem byDefaults_spent (kb : Snapshot Time) (hrules : ∀ r ∈ rules, r.Plain)
    (hscope : Scoped st.generation goal ∅) (hst : Spent limits st) (cutOff : Bool) :
    (byDefaults kb limits goal rules cutOff st).1 = .exhausted ∨
      (byDefaults kb limits goal rules cutOff st).1 = .failed ∧ cutOff = false ∧
        ∀ r ∈ rules, Idle kb (innerDepth limits) goal r := by
  rw [byDefaults_eq_competing]
  · exact competing_spent kb hrules hscope hst cutOff
  · intro r _ bound st' hforward _
    obtain ⟨heq, -⟩ | heq := defaultSolutions_spent kb (hst.later hforward) r bound
    · rw [heq]
    · rw [heq]

theorem byDefaults_idle (kb : Snapshot Time) (limits : Limits) (hrules : ∀ r ∈ rules, r.Plain)
    (hscope : Scoped st.generation goal ∅)
    (hidle : ∀ r ∈ rules, Idle kb (innerDepth limits) goal r) :
    (byDefaults kb limits goal rules false st).1 = .failed := by
  rw [byDefaults_eq_competing]
  · exact competing_idle hrules hscope hidle
  · intro r hr bound st' hforward hunify
    obtain hapart | huntried := hidle r hr
    · have hlater := hscope.mono hforward.generation
      cases hunify.symm.trans ((unify_rename_eq_none (hrules r hr) hlater).mpr hapart)
    · rw [defaultSolutions_untried huntried]

theorem inScope_defaultSolutions (hkb : kb.Regular) (limits : Limits) (hr : r.Plain)
    (hscope : Scoped st.generation goal ∅)
    (hunify : unifyPredicates (r.rename (st.generation + 1)).conclusion goal ∅ = some bound) :
    InScope (defaultSolutions kb limits r bound st).2.generation (r.rename (st.generation + 1))
      (defaultSolutions kb limits r bound st).1.found := by
  have hsolve := defaultSolutions_enumerates limits hkb hr hscope hunify
  have hrenamed := older_conclusion_rename hr (st.generation + 1) hsolve.forward.generation
  exact fun proof hproof => ⟨older_apply (hsolve.within proof hproof) hrenamed, nofun⟩

/-- More proofs, found with more steps, lead to the same choice. -/
theorem defaultChoice_kept (hkb : kb.Regular) (h : limits.Within limits') (hr : r.Plain)
    (hscope : Scoped st.generation goal ∅)
    (hunify : unifyPredicates (r.rename (st.generation + 1)).conclusion goal ∅ = some bound)
    (cutOff : Bool) : ChoiceKept limits (defaultChoice kb limits r bound cutOff st)
      (defaultChoice kb limits' r bound cutOff st) := by
  have hrules := hkb.defaultRulesPlain
  have hinScope := inScope_defaultSolutions hkb limits hr hscope hunify
  have hinScope' := inScope_defaultSolutions hkb limits' hr hscope hunify
  have hproofs := defaultSolutions_prolonged h kb r bound st
  rw [defaultChoice, defaultChoice]
  generalize defaultSolutions kb limits r bound st = out at hinScope hproofs ⊢
  generalize defaultSolutions kb limits' r bound st = out' at hinScope' hproofs ⊢
  obtain rfl | ⟨hcut, hspent, hfound⟩ := hproofs
  · exact firstUnhindered_kept h hrules hinScope _
  · obtain ⟨hchosen, hnone⟩ := firstUnhindered_spent (r := r) hrules hspent hinScope
      (cutOff || out.1.cutOff)
    refine .inr ⟨?_, fun hsome => ?_, fun hout hfalse => ?_⟩
    · exact hspent.later (firstUnhindered_spends _ _ _ _ _ _ _).toForward
    · have hothers := innerDepth_within h ▸ (hchosen hsome).mono hfound.subset
      exact firstUnhindered_unthreatened hrules hinScope' hothers _
    · obtain ⟨hcut', -⟩ := hnone hout hfalse
      rw [hcut, Bool.or_true] at hcut'
      cases hcut'

/-- The second result is that of the first, unless the first is exhausted. -/
def SameIfDecided (result result' : SearchResult) : Prop :=
  result ≠ .exhausted → result'.outcome = result.outcome

/-- What the default rules come to with more steps. If the steps ran out, what was decided is
decided in the same way. -/
def ResultKept (limits : Limits) (out out' : SearchResult × SearchState) : Prop :=
  out' = out ∨ Spent limits out.2 ∧ SameIfDecided out.1 out'.1

theorem ResultKept.sameIfDecided {out out' : SearchResult × SearchState}
    (h : ResultKept limits out out') : SameIfDecided out.1 out'.1 := by
  obtain rfl | ⟨-, hsame⟩ := h
  · exact fun _ => rfl
  · exact hsame

theorem byDefaults_kept (hkb : kb.Regular) (h : limits.Within limits')
    (hrules : ∀ r ∈ rules, r.Plain) (hscope : Scoped st.generation goal ∅) (cutOff : Bool) :
    ResultKept limits (byDefaults kb limits goal rules cutOff st)
      (byDefaults kb limits' goal rules cutOff st) := by
  induction rules generalizing cutOff st with
  | nil => exact .inl rfl
  | cons r rules ih =>
      rw [List.forall_mem_cons] at hrules
      rw [byDefaults_cons, byDefaults_cons]
      cases hunify : unifyPredicates (r.rename (st.generation + 1)).conclusion goal ∅ with
      | none => exact ih hrules.2 (hscope.mono (forward_nextGeneration st).generation) cutOff
      | some bound =>
          have hchoice := defaultChoice_kept hkb h hrules.1 hscope hunify cutOff
          have hlater := hscope.mono (defaultChoice_spends kb limits r bound cutOff st).generation
          have hlater' := hscope.mono (defaultChoice_spends kb limits' r bound cutOff st).generation
          dsimp only
          generalize defaultChoice kb limits r bound cutOff st = choice at hchoice hlater ⊢
          generalize defaultChoice kb limits' r bound cutOff st = choice' at hchoice hlater' ⊢
          obtain ⟨chosen, cutOff₁, st₁⟩ := choice
          obtain ⟨chosen', cutOff₁', st₁'⟩ := choice'
          obtain heq | ⟨hspent, hsome, hnone⟩ := hchoice
          · cases heq
            cases chosen with
            | some proof => exact .inl rfl
            | none => exact ih hrules.2 hlater cutOff₁
          · refine .inr ?_
            cases chosen with
            | some proof =>
                cases chosen' with
                | some proof' => exact ⟨hspent, fun _ => rfl⟩
                | none => exact absurd rfl (hsome (Option.some_ne_none proof))
            | none =>
                -- The remaining rules are tried without steps, and decide only if all are idle.
                have hlast := byDefaults_spends kb limits goal rules cutOff₁ st₁
                refine ⟨hspent.later hlast.toForward, fun hdecided => ?_⟩
                obtain hexhausted | ⟨hfailed, hcut, hidle⟩ :=
                  byDefaults_spent kb hrules.2 hlater hspent cutOff₁
                · exact absurd hexhausted hdecided
                · obtain ⟨hnone', hcut'⟩ := hnone rfl hcut
                  obtain rfl : chosen' = none := hnone'
                  obtain rfl : cutOff₁' = false := hcut'
                  have hfailed' := byDefaults_idle kb limits' hrules.2 hlater'
                    (innerDepth_within h ▸ hidle)
                  exact congrArg SearchResult.outcome (hfailed'.trans hfailed.symm)

end ByDefaults

theorem inconclusive_eq_exhausted {out : SearchResult × SearchState}
    (h : out.1 = .exhausted ∨ out.1 = .failed) : (inconclusive out).1 = .exhausted := by
  obtain ⟨result, st⟩ := out
  obtain rfl | rfl := h <;> rfl

theorem SameIfDecided.inconclusive {out out' : SearchResult × SearchState}
    (h : SameIfDecided out.1 out'.1) :
    SameIfDecided (inconclusive out).1 (inconclusive out').1 := by
  obtain ⟨result, st⟩ := out
  obtain ⟨result', st'⟩ := out'
  intro hdecided
  cases result with
  | failed | exhausted => exact absurd rfl hdecided
  | proved proof =>
      obtain ⟨proof', rfl⟩ := SearchResult.outcome_eq_proved (h nofun)
      rfl

/-- With default rules, what facts and rules leave undecided may be decided by them. -/
theorem run_snd (kb : Snapshot Time) (limits : Limits) (useDefaults : Bool) (goal : Predicate)
    (st : SearchState) : (run kb limits useDefaults goal st).2 =
      (tryDefaults kb limits useDefaults goal .rule
        (ask kb limits limits.maxDepth goal ∅ st)).2 := by
  rw [run_eq, ask, factsThen]
  generalize matchFacts limits goal ∅ (candidates kb goal) st = out
  obtain ⟨result, st₁⟩ := out
  cases result with
  | failed => rfl
  | proved | exhausted => cases useDefaults <;> rfl

/-- With more steps a search that also tries the default rules decides the same. -/
theorem run_sameIfDecided (hkb : kb.Regular) (h : limits.Within limits') (hgoal : goal.Plain)
    (st : SearchState) :
    SameIfDecided (run kb limits true goal st).2.1 (run kb limits' true goal st).2.1 := by
  have hask := ask_kept h kb limits.maxDepth goal ∅ st
  rw [run_snd, run_snd, h.depth]
  generalize ask kb limits limits.maxDepth goal ∅ st = out at hask ⊢
  obtain ⟨result, st₁⟩ := out
  have hdefaults := (byDefaults_kept hkb h hkb.defaultRulesPlain (hgoal.scoped st₁.generation)
    false).sameIfDecided
  obtain heq | ⟨rfl, hspent⟩ := hask
  · rw [heq]
    cases result with
    | proved proof => exact fun _ => rfl
    | failed => exact hdefaults
    | exhausted => exact hdefaults.inconclusive
  · intro hdecided
    have hspentDefaults := byDefaults_spent kb hkb.defaultRulesPlain
      (hgoal.scoped st₁.generation) hspent false
    exact absurd (inconclusive_eq_exhausted (hspentDefaults.imp_right And.left)) hdecided

end Search

namespace Reasoner

/-- The reasoner with another limit of steps. -/
def withSteps (r : Reasoner Time) (n : Nat) : Reasoner Time :=
  { r with config := { r.config with limits := { r.config.limits with maxSteps := n } } }

variable {r : Reasoner Time} {n n' : Nat}

theorem within_withSteps (r : Reasoner Time) (hn : n ≤ n') :
    (r.withSteps n).config.limits.Within (r.withSteps n').config.limits := ⟨hn, rfl⟩

theorem outcome_proveWith (r : Reasoner Time) (useDefaults : Bool) (goal : Predicate) :
    (r.proveWith useDefaults goal).1.outcome =
      (Search.run r.kb.snapshot r.config.limits useDefaults goal
        { generation := r.generation }).2.1.outcome := by
  rw [proveWith, Snapshot.prove]
  obtain ⟨reasoning, result, st⟩ := Search.run r.kb.snapshot r.config.limits useDefaults goal
    { generation := r.generation }
  cases result <;> rfl

theorem steps_proveWith (r : Reasoner Time) (useDefaults : Bool) (goal : Predicate) :
    (r.proveWith useDefaults goal).1.steps =
      (Search.run r.kb.snapshot r.config.limits useDefaults goal
        { generation := r.generation }).2.2.steps := by
  rw [proveWith, Snapshot.prove]
  obtain ⟨reasoning, result, st⟩ := Search.run r.kb.snapshot r.config.limits useDefaults goal
    { generation := r.generation }
  cases result <;> rfl

theorem steps_proveWith_le (r : Reasoner Time) (useDefaults : Bool) (goal : Predicate) :
    (r.proveWith useDefaults goal).1.steps ≤ r.config.limits.maxSteps := by
  rw [steps_proveWith]
  exact (Search.run_spends _ _ _ _ _).within (Nat.zero_le _)

theorem steps_query_le (r : Reasoner Time) (q : Query) :
    (r.query q).1.steps ≤ r.config.limits.maxSteps := by
  cases q with
  | goal goal => exact r.steps_proveWith_le true goal
  | time q =>
      change (r.kb.snapshot.decideTime q).steps ≤ _
      rw [Snapshot.decideTime]
      split <;> exact Nat.zero_le _

theorem exhausted_of_outcome {result : SearchResult} (h : result = .exhausted) :
    result.outcome = .exhausted := h ▸ rfl

theorem proveMonotonic_withSteps (hn : n ≤ n') {goal : Predicate}
    (hdecided : ((r.withSteps n).proveMonotonic goal).1.outcome ≠ .exhausted) :
    ((r.withSteps n').proveMonotonic goal).1 = ((r.withSteps n).proveMonotonic goal).1 := by
  have hrun := Search.run_kept (r.within_withSteps hn) r.kb.snapshot goal
    { generation := r.generation } fun h => hdecided <|
      ((r.withSteps n).outcome_proveWith false goal).trans (exhausted_of_outcome h)
  have hprove : r.kb.snapshot.prove (r.withSteps n').config.limits false r.generation goal =
      r.kb.snapshot.prove (r.withSteps n).config.limits false r.generation goal := by
    rw [Snapshot.prove, Snapshot.prove, hrun]
  change (r.kb.snapshot.prove (r.withSteps n').config.limits false r.generation goal).1 = _
  rw [hprove]
  rfl

theorem prove_withSteps (hkb : r.kb.snapshot.Regular) (hn : n ≤ n') {goal : Predicate}
    (hgoal : goal.Plain) (hdecided : ((r.withSteps n).prove goal).1.outcome ≠ .exhausted) :
    ((r.withSteps n').prove goal).1.outcome = ((r.withSteps n).prove goal).1.outcome := by
  have hrun := Search.run_sameIfDecided hkb (r.within_withSteps hn) hgoal
    { generation := r.generation } fun h => hdecided <|
      ((r.withSteps n).outcome_proveWith true goal).trans (exhausted_of_outcome h)
  exact ((r.withSteps n').outcome_proveWith true goal).trans
    (hrun.trans ((r.withSteps n).outcome_proveWith true goal).symm)

/-- No answer spends more steps than the limit allows, and none that is decided changes with a
larger limit: from facts and rules it stays the same answer, and with default rules its outcome
stays. -/
theorem answers_withSteps (r : Reasoner Time) (hn : n ≤ n') :
    (∀ useDefaults goal, ((r.withSteps n).proveWith useDefaults goal).1.steps ≤ n) ∧
      (∀ q, ((r.withSteps n).query q).1.steps ≤ n) ∧
      (∀ goal, ((r.withSteps n).proveMonotonic goal).1.outcome ≠ .exhausted →
        ((r.withSteps n').proveMonotonic goal).1 = ((r.withSteps n).proveMonotonic goal).1) ∧
      (r.kb.Reachable → (∀ e ∈ r.kb.exceptions, e.excluded.isGround = true) →
        (∀ rule ∈ r.kb.rules, rule.Plain) → (∀ rule ∈ r.kb.defaultRules, rule.Plain) →
        ∀ goal : Predicate, goal.Plain →
          ((r.withSteps n).prove goal).1.outcome ≠ .exhausted →
          ((r.withSteps n').prove goal).1.outcome = ((r.withSteps n).prove goal).1.outcome) :=
  ⟨(r.withSteps n).steps_proveWith_le, (r.withSteps n).steps_query_le,
    fun _ => proveMonotonic_withSteps hn,
    fun hr hexceptions hrules hdefaults _ =>
      prove_withSteps (hr.placed.regular hexceptions hrules hdefaults) hn⟩

/-- Three steps are enough to conclude that a bird flies, and a thousand lead to no other
outcome. Two are not: the search for the contrary is cut off. -/
theorem answers_withSteps_flies :
    let r : Reasoner Nat := List.foldl serve {} [.addFact ⟨"Bird", [.const "Tux"]⟩,
      .addDefaultRule ⟨⟨"Bird", [.var "x"]⟩, ⟨"Flies", [.var "x"]⟩, .full⟩]
    let goal : Predicate := ⟨"Flies", [.var "y"]⟩
    ((r.withSteps 2).prove goal).1.outcome = .exhausted ∧
      ((r.withSteps 1000).prove goal).1.outcome = .proved ∧
      ((r.withSteps 1000).proveMonotonic goal).1 = ((r.withSteps 1).proveMonotonic goal).1 := by
  intro r goal
  have hr : r.kb.Reachable := KnowledgeBase.Reachable.empty.foldl_serve (r := {}) _
  have hthree : ((r.withSteps 3).prove goal).1.outcome = .proved := by decide +kernel
  obtain ⟨-, -, -, hprove⟩ := answers_withSteps r (show 3 ≤ 1000 by decide)
  obtain ⟨-, -, hmonotonic, -⟩ := answers_withSteps r (show 1 ≤ 1000 by decide)
  refine ⟨by decide +kernel, ?_, hmonotonic goal (by decide +kernel)⟩
  rw [hprove hr (by decide +kernel) (by decide +kernel) (by decide +kernel) goal (by decide +kernel)
    (by rw [hthree]; decide)]
  exact hthree

end Reasoner

end Defeasible
