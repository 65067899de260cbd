import Defeasible.Proofs.Prolongation

/-!
Default reasoning from a later state. A choice among defaults that starts some generations
and steps later makes the same choice under other names, unless the steps run out on the
way. So of two searches that have parted, one that is behind loses nothing but steps.
-/

namespace Defeasible

variable {Time : Type}

theorem Snapshot.Regular.plain {kb : Snapshot Time} (h : kb.Regular) : kb.Plain :=
  ⟨h.factsGround, h.rulesPlain, h.defaultRulesPlain,
    fun e he => Predicate.plain_of_isGround (h.exceptionsGround e he)⟩

namespace Search

variable {kb : Snapshot Time} {limits : Limits} {goal : Predicate} {bound proof : Substitution}
  {st st' : SearchState} {r renamed : DefaultRule} {rules : List DefaultRule}
  {proofs : List Substitution}

/-- The second of two searches comes off no worse: it succeeds, or no steps are left to it, or
else the first does not succeed either and ends no later. -/
def NoWorse (limits : Limits) (found : Prop) (st : SearchState) (found' : Prop)
    (st' : SearchState) : Prop :=
  found' ∨ Spent limits st' ∨ ¬ found ∧ Forward st st'

def ChoiceNoWorse (limits : Limits) (out out' : Option Substitution × Bool × SearchState) : Prop :=
  NoWorse limits (out.1 ≠ none) out.2.2 (out'.1 ≠ none) out'.2.2

def ResultNoWorse (limits : Limits) (out out' : SearchResult × SearchState) : Prop :=
  NoWorse limits (out.1.outcome = .proved) out.2 (out'.1.outcome = .proved) out'.2

section NoWorse

variable {found found' found'' : Prop} {st'' : SearchState}

theorem NoWorse.of_forward (h : found → found') (hforward : Forward st st') :
    NoWorse limits found st found' st' := by
  by_cases hfound : found
  · exact .inl (h hfound)
  · exact .inr (.inr ⟨hfound, hforward⟩)

theorem NoWorse.trans (h : NoWorse limits found st found' st')
    (h' : NoWorse limits found' st' found'' st'') : NoWorse limits found st found'' st'' := by
  obtain hfound'' | hspent | ⟨hnone', hforward'⟩ := h'
  · exact .inl hfound''
  · exact .inr (.inl hspent)
  · obtain hfound' | hspent | ⟨hnone, hforward⟩ := h
    · exact absurd hfound' hnone'
    · exact .inr (.inl (hspent.later hforward'))
    · exact .inr (.inr ⟨hnone, hforward.trans hforward'⟩)

end NoWorse

variable {lead : Lead}

theorem Ahead.forward (h : Ahead lead st st') : Forward st st' :=
  ⟨h.steps ▸ Nat.le_add_right _ _, h.generation ▸ Nat.le_add_right _ _⟩

theorem Ahead.spent (h : Ahead lead st st') (hst : Spent limits st) :
    Spent (limits.more lead.steps) st' := by
  rw [Spent, h.steps]
  exact Nat.add_le_add_right hst lead.steps

/-- A later state that has steps left is ahead of an earlier one, for which the limit is put
lower by as many steps. -/
theorem exists_ahead (hforward : Forward st st') (hst : ¬ Spent limits st') :
    ∃ (fewer : Limits) (lead : Lead), fewer.Within limits ∧ limits = fewer.more lead.steps ∧
      lead.since = st.generation ∧ Ahead lead st st' := by
  obtain ⟨d, hd⟩ := Nat.exists_eq_add_of_le hforward.generation
  obtain ⟨n, hn⟩ := Nat.exists_eq_add_of_le hforward.steps
  have hle : n ≤ limits.maxSteps := by
    rw [Spent] at hst
    omega
  refine ⟨{ limits with maxSteps := limits.maxSteps - n }, ⟨st.generation, d, n, False⟩,
    ⟨Nat.sub_le _ _, rfl⟩, ?_, rfl, Nat.le_refl _, hd, hn, nofun⟩
  rw [Limits.more, Nat.sub_add_cancel hle]

/-- The renamed rule and the proofs mention no generation that is still to come. -/
structure Past (g : Nat) (renamed : DefaultRule) (proofs : List Substitution) : Prop where
  premise : ∀ v ∈ renamed.premise.vars, Older g v
  conclusion : ∀ v ∈ renamed.conclusion.vars, Older g v
  proofs : ∀ proof ∈ proofs, proof.Within (Term.Older g)

namespace Past

variable {g k d : Nat} {ρ : String → String}

theorem mono (h : Past g renamed proofs) (hk : g ≤ k) : Past k renamed proofs where
  premise v hv := (h.premise v hv).mono hk
  conclusion v hv := (h.conclusion v hv).mono hk
  proofs proof hproof := (h.proofs proof hproof).older_mono hk

theorem tail (h : Past g renamed (proof :: proofs)) : Past g renamed proofs :=
  ⟨h.premise, h.conclusion, fun proof hproof => h.proofs proof (.tail _ hproof)⟩

theorem inScope (h : Past g renamed proofs) : InScope g renamed proofs :=
  fun proof hproof => ⟨older_apply (h.proofs proof hproof) h.conclusion, nofun⟩

theorem mapNames_rule (h : Past g renamed proofs) (hρ : Shift g d ρ) :
    renamed.mapNames ρ = renamed := by
  rw [DefaultRule.mapNames,
    Predicate.mapNames_of_fixed fun v hv => hρ.older v (h.premise v hv),
    Predicate.mapNames_of_fixed fun v hv => hρ.older v (h.conclusion v hv)]

theorem map_mapNames (h : Past g renamed proofs) (hρ : Shift g d ρ) :
    proofs.map (Substitution.mapNames ρ) = proofs := by
  have hfixed : ∀ proof ∈ proofs, proof.mapNames ρ = proof := fun proof hproof =>
    Substitution.mapNames_of_fixed hρ.injective fun v t ht => by
      obtain ⟨hv, hterm⟩ := h.proofs proof hproof v t ht
      exact ⟨hρ.older v (hv v (Term.mem_vars_var.mpr rfl)),
        Term.mapNames_of_fixed fun w hw => hρ.older w (hterm w hw)⟩
  rw [List.map_congr_left hfixed, List.map_id']

end Past

theorem past_defaultSolutions (hkb : kb.Regular) (limits : Limits) (hr : r.Plain)
    (hscope : Scoped st.generation goal ∅)
    (hunify : unifyPredicates (r.rename (st.generation + 1)).conclusion goal ∅ = some bound) :
    Past (defaultSolutions kb limits r bound st).2.generation (r.rename (st.generation + 1))
      (defaultSolutions kb limits r bound st).1.found := by
  have hsolve := defaultSolutions_enumerates limits hkb hr hscope hunify
  have hrenamed := Rule.Plain.rename (r := r.strict) hr (st.generation + 1)
  refine ⟨fun v hv => ?_, older_conclusion_rename hr _ hsolve.forward.generation, hsolve.within⟩
  change v ∈ (r.strict.rename _).premise.vars at hv
  rw [hrenamed.1] at hv
  exact (older_subst_freshName hv).mono hsolve.forward.generation

theorem firstUnhindered_later (hkb : kb.Regular) (limits : Limits) (r : DefaultRule)
    (hpast : Past st.generation renamed proofs) (hforward : Forward st st') (cutOff : Bool) :
    ChoiceNoWorse limits (firstUnhindered kb limits r renamed proofs cutOff st)
      (firstUnhindered kb limits r renamed proofs cutOff st') := by
  by_cases hst : Spent limits st'
  · exact .inr (.inl (hst.later (firstUnhindered_spends _ _ _ _ _ _ _).toForward))
  · obtain ⟨fewer, lead, hwithin, rfl, hsince, hahead⟩ := exists_ahead hforward hst
    obtain ⟨ρ, hρ⟩ := exists_shift lead.since lead.generations
    have hshift : FollowsChoice ρ lead (firstUnhindered kb fewer r renamed proofs cutOff st)
        (firstUnhindered kb (fewer.more lead.steps) r (renamed.mapNames ρ)
          (proofs.map (Substitution.mapNames ρ)) cutOff st') :=
      firstUnhindered_shift hρ hkb.plain r renamed proofs cutOff hahead
    rw [hsince] at hρ
    rw [hpast.mapNames_rule hρ, hpast.map_mapNames hρ] at hshift
    obtain ⟨hchosen, -, hafter⟩ := hshift
    obtain heq | ⟨hspent, -⟩ := firstUnhindered_kept (r := r) hwithin hkb.defaultRulesPlain
      hpast.inScope cutOff
    · rw [heq]
      refine .of_forward (fun hsome hnone => hsome ?_) hafter.forward
      exact Option.map_eq_none_iff.mp (hchosen.symm.trans hnone)
    · exact .inr (.inl (hafter.spent hspent))

theorem byDefaults_later (hkb : kb.Regular) (limits : Limits) (hrules : ∀ r ∈ rules, r.Plain)
    (hgoal : goal.Plain) (hforward : Forward st st') (cutOff : Bool) :
    ResultNoWorse limits (byDefaults kb limits goal rules cutOff st)
      (byDefaults kb limits goal rules cutOff st') := by
  by_cases hst : Spent limits st'
  · exact .inr (.inl (hst.later (byDefaults_spends _ _ _ _ _ _).toForward))
  · obtain ⟨fewer, lead, hwithin, rfl, -, hahead⟩ := exists_ahead hforward hst
    obtain ⟨ρ, hρ⟩ := exists_shift lead.since lead.generations
    have hshift : Follows ρ lead (byDefaults kb fewer goal rules cutOff st)
        (byDefaults kb (fewer.more lead.steps) (goal.mapNames ρ) rules cutOff st') :=
      byDefaults_shift hρ hkb.plain goal hrules cutOff hahead
    rw [hρ.mapNames_of_plain hgoal] at hshift
    obtain ⟨hresult, hafter⟩ := hshift
    have hscope := hgoal.scoped st.generation
    obtain heq | ⟨hspent, -⟩ := byDefaults_kept hkb hwithin hrules hscope cutOff
    · rw [heq]
      refine .of_forward (fun hproved => ?_) hafter.forward
      obtain ⟨proof, hproof⟩ := SearchResult.outcome_eq_proved hproved
      rw [hresult, hproof]
      rfl
    · exact .inr (.inl (hafter.spent hspent))

end Search
end Defeasible
