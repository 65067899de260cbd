import Defeasible.Proofs.Violation

/-!
What a default rule expects of a candidate. The check looks at the first stored fact in
force that fits the candidate and reports the conclusion that every match of this fact
draws, unless that is the candidate. So every report is right about the fact it names,
and where the conclusion's variables are arguments of their own, no violation is missed
and none is reported of a candidate that the rule concludes. A variable inside an
argument is not read off the candidate, and then the first fact can speak against a
candidate that a later one supports.
-/

namespace Defeasible

variable {Time : Type}

namespace Predicate

theorem args_subst (σ : String → Term) (p : Predicate) :
    (p.subst σ).args = p.args.map (Term.subst σ) :=
  Term.substList_eq_map σ p.args

theorem arity_subst (σ : String → Term) (p : Predicate) : (p.subst σ).arity = p.arity := by
  rw [arity, args_subst, List.length_map, arity]

theorem name_positive_subst (σ : String → Term) (p : Predicate) :
    (p.subst σ).positive.name = p.positive.name := by
  rw [positive, positive]
  change (if p.isNegated then (p.subst σ).negated else p.subst σ).name = _
  split <;> rfl

theorem exists_arg_of_mem_vars {p : Predicate} {v : String} (h : v ∈ p.vars) :
    ∃ a ∈ p.args, v ∈ a.vars :=
  Term.mem_vars_app.mp (show v ∈ (Term.app p.name p.args).vars from h)

end Predicate

namespace Snapshot

/-- With the premise instance the rule draws the conclusion instance. -/
def Draws (rule : DefaultRule) (premise conclusion : Predicate) : Prop :=
  ∃ σ, rule.premise.subst σ = premise ∧ rule.conclusion.subst σ = conclusion

/-- The rule draws from the premise a conclusion about the candidate's arguments that is
not the candidate. -/
structure Violates (rule : DefaultRule) (candidate premise expected : Predicate) : Prop where
  drawn : Draws rule premise expected
  ground : expected.isGround = true
  other : expected ≠ candidate
  name : expected.positive.name = candidate.positive.name
  arity : expected.arity = candidate.arity
  same : ∀ (i : Nat) (v : String), rule.conclusion.args[i]? = some (.var v) →
    expected.args[i]? = candidate.args[i]?

/-- Every variable of the conclusion stands as an argument by itself. -/
def FlatConclusion (rule : DefaultRule) : Prop :=
  ∀ v ∈ rule.conclusion.vars, .var v ∈ rule.conclusion.args

/-- Some variable of the conclusion is read off neither the premise nor the candidate. -/
def OpenConclusion (rule : DefaultRule) : Prop :=
  ∃ v ∈ rule.conclusion.vars, v ∉ rule.premise.vars ∧ .var v ∉ rule.conclusion.args

variable {kb : Snapshot Time} {rule : DefaultRule} {candidate fact premise expected : Predicate}
  {σ τ : String → Term}

section FitsBy

theorem agrees_args_subst (σ : String → Term) (p : Predicate) :
    Agrees σ p.args (p.subst σ).args := by
  rw [Predicate.args_subst]
  exact (agrees_iff (List.length_map _).symm).mpr fun _ _ _ => rfl

theorem FitsBy.of_draws (hpremise : rule.premise.subst σ = fact)
    (hconclusion : rule.conclusion.subst σ = candidate) : FitsBy σ rule candidate fact :=
  ⟨hconclusion ▸ agrees_args_subst σ rule.conclusion, hpremise⟩

/-- A rule is violated by what it draws from a fact that fits by the same assignment. -/
theorem violates_iff : Violates rule candidate premise expected ↔
    Fits rule candidate premise ∧ (expected.isGround = true ∧ expected ≠ candidate) ∧
      ∃ σ, FitsBy σ rule candidate premise ∧ rule.conclusion.subst σ = expected := by
  constructor
  · rintro ⟨⟨σ, hpremise, rfl⟩, hground, hother, hname, harity, hsame⟩
    rw [Predicate.arity_subst] at harity
    rw [Predicate.name_positive_subst] at hname
    rw [Predicate.args_subst, ← agrees_iff harity] at hsame
    have hfits : FitsBy σ rule candidate premise := ⟨hsame, hpremise⟩
    refine ⟨⟨hname.symm, ?_, σ, hfits⟩, ⟨hground, hother⟩, σ, hfits, rfl⟩
    rw [Predicate.arity_positive, harity]
  · rintro ⟨⟨hname, harity, -⟩, ⟨hground, hother⟩, σ, ⟨hagrees, hpremise⟩, rfl⟩
    rw [Predicate.arity_positive] at harity
    refine ⟨⟨σ, hpremise, rfl⟩, hground, hother, ?_, ?_, ?_⟩
    · rw [Predicate.name_positive_subst, hname]
    · rw [Predicate.arity_subst, harity]
    · rw [Predicate.args_subst]
      exact (agrees_iff harity.symm).mp hagrees

theorem flatConclusion_of_args
    (h : ∀ a ∈ rule.conclusion.args, (∃ v, a = .var v) ∨ a.isGround = true) :
    FlatConclusion rule := by
  intro v hv
  obtain ⟨a, ha, hva⟩ := Predicate.exists_arg_of_mem_vars hv
  obtain ⟨w, rfl⟩ | hground := h a ha
  · exact Term.mem_vars_var.mp hva ▸ ha
  · exact absurd hva (Term.isGround_iff.mp hground v)

theorem Agrees.conclusion_subst (hσ : Agrees σ rule.conclusion.args candidate.args)
    (hτ : Agrees τ rule.conclusion.args candidate.args) (hflat : FlatConclusion rule)
    (hlength : rule.conclusion.args.length = candidate.args.length) :
    rule.conclusion.subst τ = rule.conclusion.subst σ :=
  Predicate.subst_congr fun v hv => (hσ.at_var hlength.le (hflat v hv)).2 τ hτ

theorem mem_args_of_not_open (hclosed : ¬ OpenConclusion rule) {v : String}
    (hv : v ∈ rule.conclusion.vars) (hpremise : v ∉ rule.premise.vars) :
    .var v ∈ rule.conclusion.args := by
  by_contra harg
  exact hclosed ⟨v, hv, hpremise, harg⟩

/-- A fact leaves no choice of a conclusion that is not open. -/
theorem FitsBy.conclusion_subst (hσ : FitsBy σ rule candidate fact)
    (hτ : FitsBy τ rule candidate fact) (hclosed : ¬ OpenConclusion rule)
    (hlength : rule.conclusion.args.length = candidate.args.length) :
    rule.conclusion.subst τ = rule.conclusion.subst σ := by
  refine Predicate.subst_congr fun v hv => ?_
  by_cases hpremise : v ∈ rule.premise.vars
  · exact Predicate.eq_of_subst_eq (hτ.2.trans hσ.2.symm) v hpremise
  · exact (hσ.1.at_var hlength.le (mem_args_of_not_open hclosed hv hpremise)).2 τ hτ.1

theorem FitsBy.isGround_conclusion (hσ : FitsBy σ rule candidate fact)
    (hclosed : ¬ OpenConclusion rule) (hcandidate : candidate.isGround = true)
    (hfact : fact.isGround = true)
    (hlength : rule.conclusion.args.length = candidate.args.length) :
    (rule.conclusion.subst σ).isGround = true := by
  rw [Predicate.isGround_iff]
  intro w hw
  obtain ⟨v, hv, hw⟩ := Predicate.mem_vars_subst.mp hw
  by_cases hpremise : v ∈ rule.premise.vars
  · refine Predicate.isGround_iff.mp hfact w ?_
    rw [← hσ.2]
    exact Predicate.mem_vars_subst.mpr ⟨v, hpremise, hw⟩
  · have hvalue := (hσ.1.at_var hlength.le (mem_args_of_not_open hclosed hv hpremise)).1
    exact Term.isGround_iff.mp (Predicate.isGround_of_mem_args hcandidate hvalue) w hw

/-- The variable that the premise and the candidate leave open can be given any value. -/
theorem FitsBy.exists_other (hσ : FitsBy σ rule candidate fact) (hopen : OpenConclusion rule) :
    ∃ τ, FitsBy τ rule candidate fact ∧ rule.conclusion.subst τ ≠ rule.conclusion.subst σ := by
  obtain ⟨v, hv, hpremise, harg⟩ := hopen
  have hother : ∀ w, w ≠ v → Function.update σ v (.app "" [σ v]) w = σ w :=
    fun w hw => Function.update_of_ne hw _ _
  refine ⟨Function.update σ v (.app "" [σ v]), ⟨fun w t ht => ?_, ?_⟩, fun heq => ?_⟩
  · have hne : w ≠ v := fun hw => harg (hw ▸ (List.of_mem_zip ht).1)
    rw [hother w hne, hσ.1 w t ht]
  · rw [← hσ.2]
    exact Predicate.subst_congr fun w hw => hother w fun hwv => hpremise (hwv ▸ hw)
  · have hsize := congrArg Term.size (Predicate.eq_of_subst_eq heq v hv)
    rw [Function.update_self, Term.size, Term.sizeList, Term.sizeList] at hsize
    omega

end FitsBy

section Agreement

theorem Draws.concerns (h : Draws rule fact candidate) (hforce : kb.isExcepted rule fact = false) :
    kb.Concerns rule candidate fact := by
  obtain ⟨σ, hpremise, hconclusion⟩ := h
  refine ⟨hforce, ?_, ?_, σ, FitsBy.of_draws hpremise hconclusion⟩
  · rw [← hconclusion, Predicate.name_positive_subst]
  · rw [← hconclusion, Predicate.arity_subst, Predicate.arity_positive]

theorem defaultViolation_eq_none_of_open (hground : ∀ p ∈ kb.predicates, p.isGround = true)
    (hcandidate : candidate.isGround = true) (hopen : OpenConclusion rule) :
    kb.defaultViolation rule candidate = none := by
  rw [Option.eq_none_iff_forall_ne_some]
  rintro ⟨premise, expected⟩ h
  obtain ⟨hconcerns, -, hall⟩ := (defaultViolation_iff hground hcandidate).mp h
  obtain ⟨σ, hσ⟩ := hconcerns.concerns.2.exists_fitsBy
  obtain ⟨τ, hτ, hne⟩ := hσ.exists_other hopen
  exact hne ((hall τ hτ).trans (hall σ hσ).symm)

theorem defaultViolation_eq_none_of_draws (hground : ∀ p ∈ kb.predicates, p.isGround = true)
    (hcandidate : candidate.isGround = true) (hfact : kb.ConcernsFirst rule candidate fact)
    (hdraws : Draws rule fact candidate) : kb.defaultViolation rule candidate = none := by
  rw [Option.eq_none_iff_forall_ne_some]
  rintro ⟨premise, expected⟩ h
  obtain ⟨hconcerns, ⟨-, hother⟩, hall⟩ := (defaultViolation_iff hground hcandidate).mp h
  obtain rfl := hfact.unique hconcerns
  obtain ⟨σ, hpremise, hconclusion⟩ := hdraws
  exact hother ((hall σ (.of_draws hpremise hconclusion)).symm.trans hconclusion)

/-- A candidate that the rule concludes from some stored fact in force is not reported
exactly if the rule concludes it from the first fact that concerns it, or leaves its
conclusion open. If the conclusion is flat, it is not reported at all. -/
theorem defaultViolation_eq_none_iff_of_agreeing (kb : Snapshot Time) (rule : DefaultRule)
    (candidate : Predicate) (hground : ∀ p ∈ kb.predicates, p.isGround = true)
    (hcandidate : candidate.isGround = true)
    (hagreeing : ∃ p ∈ kb.predicates, kb.isExcepted rule p = false ∧ Draws rule p candidate) :
    (kb.defaultViolation rule candidate = none ↔
      OpenConclusion rule ∨ ∃ first, kb.ConcernsFirst rule candidate first ∧
        Draws rule first candidate) ∧
    (FlatConclusion rule → kb.defaultViolation rule candidate = none) := by
  obtain ⟨p, hp, hforce, hdraws⟩ := hagreeing
  obtain ⟨first, hfirst⟩ := exists_concernsFirst hp (hdraws.concerns hforce)
  have hfits := hfirst.concerns.2
  obtain ⟨σ, hσ⟩ := hfits.exists_fitsBy
  constructor
  · constructor
    · intro hnone
      by_contra hneither
      obtain ⟨hclosed, hother⟩ := not_or.mp hneither
      have hground' := hσ.isGround_conclusion hclosed hcandidate (hground _ hfirst.mem)
        hfits.length_args
      have hne : rule.conclusion.subst σ ≠ candidate :=
        fun heq => hother ⟨first, hfirst, σ, hσ.2, heq⟩
      have hsome := (defaultViolation_iff hground hcandidate).mpr ⟨hfirst, ⟨hground', hne⟩,
        fun τ hτ => hσ.conclusion_subst hτ hclosed hfits.length_args⟩
      rw [hnone] at hsome
      cases hsome
    · rintro (hopen | ⟨q, hq, hdraws'⟩)
      · exact defaultViolation_eq_none_of_open hground hcandidate hopen
      · exact defaultViolation_eq_none_of_draws hground hcandidate hq hdraws'
  · intro hflat
    obtain ⟨τ, hpremise, hconclusion⟩ := hdraws
    have hτ : FitsBy τ rule candidate p := .of_draws hpremise hconclusion
    have hsame := hτ.1.conclusion_subst hσ.1 hflat hfits.length_args
    exact defaultViolation_eq_none_of_draws hground hcandidate hfirst
      ⟨σ, hσ.2, hsame.trans hconclusion⟩

/-- The first acquaintance is excepted, so that the second is looked at. -/
theorem defaultViolation_eq_none_iff_of_agreeing_second_friend :
    let rule : DefaultRule :=
      { premise := ⟨"Knows", [.var "x", .var "y"]⟩
        conclusion := ⟨"Greets", [.var "x", .app "friend" [.var "y"]]⟩ }
    let bob : Predicate := ⟨"Knows", [.const "Ann", .const "Bob"]⟩
    let cid : Predicate := ⟨"Knows", [.const "Ann", .const "Cid"]⟩
    let kb : Snapshot Nat := { facts := [⟨bob, none⟩, ⟨cid, none⟩], exceptions := [⟨rule, bob⟩] }
    let candidate : Predicate := ⟨"Greets", [.const "Ann", .app "friend" [.const "Cid"]]⟩
    (∃ p ∈ kb.predicates, kb.isExcepted rule p = false ∧ Draws rule p candidate) ∧
      kb.defaultViolation rule candidate = none := by
  intro rule bob cid kb candidate
  have hground : ∀ p ∈ kb.predicates, p.isGround = true := by decide
  have hdraws : Draws rule cid candidate :=
    ⟨fun v => if v = "x" then .const "Ann" else .const "Cid", by decide, by decide⟩
  have hcid : kb.isExcepted rule cid = false := by decide
  have hagreeing : ∃ p ∈ kb.predicates, kb.isExcepted rule p = false ∧ Draws rule p candidate :=
    ⟨cid, by decide, hcid, hdraws⟩
  have hfirst : kb.ConcernsFirst rule candidate cid := by
    refine ⟨[bob], [], rfl, hdraws.concerns hcid, ?_⟩
    rintro p hp ⟨hforce, -⟩
    obtain rfl := List.mem_singleton.mp hp
    exact absurd hforce (by decide)
  exact ⟨hagreeing, (defaultViolation_eq_none_iff_of_agreeing kb rule candidate hground (by decide)
    hagreeing).1.mpr (.inr ⟨cid, hfirst, hdraws⟩)⟩

/-- The variable of the friend is not read off the candidate, and of Ann's acquaintances
the first is taken. The candidate agrees with the rule for the second. -/
theorem defaultViolation_blames_agreeing :
    let rule : DefaultRule :=
      { premise := ⟨"Knows", [.var "x", .var "y"]⟩
        conclusion := ⟨"Greets", [.var "x", .app "friend" [.var "y"]]⟩ }
    let bob : Predicate := ⟨"Knows", [.const "Ann", .const "Bob"]⟩
    let cid : Predicate := ⟨"Knows", [.const "Ann", .const "Cid"]⟩
    let kb : Snapshot Nat := { facts := [⟨bob, none⟩, ⟨cid, none⟩] }
    let candidate : Predicate := ⟨"Greets", [.const "Ann", .app "friend" [.const "Cid"]]⟩
    (∀ p ∈ kb.predicates, p.isGround = true) ∧ candidate.isGround = true ∧
      (∃ p ∈ kb.predicates, kb.isExcepted rule p = false ∧ Draws rule p candidate) ∧
      kb.defaultViolation rule candidate =
        some (bob, ⟨"Greets", [.const "Ann", .app "friend" [.const "Bob"]]⟩) := by
  intro rule bob cid kb candidate
  refine ⟨by decide, by decide, ⟨cid, by decide, by decide, ?_⟩, by decide⟩
  exact ⟨fun v => if v = "x" then .const "Ann" else .const "Cid", by decide, by decide⟩

end Agreement

/-- A reported violation names a stored fact in force and what the rule draws from it. If
the conclusion's arguments are variables or ground, every violation is reported. -/
theorem defaultViolation_sound_and_exact (kb : Snapshot Time) (rule : DefaultRule)
    (candidate : Predicate) (hground : ∀ p ∈ kb.predicates, p.isGround = true)
    (hcandidate : candidate.isGround = true) :
    (∀ premise expected, kb.defaultViolation rule candidate = some (premise, expected) →
      premise ∈ kb.predicates ∧ kb.isExcepted rule premise = false ∧
        Violates rule candidate premise expected) ∧
    ((∀ a ∈ rule.conclusion.args, (∃ v, a = .var v) ∨ a.isGround = true) →
      ∀ premise ∈ kb.predicates, kb.isExcepted rule premise = false →
        ∀ expected, Violates rule candidate premise expected →
          kb.defaultViolation rule candidate ≠ none) := by
  constructor
  · intro premise expected h
    obtain ⟨hfirst, hexpected, hall⟩ := (defaultViolation_iff hground hcandidate).mp h
    obtain ⟨hforce, hfits⟩ := hfirst.concerns
    obtain ⟨σ, hσ⟩ := hfits.exists_fitsBy
    exact ⟨hfirst.mem, hforce, violates_iff.mpr ⟨hfits, hexpected, σ, hσ, hall σ hσ⟩⟩
  · intro hargs premise hpremise hforce expected hviolates
    obtain ⟨hfits, hexpected, σ, hσ, hconclusion⟩ := violates_iff.mp hviolates
    obtain ⟨first, hfirst⟩ := exists_concernsFirst hpremise ⟨hforce, hfits⟩
    have hflat := flatConclusion_of_args hargs
    -- Whichever fact comes first, a flat conclusion is the same.
    have hsome := (defaultViolation_iff hground hcandidate).mpr ⟨hfirst, hexpected,
      fun τ hτ => (hσ.1.conclusion_subst hτ.1 hflat hfits.length_args).trans hconclusion⟩
    rw [hsome]
    exact Option.some_ne_none _

/-- The conclusion names the bird twice and denies what the candidate states. The premise
has a variable of its own, and its first instance is about another bird. -/
theorem defaultViolation_sound_and_exact_at_sea :
    let rule : DefaultRule :=
      { premise := ⟨"Seen", [.var "x", .var "y"]⟩
        conclusion := ⟨"NotRests", [.var "x", .const "Sea", .var "x"]⟩ }
    let seen : Predicate := ⟨"Seen", [.const "Tux", .const "Coast"]⟩
    let kb : Snapshot Nat :=
      { facts := [⟨⟨"Seen", [.const "Rex", .const "Coast"]⟩, none⟩, ⟨seen, none⟩] }
    let candidate : Predicate := ⟨"Rests", [.const "Tux", .const "Sea", .const "Tux"]⟩
    kb.defaultViolation rule candidate ≠ none ∧
      ∀ premise expected, kb.defaultViolation rule candidate = some (premise, expected) →
        premise ∈ kb.predicates ∧ Violates rule candidate premise expected := by
  intro rule seen kb candidate
  have hground : ∀ p ∈ kb.predicates, p.isGround = true := by decide
  obtain ⟨hsound, hexact⟩ :=
    defaultViolation_sound_and_exact kb rule candidate hground (by decide)
  have hargs : ∀ a ∈ rule.conclusion.args, (∃ v, a = .var v) ∨ a.isGround = true := by
    simp [rule, Term.isGround]
  have hviolates : Violates rule candidate seen candidate.negated := by
    refine ⟨⟨fun v => if v = "x" then .const "Tux" else .const "Coast", by decide, by decide⟩,
      by decide, by decide, by decide, by decide, ?_⟩
    exact fun _ _ _ => rfl
  refine ⟨hexact hargs seen (by decide) (by decide) _ hviolates, fun premise expected h => ?_⟩
  exact ⟨(hsound premise expected h).1, (hsound premise expected h).2.2⟩

end Snapshot
end Defeasible
