import Mathlib.Data.Finset.Option
import Mathlib.Data.Finset.Prod
import Mathlib.Logic.Function.Iterate
import Defeasible.Proofs.Resolution
import Defeasible.Proofs.Violation

/-!
Correcting a knowledge base. One correction takes a side of every contradiction away and
excepts the reported premise of every violation by a fact that stays. It leaves no
contradiction, but a violation is reported for its first premise only, and the next premise
may violate the same rule. Where every fact leaves a rule at most one premise, one correction
is enough. In any case each correction uses up a fact or a rule in force for a fact, so that
finitely many of them are enough.
-/

namespace Defeasible

variable {Time : Type}

namespace Conflict

variable {d : Conflict}

theorem losers_of_violation (h : d.isContradiction = false) : d.losers = [] := by
  obtain ⟨candidate, certainty, kind⟩ := d
  cases kind with
  | contradiction => cases h
  | violation => rfl

theorem exception?_of_contradiction (h : d.isContradiction = true) : d.exception? = none := by
  obtain ⟨candidate, certainty, kind⟩ := d
  cases kind with
  | contradiction => rfl
  | violation => cases h

theorem losers_contradictions (cs : List Conflict) :
    (cs.filter isContradiction).flatMap losers = cs.flatMap losers := by
  induction cs with
  | nil => rfl
  | cons d cs ih =>
      by_cases hd : d.isContradiction = true
      · simp [hd, ih]
      · simp [hd, ih, losers_of_violation]

theorem losers_violations (cs : List Conflict) (f : Conflict → Bool) :
    ((cs.filter (not ∘ isContradiction)).filter f).flatMap losers = [] := by
  simp only [List.flatMap_eq_nil_iff, List.mem_filter]
  exact fun d hd => losers_of_violation (by simpa using hd.1.2)

theorem exceptions_contradictions (cs : List Conflict) :
    (cs.filter isContradiction).filterMap exception? = [] := by
  simp only [List.filterMap_eq_nil_iff, List.mem_filter]
  exact fun d hd => exception?_of_contradiction hd.2

theorem exceptions_violations (cs : List Conflict) (f : Conflict → Bool) :
    ((cs.filter (not ∘ isContradiction)).filter f).filterMap exception? =
      (cs.filter f).filterMap exception? := by
  rw [List.filter_filter, List.filterMap_filter, List.filterMap_filter]
  refine List.filterMap_congr fun d _ => ?_
  by_cases hd : d.isContradiction = true
  · simp [exception?_of_contradiction hd]
  · simp [hd]

end Conflict

namespace KnowledgeBase

variable {kb : KnowledgeBase Time} {p : Predicate} {d : Conflict} {e : RuleException}

/-- The facts that contradictions cost. -/
def losers (kb : KnowledgeBase Time) : List Predicate :=
  kb.snapshot.detectAll.flatMap Conflict.losers

/-- The knowledge base after one correction. -/
def corrected (kb : KnowledgeBase Time) : KnowledgeBase Time :=
  let kept := kb.removeAll kb.losers
  let surviving := kb.snapshot.detectAll.filter fun d => kept.containsFact d.candidate
  { kept with exceptions := addExceptions kb.exceptions (surviving.filterMap Conflict.exception?) }

theorem exceptions_removeAll (kb : KnowledgeBase Time) (ps : List Predicate) :
    (kb.removeAll ps).exceptions = kb.exceptions := by
  have hkb : kb.removeAll ps = { kb.removeAll ps with exceptions := kb.exceptions } :=
    removeAll_withExceptions kb ps kb.exceptions
  rw [hkb]

theorem applyStrategy_contradictions (kb : KnowledgeBase Time) :
    (kb.applyStrategy (plan (kb.snapshot.detectAll.filter Conflict.isContradiction))).2 =
      kb.removeAll kb.losers := by
  rw [applyStrategy_plan, Conflict.losers_contradictions, Conflict.exceptions_contradictions]
  exact (removeAll_withExceptions kb kb.losers kb.exceptions).symm

theorem applyStrategy_violations (kb : KnowledgeBase Time) (cs : List Conflict)
    (f : Conflict → Bool) :
    (kb.applyStrategy (plan ((cs.filter (not ∘ Conflict.isContradiction)).filter f))).2 =
      { kb with
        exceptions := addExceptions kb.exceptions
          ((cs.filter f).filterMap Conflict.exception?) } := by
  rw [applyStrategy_plan, Conflict.losers_violations, Conflict.exceptions_violations]
  rfl

theorem detectAll_cases (h : d ∈ kb.snapshot.detectAll) : d.candidate ∈ kb.facts.keys ∧
    (d.isContradiction = true ∧ d.candidate.isNegated = false ∧
        d.candidate.negated ∈ kb.facts.keys ∨
      ∃ rule premise expected, rule ∈ kb.defaultRules ∧ d.kind = .violation rule premise expected ∧
        kb.snapshot.defaultViolation rule d.candidate = some (premise, expected)) := by
  have hkeys : ∀ f ∈ kb.snapshot.facts, f.predicate ∈ kb.facts.keys := fun f hf => by
    rw [← snapshot_predicates]
    exact List.mem_map_of_mem hf
  obtain hd | hd := List.mem_append.mp h
  · obtain ⟨f, hf, hd⟩ := List.mem_filterMap.mp hd
    obtain ⟨hf, hpositive⟩ := List.mem_filter.mp hf
    rw [contradiction?_snapshot] at hd
    obtain ⟨e, he, rfl⟩ := Option.map_eq_some_iff.mp hd
    exact ⟨hkeys f hf, .inl ⟨rfl, by simpa using hpositive, mem_keys_iff_certainty?.mpr ⟨e, he⟩⟩⟩
  · obtain ⟨f, hf, hd⟩ := List.mem_flatMap.mp hd
    obtain ⟨rule, premise, expected, rfl, hrule, hviolation⟩ := kind_of_mem_violations hd
    exact ⟨hkeys f hf, .inr ⟨rule, premise, expected, hrule, rfl, hviolation⟩⟩

/-- The contradictions of a sweep are those of the stored facts without the mark with their
stored negations. -/
theorem exists_contradiction_detectAll {Q : Conflict → Predicate → Certainty → Prop} :
    (∃ d ∈ kb.snapshot.detectAll, ∃ existing e,
      d.kind = .contradiction existing e ∧ Q d existing e) ↔
    ∃ c k e, c.isNegated = false ∧ kb.certainty? c = some k ∧ kb.certainty? c.negated = some e ∧
      Q ⟨c, k, .contradiction c.negated e⟩ c.negated e := by
  constructor
  · rintro ⟨d, hd, existing, e, hkind, hQ⟩
    obtain hd | hd := List.mem_append.mp hd
    · obtain ⟨f, hf, hd⟩ := List.mem_filterMap.mp hd
      obtain ⟨hf, hmark⟩ := List.mem_filter.mp hf
      rw [contradiction?_snapshot] at hd
      obtain ⟨e', he', rfl⟩ := Option.map_eq_some_iff.mp hd
      cases hkind
      exact ⟨f.predicate, f.certainty, _, by simpa using hmark,
        certainty?_eq_some_iff_mem.mpr ⟨f, hf, rfl, rfl⟩, he', hQ⟩
    · obtain ⟨f, -, hd⟩ := List.mem_flatMap.mp hd
      obtain ⟨rule, premise, expected, rfl, -⟩ := kind_of_mem_violations hd
      cases hkind
  · rintro ⟨c, k, e, hmark, hc, he, hQ⟩
    obtain ⟨f, hf, rfl, rfl⟩ := certainty?_eq_some_iff_mem.mp hc
    refine ⟨_, List.mem_append_left _ (List.mem_filterMap.mpr ⟨f, ?_, ?_⟩), _, e, rfl, hQ⟩
    · exact List.mem_filter.mpr ⟨hf, by simp [hmark]⟩
    · rw [contradiction?_snapshot, he, Option.map_some]

theorem mem_losers_detectAll : p ∈ kb.losers ↔ ∃ c k e, c.isNegated = false ∧
    kb.certainty? c = some k ∧ kb.certainty? c.negated = some e ∧
      (p = c.negated ∧ ¬ k < e ∨ p = c ∧ ¬ e < k) := by
  rw [losers, List.mem_flatMap]
  simp only [Conflict.mem_losers]
  exact exists_contradiction_detectAll

/-- Whichever side of a contradiction is more certain, one of them is lost. -/
theorem loser_of_contradiction (hp : p ∈ kb.facts.keys) (hn : p.negated ∈ kb.facts.keys)
    (hpositive : p.isNegated = false) : p ∈ kb.losers ∨ p.negated ∈ kb.losers := by
  obtain ⟨k, hk⟩ := mem_keys_iff_certainty?.mp hp
  obtain ⟨e, he⟩ := mem_keys_iff_certainty?.mp hn
  rw [mem_losers_detectAll, mem_losers_detectAll]
  by_cases hlt : e < k
  · exact .inr ⟨p, k, e, hpositive, hk, he, .inl ⟨rfl, Certainty.not_lt_of_lt hlt⟩⟩
  · exact .inl ⟨p, k, e, hpositive, hk, he, .inr ⟨rfl, hlt⟩⟩

theorem exists_violation_detectAll {rule : DefaultRule} {premise expected : Predicate}
    (hp : p ∈ kb.facts.keys) (hrule : rule ∈ kb.defaultRules)
    (h : kb.snapshot.defaultViolation rule p = some (premise, expected)) :
    ∃ d ∈ kb.snapshot.detectAll, d.candidate = p ∧ d.exception? = some ⟨rule, premise⟩ := by
  rw [← snapshot_predicates] at hp
  obtain ⟨f, hf, rfl⟩ := List.mem_map.mp hp
  refine ⟨⟨f.predicate, f.certainty, .violation rule premise expected⟩, ?_, rfl, rfl⟩
  refine List.mem_append_right _ (List.mem_flatMap.mpr ⟨f, hf, List.mem_filterMap.mpr ?_⟩)
  exact ⟨rule, hrule, by rw [h, Option.map_some]⟩

theorem Placed.mem_keys_corrected (h : kb.Placed) :
    p ∈ kb.corrected.facts.keys ↔ p ∈ kb.facts.keys ∧ p ∉ kb.losers := by
  rw [OrderedMap.mem_keys_iff, OrderedMap.mem_keys_iff, corrected, get?_removeAll]
  by_cases hloses : p ∈ kb.losers ∧ p.isTimed = false
  · simp [hloses]
  · rw [if_neg hloses]
    refine ⟨fun hp => ⟨hp, fun hmem => hloses ⟨hmem, ?_⟩⟩, And.left⟩
    exact (h.facts p (OrderedMap.mem_keys_iff.mpr hp)).2

theorem Placed.mem_exceptions_corrected (h : kb.Placed) : e ∈ kb.corrected.exceptions ↔
    e ∈ kb.exceptions ∨ ∃ d ∈ kb.snapshot.detectAll, d.candidate ∈ kb.corrected.facts.keys ∧
      d.exception? = some e := by
  have hkept : ∀ d ∈ kb.snapshot.detectAll,
      ((kb.removeAll kb.losers).containsFact d.candidate = true ↔
        d.candidate ∈ kb.corrected.facts.keys) := fun d hd => by
    have hkeys := (detectAll_cases hd).1
    rw [containsFact_removeAll, h.mem_keys_corrected, and_iff_right hkeys,
      and_iff_right (h.containsFact_of_mem_keys hkeys)]
  rw [corrected, mem_addExceptions, List.mem_filterMap]
  simp only [List.mem_filter, and_assoc]
  exact or_congr_right (exists_congr fun d => and_congr_right fun hd =>
    and_congr_left' (hkept d hd))

theorem defaultRules_corrected (kb : KnowledgeBase Time) :
    kb.corrected.defaultRules = kb.defaultRules :=
  (rules_removeAll kb kb.losers).2

theorem isExcepted_of_corrected {rule : DefaultRule}
    (h : kb.corrected.snapshot.isExcepted rule p = false) :
    kb.snapshot.isExcepted rule p = false := by
  rw [← Bool.not_eq_true, Snapshot.isExcepted_iff] at h ⊢
  exact fun hexcepted => h (prefix_addExceptions.mem hexcepted)

/-- What a fact that stays violates is out of force afterwards for the premise reported. -/
theorem Placed.excepted_corrected (h : kb.Placed) {rule : DefaultRule}
    {premise expected : Predicate} (hp : p ∈ kb.corrected.facts.keys)
    (hrule : rule ∈ kb.defaultRules)
    (hviolation : kb.snapshot.defaultViolation rule p = some (premise, expected)) :
    kb.corrected.snapshot.isExcepted rule premise = true := by
  have hbefore := (h.mem_keys_corrected.mp hp).1
  obtain ⟨d, hd, rfl, hexception⟩ := exists_violation_detectAll hbefore hrule hviolation
  rw [Snapshot.isExcepted_iff]
  exact h.mem_exceptions_corrected.mpr (.inr ⟨d, hd, hp, hexception⟩)

theorem Placed.no_contradiction_corrected (h : kb.Placed)
    (hd : d ∈ kb.corrected.snapshot.detectAll) : d.isContradiction = false := by
  obtain ⟨hcandidate, ⟨-, hpositive, hnegated⟩ | ⟨rule, premise, expected, -, hkind, -⟩⟩ :=
    detectAll_cases hd
  · rw [h.mem_keys_corrected] at hcandidate hnegated
    obtain hloses | hloses := loser_of_contradiction hcandidate.1 hnegated.1 hpositive
    · exact absurd hloses hcandidate.2
    · exact absurd hloses hnegated.2
  · rw [Conflict.isContradiction, hkind]

/-- For a fact and a default rule there is at most one premise in force that fits. -/
def SinglePremise (kb : KnowledgeBase Time) : Prop :=
  ∀ rule ∈ kb.defaultRules, ∀ c ∈ kb.facts.keys, ∀ p ∈ kb.facts.keys, ∀ q ∈ kb.facts.keys,
    kb.snapshot.isExcepted rule p = false → kb.snapshot.isExcepted rule q = false →
    Snapshot.Fits rule c p → Snapshot.Fits rule c q → p = q

theorem Placed.detectAll_corrected (h : kb.Placed) (hsingle : kb.SinglePremise) :
    kb.corrected.snapshot.detectAll = [] := by
  refine List.eq_nil_iff_forall_not_mem.mpr fun d hd => ?_
  have hkind := h.no_contradiction_corrected hd
  obtain ⟨hcandidate, hcontradiction | ⟨rule, premise, expected, hrule, -, hviolation⟩⟩ :=
    detectAll_cases hd
  · rw [hcontradiction.1] at hkind
    cases hkind
  · have hsurvives := (h.mem_keys_corrected.mp hcandidate).1
    rw [defaultRules_corrected] at hrule
    have hground : ∀ p ∈ kb.facts.keys, p.isGround = true := fun p hp =>
      isGround_of_validateFact (h.facts p hp).1
    have hbefore : kb.snapshot.defaultViolation rule d.candidate = some (premise, expected) := by
      refine Snapshot.defaultViolation_of_single ?_ (hground _ hsurvives) ?_ ?_
        (fun p => isExcepted_of_corrected) hviolation
      · rwa [snapshot_predicates]
      · rw [snapshot_predicates]
        exact hsingle rule hrule d.candidate hsurvives
      · rw [snapshot_predicates, snapshot_predicates]
        exact fun p hp => (h.mem_keys_corrected.mp hp).1
    -- The same premise was reported before, so the correction has excepted it.
    have hforce := (Snapshot.mem_of_defaultViolation hviolation).2
    rw [h.excepted_corrected hcandidate hrule hbefore] at hforce
    cases hforce

/-- What corrections can use up: the facts, and the default rules in force for each. -/
def correctable (kb : KnowledgeBase Time) : Finset (Predicate × Option DefaultRule) :=
  (kb.facts.keys.toFinset ×ˢ kb.defaultRules.toFinset.insertNone).filter fun x =>
    x.2.all fun rule => !kb.snapshot.isExcepted rule x.1

theorem mem_correctable_fact : (p, none) ∈ kb.correctable ↔ p ∈ kb.facts.keys := by
  simp [correctable]

theorem mem_correctable_rule {rule : DefaultRule} : (p, some rule) ∈ kb.correctable ↔
    p ∈ kb.facts.keys ∧ rule ∈ kb.defaultRules ∧ kb.snapshot.isExcepted rule p = false := by
  simp [correctable, and_assoc]

theorem card_correctable_le (kb : KnowledgeBase Time) :
    kb.correctable.card ≤ kb.facts.size * (kb.defaultRules.length + 1) := by
  calc kb.correctable.card
      ≤ (kb.facts.keys.toFinset ×ˢ kb.defaultRules.toFinset.insertNone).card :=
        Finset.card_filter_le _ _
    _ = kb.facts.keys.toFinset.card * (kb.defaultRules.toFinset.card + 1) := by
        rw [Finset.card_product, Finset.card_insertNone]
    _ ≤ kb.facts.keys.length * (kb.defaultRules.length + 1) :=
        Nat.mul_le_mul (List.toFinset_card_le _) (Nat.succ_le_succ (List.toFinset_card_le _))
    _ = kb.facts.size * (kb.defaultRules.length + 1) := by rw [OrderedMap.length_keys]

theorem Placed.correctable_corrected_subset (h : kb.Placed) :
    kb.corrected.correctable ⊆ kb.correctable := by
  intro x hx
  obtain ⟨p, _ | rule⟩ := x
  · rw [mem_correctable_fact, h.mem_keys_corrected] at hx
    exact mem_correctable_fact.mpr hx.1
  · rw [mem_correctable_rule, h.mem_keys_corrected, defaultRules_corrected] at hx
    exact mem_correctable_rule.mpr ⟨hx.1.1, hx.2.1, isExcepted_of_corrected hx.2.2⟩

theorem Placed.card_correctable_lt (h : kb.Placed) (hd : d ∈ kb.snapshot.detectAll) :
    kb.corrected.correctable.card < kb.correctable.card := by
  suffices hused : ∃ x ∈ kb.correctable, x ∉ kb.corrected.correctable by
    obtain ⟨x, hx, hnot⟩ := hused
    exact Finset.card_lt_card ⟨h.correctable_corrected_subset, fun hback => hnot (hback hx)⟩
  have hlost : ∀ p ∈ kb.facts.keys, p ∈ kb.losers →
      ∃ x ∈ kb.correctable, x ∉ kb.corrected.correctable := fun p hp hloses =>
    ⟨(p, none), mem_correctable_fact.mpr hp, fun hx =>
      (h.mem_keys_corrected.mp (mem_correctable_fact.mp hx)).2 hloses⟩
  obtain ⟨hcandidate, ⟨-, hpositive, hnegated⟩ | ⟨rule, premise, expected, hrule, -, hviolation⟩⟩ :=
    detectAll_cases hd
  · obtain hloses | hloses := loser_of_contradiction hcandidate hnegated hpositive
    · exact hlost _ hcandidate hloses
    · exact hlost _ hnegated hloses
  · by_cases hloses : d.candidate ∈ kb.losers
    · exact hlost _ hcandidate hloses
    · -- The candidate stays, so the premise uses up the rule.
      have hstays := h.mem_keys_corrected.mpr ⟨hcandidate, hloses⟩
      obtain ⟨hpremise, hforce⟩ := Snapshot.mem_of_defaultViolation hviolation
      rw [snapshot_predicates] at hpremise
      refine ⟨(premise, some rule), mem_correctable_rule.mpr ⟨hpremise, hrule, hforce⟩,
        fun hx => ?_⟩
      have hforce' := (mem_correctable_rule.mp hx).2.2
      rw [h.excepted_corrected hstays hrule hviolation] at hforce'
      cases hforce'

end KnowledgeBase

namespace Reasoner

open KnowledgeBase

variable {r : Reasoner Time}

theorem autoCorrect_kb (r : Reasoner Time) : r.autoCorrect.2.kb = r.kb.corrected := by
  simp only [corrected, ← exceptions_removeAll r.kb r.kb.losers, ← applyStrategy_violations,
    ← applyStrategy_contradictions]
  simp only [autoCorrect, List.partition_eq_filter_filter]
  split <;> rfl

/-- A sweep reports nothing, and a correction has nothing to do and keeps no record. -/
structure Consistent (r : Reasoner Time) : Prop where
  clean : r.sweep.1.inconsistencies = []
  idle : r.autoCorrect.1.corrections = 0
  unrecorded : r.autoCorrect.1.resolution = none ∧ r.autoCorrect.2.history = r.history

theorem consistent_of_detectAll (h : r.kb.snapshot.detectAll = []) : r.Consistent := by
  have hinspect : r.inspect.inconsistencies = [] := h
  have hresolution : r.autoCorrect.1.resolution = none := by simp [autoCorrect, hinspect]
  refine ⟨h, by simp [Correction.corrections, hresolution], hresolution, ?_⟩
  simp [autoCorrect, hinspect]

theorem exists_iterate_autoCorrect (hr : r.kb.Placed) : ∃ n ≤ r.kb.correctable.card,
    ((fun r : Reasoner Time => r.autoCorrect.2)^[n] r).kb.snapshot.detectAll = [] := by
  induction hcard : r.kb.correctable.card using Nat.strong_induction_on generalizing r with
  | _ card ih =>
      cases hdetect : r.kb.snapshot.detectAll with
      | nil => exact ⟨0, Nat.zero_le _, hdetect⟩
      | cons d rest =>
          have hlt : r.autoCorrect.2.kb.correctable.card < card := by
            rw [autoCorrect_kb, ← hcard]
            exact hr.card_correctable_lt (d := d) (by simp [hdetect])
          have hplaced : r.autoCorrect.2.kb.Placed :=
            (changes_autoCorrect r).invariant Placed.change hr
          obtain ⟨n, hn, hclean⟩ := ih _ hlt hplaced rfl
          exact ⟨n + 1, Nat.succ_le_of_lt (Nat.lt_of_le_of_lt hn hlt), hclean⟩

/-- A correction leaves no contradiction. It leaves no conflict at all if no fact leaves a
rule a choice of premises, and otherwise finitely many corrections together leave none. -/
theorem autoCorrect_settles (r : Reasoner Time) (hr : r.kb.Reachable) :
    (∀ d ∈ r.autoCorrect.2.sweep.1.inconsistencies, d.isContradiction = false) ∧
    (r.kb.SinglePremise → r.autoCorrect.2.Consistent) ∧
    ∃ n ≤ r.kb.facts.size * (r.kb.defaultRules.length + 1),
      ((fun r : Reasoner Time => r.autoCorrect.2)^[n] r).Consistent := by
  refine ⟨fun d hd => ?_, fun hsingle => ?_, ?_⟩
  · have hd : d ∈ r.autoCorrect.2.kb.snapshot.detectAll := hd
    rw [autoCorrect_kb] at hd
    exact hr.placed.no_contradiction_corrected hd
  · refine consistent_of_detectAll ?_
    rw [autoCorrect_kb]
    exact hr.placed.detectAll_corrected hsingle
  · obtain ⟨n, hn, hclean⟩ := exists_iterate_autoCorrect hr.placed
    exact ⟨n, hn.trans r.kb.card_correctable_le, consistent_of_detectAll hclean⟩

/-- A contradiction and a violation are settled at once: what flies is all that the premise
of the rule names. -/
theorem autoCorrect_settles_penguin :
    let bird : DefaultRule := ⟨⟨"Bird", [.var "x"]⟩, ⟨"Flies", [.var "x"]⟩, .full⟩
    let r : Reasoner Nat := List.foldl Reasoner.serve {} [.addFact ⟨"Bird", [.const "Tux"]⟩,
      .addDefaultRule bird, .addFact ⟨"NotFlies", [.const "Tux"]⟩,
      .addFact ⟨"Wet", [.const "Tux"]⟩, .addFact ⟨"NotWet", [.const "Tux"]⟩]
    r.sweep.1.inconsistencies.length = 2 ∧ r.autoCorrect.2.Consistent := by
  intro bird r
  have hsingle : r.kb.SinglePremise := by
    have hrules : r.kb.defaultRules = [bird] := by decide +kernel
    intro rule hrule c _ p _ q _ _ _ hp hq
    rw [hrules, List.mem_singleton] at hrule
    subst hrule
    refine hp.unique (fun v hv => ?_) hq
    simpa [bird, Predicate.vars, Term.varsList, Term.vars] using hv
  have hr : r.kb.Reachable := Reachable.empty.foldl_serve (r := {}) _
  exact ⟨by decide +kernel, (autoCorrect_settles r hr).2.1 hsingle⟩

/-- Both premises make the default rule expect the opposite of what is stored, but only the
first is reported and excepted. -/
theorem autoCorrect_leaves_second_premise :
    let rule : DefaultRule := ⟨⟨"Likes", [.var "x", .var "y"]⟩, ⟨"Happy", [.var "x"]⟩, .full⟩
    let r : Reasoner Nat := List.foldl Reasoner.serve {} [.addDefaultRule rule,
      .addFact ⟨"Likes", [.const "Tux", .const "Fish"]⟩,
      .addFact ⟨"Likes", [.const "Tux", .const "Snow"]⟩, .addFact ⟨"NotHappy", [.const "Tux"]⟩]
    r.kb.Reachable ∧ r.autoCorrect.2.sweep.1.inconsistencies ≠ [] ∧
      r.autoCorrect.2.autoCorrect.1.corrections = 1 := by
  intro rule r
  exact ⟨Reachable.empty.foldl_serve (r := {}) _, by decide +kernel, by decide +kernel⟩

end Reasoner

end Defeasible
