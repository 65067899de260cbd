import Defeasible.Proofs.Resolution
import Defeasible.Proofs.Violation

/-!
The gate that a candidate fact passes on its way into a knowledge base. Of a candidate and
its stored negation the strictly more certain one is kept, neither on a tie, and no other
fact is touched. The default rules that a candidate above the threshold violates are
excepted, also when the candidate itself is turned away.
-/

namespace Defeasible

variable {Time : Type}

/-- Negating a predicate changes the length of its name. -/
theorem Predicate.negated_ne (p : Predicate) : p.negated ≠ p := by
  intro h
  have hname : (negatedName? p.name).getD ("Not" ++ p.name) = p.name := congrArg Predicate.name h
  cases hrest : negatedName? p.name with
  | none =>
      rw [hrest, Option.getD_none] at hname
      have hlength := congrArg String.length hname
      simp at hlength
  | some rest =>
      rw [hrest, Option.getD_some] at hname
      subst hname
      rw [negatedName?] at hrest
      split at hrest
      next c cs hstrip =>
        have htext := Text.stripStart?_eq_some.mp hstrip
        split at hrest
        · have hlength := congrArg List.length htext
          rw [← Option.some.inj hrest] at hlength
          simp at hlength
        · cases hrest
      next => cases hrest

namespace KnowledgeBase

variable {kb : KnowledgeBase Time} {p : Predicate}

theorem insertFact_snd (kb : KnowledgeBase Time) (p : Predicate)
    (provenance : Option (Provenance Time)) :
    (kb.insertFact p provenance).2 = { kb with
      facts := if p.isTimed then kb.facts
        else kb.facts.insert p (provenance <|> (kb.facts.get? p).join)
      timed := if p.isTimed && !kb.timed.contains p then kb.timed ++ [p] else kb.timed } := by
  rw [insertFact]
  by_cases hp : p.isTimed = true
  · by_cases hmem : p ∈ kb.timed <;> simp [hp, hmem]
  · cases hget : kb.facts.get? p with
    | none => simp [hp]
    | some old => simp [hp]

theorem containsFact_insertFact (kb : KnowledgeBase Time) (p : Predicate)
    (provenance : Option (Provenance Time)) :
    (kb.insertFact p provenance).2.containsFact p = true := by
  rw [insertFact_snd, containsFact]
  by_cases hp : p.isTimed = true
  · by_cases hmem : p ∈ kb.timed <;> simp [hp, hmem]
  · simp [hp, OrderedMap.contains, OrderedMap.get?_insert_self]

theorem get?_insertFact_of_ne {q : Predicate} (h : q ≠ p) (provenance : Option (Provenance Time)) :
    (kb.insertFact p provenance).2.facts.get? q = kb.facts.get? q := by
  rw [insertFact_snd]
  by_cases hp : p.isTimed = true
  · simp [hp]
  · simp [hp, OrderedMap.get?_insert_of_ne _ _ h]

theorem timed_insertFact (kb : KnowledgeBase Time) (p : Predicate)
    (provenance : Option (Provenance Time)) :
    (kb.insertFact p provenance).2.timed.filter (· != p) = kb.timed.filter (· != p) := by
  rw [insertFact_snd]
  by_cases hnew : (p.isTimed && !kb.timed.contains p) = true
  · simp only [hnew, if_true, List.filter_append]
    simp
  · simp only [hnew]
    simp

theorem Placed.isTimed_of_get? (h : kb.Placed) {source : Option (Provenance Time)}
    (hp : kb.facts.get? p = some source) : p.isTimed = false :=
  (h.facts p (OrderedMap.mem_keys_iff.mpr ⟨source, hp⟩)).2

/-- A timed fact is never among the ordinary ones, also when it is stored again. -/
theorem Placed.get?_insertFact_self (h : kb.Placed) {provenance : Provenance Time}
    {source : Option (Provenance Time)}
    (hsource : (kb.insertFact p (some provenance)).2.facts.get? p = some source) :
    source = some provenance := by
  rw [insertFact_snd] at hsource
  by_cases hp : p.isTimed = true
  · rw [hp] at hsource
    exact absurd hp (by simp [h.isTimed_of_get? hsource])
  · simpa [hp, OrderedMap.get?_insert_self, eq_comm] using hsource

theorem Placed.applyStrategy (h : kb.Placed) (s : Strategy) : (kb.applyStrategy s).2.Placed :=
  (changes_applyActions kb s.actions).invariant Placed.change h

section Strategy

variable {c : Predicate} {k : Certainty}

theorem rejects_detect_eq_false : (plan (kb.snapshot.detect c k)).rejects c = false ↔
    ∀ e, kb.certainty? c.negated = some e → e < k := by
  rw [← Bool.not_eq_true, rejects_detect]
  simp

/-- A resolution of a candidate's conflicts touches no ordinary fact but the candidate and
its negation. -/
theorem get?_applyStrategy_of_ne (hc : p ≠ c) (hn : p ≠ c.negated) :
    (kb.applyStrategy (plan (kb.snapshot.detect c k))).2.facts.get? p = kb.facts.get? p := by
  rw [applyStrategy_plan]
  refine (get?_removeAll kb _ p).trans (if_neg ?_)
  rw [mem_losers_detect]
  simp [hc, hn]

theorem get?_applyStrategy_negated (hkb : kb.Placed) :
    (kb.applyStrategy (plan (kb.snapshot.detect c k))).2.facts.get? c.negated =
      (kb.facts.get? c.negated).filter fun provenance =>
        k < (StoredFact.mk c.negated provenance).certainty := by
  rw [applyStrategy_plan]
  refine (get?_removeAll kb _ c.negated).trans ?_
  cases hget : kb.facts.get? c.negated with
  | none => exact ite_self none
  | some provenance =>
      have htimed := hkb.isTimed_of_get? hget
      have hloses : c.negated ∈ (kb.snapshot.detect c k).flatMap Conflict.losers ↔
          ¬ k < (StoredFact.mk c.negated provenance).certainty := by
        rw [mem_losers_detect]
        simp [certainty?, hget, Predicate.negated_ne]
      by_cases hlt : k < (StoredFact.mk c.negated provenance).certainty
      · rw [if_neg fun h => hloses.mp h.1 hlt]
        exact (Option.filter_some_pos (by simpa using hlt)).symm
      · rw [if_pos ⟨hloses.mpr hlt, htimed⟩]
        exact (Option.filter_some_neg (by simpa using hlt)).symm

theorem negated_mem_keys_applyStrategy (hkb : kb.Placed) :
    c.negated ∈ (kb.applyStrategy (plan (kb.snapshot.detect c k))).2.facts.keys ↔
      ∃ e, kb.certainty? c.negated = some e ∧ k < e := by
  rw [OrderedMap.mem_keys_iff, get?_applyStrategy_negated hkb]
  simp only [Option.filter_eq_some_iff, decide_eq_true_eq, certainty?, Option.map_eq_some_iff]
  grind

theorem get?_applyStrategy_of_mem (hkb : kb.Placed) (hc : p ≠ c) (hn : p = c.negated →
      p ∈ (kb.applyStrategy (plan (kb.snapshot.detect c k))).2.facts.keys) :
    (kb.applyStrategy (plan (kb.snapshot.detect c k))).2.facts.get? p = kb.facts.get? p := by
  by_cases hp : p = c.negated
  · subst hp
    obtain ⟨provenance, hprovenance⟩ := OrderedMap.mem_keys_iff.mp (hn rfl)
    rw [hprovenance]
    rw [get?_applyStrategy_negated hkb, Option.filter_eq_some_iff] at hprovenance
    exact hprovenance.1.symm
  · exact get?_applyStrategy_of_ne hc hp

theorem timed_applyStrategy (hkb : kb.Placed) :
    (kb.applyStrategy (plan (kb.snapshot.detect c k))).2.timed.filter (· != c) =
      kb.timed.filter (· != c) := by
  rw [applyStrategy_plan]
  refine (congrArg _ (timed_removeAll kb _)).trans ?_
  rw [List.filter_filter]
  refine List.filter_congr fun q _ => ?_
  by_cases hc : q = c
  · simp [hc]
  · have hkept : ¬ (q.isTimed = true ∧ q ∈ (kb.snapshot.detect c k).flatMap Conflict.losers) := by
      rintro ⟨htimed, hloses⟩
      obtain ⟨e, he, ⟨rfl, -⟩ | ⟨rfl, -⟩⟩ := mem_losers_detect.mp hloses
      · rw [(hkb.facts _ (mem_keys_iff_certainty?.mpr ⟨e, he⟩)).2] at htimed
        cases htimed
      · exact hc rfl
    rw [← List.contains_iff_mem, ← Bool.and_eq_true, Bool.not_eq_true] at hkept
    simp only [hkept, Bool.not_false, Bool.and_true]

theorem containsFact_applyStrategy (h : (plan (kb.snapshot.detect c k)).rejects c = true) :
    (kb.applyStrategy (plan (kb.snapshot.detect c k))).2.containsFact c = false := by
  obtain ⟨e, he, hlt⟩ := rejects_detect.mp h
  rw [applyStrategy_plan, ← Bool.not_eq_true]
  intro hcontains
  exact (containsFact_removeAll.mp hcontains).2 (mem_losers_detect.mpr ⟨e, he, .inr ⟨rfl, hlt⟩⟩)

theorem exceptions_detect : (kb.snapshot.detect c k).filterMap Conflict.exception? =
    (kb.snapshot.violations c k).filterMap Conflict.exception? := by
  rw [Snapshot.detect, contradiction?_snapshot, List.filterMap_append]
  cases kb.certainty? c.negated <;> rfl

/-- A violation is reported only while it is not excepted. -/
theorem addExceptions_violations :
    addExceptions kb.exceptions ((kb.snapshot.violations c k).filterMap Conflict.exception?) =
      kb.exceptions ↔ kb.snapshot.violations c k = [] := by
  constructor
  · intro h
    refine List.eq_nil_iff_forall_not_mem.mpr fun d hd => ?_
    obtain ⟨rule, premise, expected, rfl, -, hviolation⟩ := kind_of_mem_violations hd
    have hnew : ⟨rule, premise⟩ ∈ kb.exceptions := by
      rw [← h, mem_addExceptions]
      exact .inr (List.mem_filterMap.mpr ⟨_, hd, rfl⟩)
    have hforce := (Snapshot.mem_of_defaultViolation hviolation).2
    rw [← Bool.not_eq_true, Snapshot.isExcepted_iff] at hforce
    exact hforce hnew
  · intro h
    rw [h]
    rfl

/-- A candidate that its negation outranks is all that its conflicts cost. -/
theorem applyStrategy_outranked (hstored : kb.containsFact c = false)
    (hderived : c ∉ kb.derived.toList) {e : Certainty} (he : kb.certainty? c.negated = some e)
    (hlt : k < e) : (kb.applyStrategy (plan (kb.snapshot.detect c k))).2 = { kb with
      exceptions := addExceptions kb.exceptions
        ((kb.snapshot.violations c k).filterMap Conflict.exception?) } := by
  rw [applyStrategy_plan, exceptions_detect, removeAll_of_absent]
  intro p hp
  obtain ⟨e', he', ⟨rfl, hnot⟩ | ⟨rfl, -⟩⟩ := mem_losers_detect.mp hp
  · rw [he] at he'
    cases he'
    exact absurd hlt hnot
  · exact ⟨hstored, hderived⟩

end Strategy

end KnowledgeBase

namespace Reasoner

open KnowledgeBase

variable {r : Reasoner Time} {c : Predicate} {provenance : Provenance Time}

theorem assertChecked_eq (hvalid : validateFact c = .ok ())
    (hreaches : provenance.certainty.isBelow r.config.minCertainty = false) :
    r.assertChecked c provenance = .ok (r.assertResolved c provenance) := by
  simp only [assertChecked, hvalid, belowThreshold?, hreaches]
  rfl

/-- A fault or a certainty below the threshold ends the attempt before anything is done. -/
theorem after_assertChecked_refused (h : (∃ error, validateFact c = .error error) ∨
      provenance.certainty.isBelow r.config.minCertainty = true) :
    r.after (r.assertChecked c provenance) = r := by
  cases hvalid : validateFact c with
  | error error =>
      simp only [assertChecked, hvalid]
      rfl
  | ok =>
      obtain ⟨error, herror⟩ | hbelow := h
      · rw [hvalid] at herror
        cases herror
      · simp only [assertChecked, hvalid, belowThreshold?, hbelow]
        rfl

theorem assertResolved_kb (r : Reasoner Time) (c : Predicate) (provenance : Provenance Time) :
    (r.assertResolved c provenance).2.kb =
      let strategy := plan (r.kb.snapshot.detect c provenance.certainty)
      if strategy.rejects c then (r.kb.applyStrategy strategy).2
      else ((r.kb.applyStrategy strategy).2.insertFact c (some provenance)).2 := by
  change _ = if (r.check c provenance.certainty).strategy.rejects c then _ else _
  by_cases hrejects : (r.check c provenance.certainty).strategy.rejects c = true
  · simp only [assertResolved, hrejects, if_true]
    split <;> rfl
  · simp only [assertResolved, hrejects]
    split <;> rfl

theorem assertResolved_history (r : Reasoner Time) (c : Predicate) (provenance : Provenance Time) :
    (r.assertResolved c provenance).2.history =
      r.history ++ (r.assertResolved c provenance).1.resolution.toList := by
  simp only [assertResolved]
  split <;> simp [addRecord]

/-- What is left when a candidate that reaches the threshold has passed the gate or has been
turned away at it. -/
structure Gated (r : Reasoner Time) (c : Predicate) (provenance : Provenance Time)
    (assertion : Assertion) (after : Reasoner Time) : Prop where
  candidate : after.kb.containsFact c = true ↔
    ∀ e, r.kb.certainty? c.negated = some e → e < provenance.certainty
  negation : c.negated ∈ after.kb.facts.keys ↔
    ∃ e, r.kb.certainty? c.negated = some e ∧ provenance.certainty < e
  sourced : ∀ source, after.kb.facts.get? c = some source → source = some provenance
  facts : ∀ p, p ≠ c → (p = c.negated → p ∈ after.kb.facts.keys) →
    after.kb.facts.get? p = r.kb.facts.get? p
  timed : after.kb.timed.filter (· != c) = r.kb.timed.filter (· != c)
  rules : after.kb.rules = r.kb.rules ∧ after.kb.defaultRules = r.kb.defaultRules
  exceptions : r.kb.exceptions <+: after.kb.exceptions
  history : after.history = r.history ++ assertion.resolution.toList
  recorded : assertion.resolution.isSome = true ↔
    r.kb.snapshot.detect c provenance.certainty ≠ []
  review : (∃ record, assertion.resolution = some record ∧
      record.strategy.requiresReview = true) ↔
    r.kb.certainty? c.negated = some provenance.certainty

theorem assertResolved_resolution (r : Reasoner Time) (c : Predicate)
    (provenance : Provenance Time) :
    let conflicts := r.kb.snapshot.detect c provenance.certainty
    (r.assertResolved c provenance).1.resolution = if conflicts = [] then none
      else some ⟨conflicts, plan conflicts, (r.kb.applyStrategy (plan conflicts)).1⟩ := by
  intro conflicts
  by_cases hconflicts : conflicts = []
  · have hnone : (r.check c provenance.certainty).hasConflicts = false := by
      simp [Report.hasConflicts, check, conflicts, hconflicts]
    simp [assertResolved, hnone, hconflicts]
  · have hsome : (r.check c provenance.certainty).hasConflicts = true := by
      simp [Report.hasConflicts, check, conflicts, hconflicts]
    simp only [assertResolved, hsome, hconflicts, if_true, if_false]
    rfl

/-- Storing a candidate changes nothing that is not the candidate's own. -/
theorem assertResolved_frame (r : Reasoner Time) (c : Predicate) (provenance : Provenance Time) :
    let resolved :=
      (r.kb.applyStrategy (plan (r.kb.snapshot.detect c provenance.certainty))).2
    let after := (r.assertResolved c provenance).2.kb
    (∀ p ≠ c, after.facts.get? p = resolved.facts.get? p) ∧
      after.timed.filter (· != c) = resolved.timed.filter (· != c) ∧
      after.rules = resolved.rules ∧ after.defaultRules = resolved.defaultRules ∧
      after.exceptions = resolved.exceptions := by
  intro resolved after
  have hafter : after = if (plan (r.kb.snapshot.detect c provenance.certainty)).rejects c then
      resolved else (resolved.insertFact c (some provenance)).2 := assertResolved_kb r c provenance
  split at hafter
  · rw [hafter]
    exact ⟨fun _ _ => rfl, rfl, rfl, rfl, rfl⟩
  · rw [hafter]
    refine ⟨fun p hp => get?_insertFact_of_ne hp _, timed_insertFact resolved c _, ?_⟩
    rw [insertFact_snd]
    exact ⟨rfl, rfl, rfl⟩

theorem assertResolved_candidate (hr : r.kb.Placed) (c : Predicate) (provenance : Provenance Time) :
    let after := (r.assertResolved c provenance).2.kb
    (after.containsFact c = true ↔
        ∀ e, r.kb.certainty? c.negated = some e → e < provenance.certainty) ∧
      ∀ source, after.facts.get? c = some source → source = some provenance := by
  intro after
  have hafter : after = _ := assertResolved_kb r c provenance
  have hplaced := hr.applyStrategy (plan (r.kb.snapshot.detect c provenance.certainty))
  rw [← rejects_detect_eq_false, hafter]
  by_cases hrejects : (plan (r.kb.snapshot.detect c provenance.certainty)).rejects c = true
  · have hgone := containsFact_applyStrategy hrejects
    simp only [hrejects, if_true]
    refine ⟨by simp [hgone], fun source hsource => ?_⟩
    rw [hplaced.containsFact_of_mem_keys (OrderedMap.mem_keys_iff.mpr ⟨source, hsource⟩)] at hgone
    cases hgone
  · simp only [hrejects]
    exact ⟨by simp [containsFact_insertFact], fun _ => hplaced.get?_insertFact_self⟩

theorem assertResolved_gated (hr : r.kb.Placed) (c : Predicate) (provenance : Provenance Time) :
    Gated r c provenance (r.assertResolved c provenance).1 (r.assertResolved c provenance).2 := by
  obtain ⟨hfacts, htimed, hrules, hdefaults, hexceptions⟩ := assertResolved_frame r c provenance
  obtain ⟨hcandidate, hsourced⟩ := assertResolved_candidate hr c provenance
  have hkeys : ∀ p ≠ c, p ∈ (r.assertResolved c provenance).2.kb.facts.keys ↔
      p ∈ (r.kb.applyStrategy (plan (r.kb.snapshot.detect c provenance.certainty))).2.facts.keys :=
    fun p hp => by rw [OrderedMap.mem_keys_iff, hfacts p hp, ← OrderedMap.mem_keys_iff]
  have hresolution := assertResolved_resolution r c provenance
  rw [applyStrategy_plan] at hrules hdefaults hexceptions
  refine {
    candidate := hcandidate
    negation := (hkeys _ c.negated_ne).trans (negated_mem_keys_applyStrategy hr)
    sourced := hsourced
    facts := fun p hc hn => ?_
    timed := htimed.trans (timed_applyStrategy hr)
    rules := ⟨hrules.trans (rules_removeAll _ _).1, hdefaults.trans (rules_removeAll _ _).2⟩
    exceptions := hexceptions ▸ prefix_addExceptions
    history := r.assertResolved_history c provenance
    recorded := by rw [hresolution]; simp
    review := ?_ }
  · rw [hfacts p hc]
    exact get?_applyStrategy_of_mem hr hc fun hp => (hkeys p hc).mp (hn hp)
  · rw [← requiresReview_detect, hresolution]
    by_cases hnone : r.kb.snapshot.detect c provenance.certainty = []
    · rw [hnone]
      exact iff_of_false (by simp) (by simp [plan, Strategy.requiresReview])
    · simp [hnone]

/-- Of a candidate that reaches the threshold and its negation among the ordinary facts,
the strictly more certain one is kept. -/
theorem assertChecked_keeps_more_certain (r : Reasoner Time) (c : Predicate)
    (provenance : Provenance Time) (hr : r.kb.Reachable) (hvalid : validateFact c = .ok ())
    (hreaches : provenance.certainty.isBelow r.config.minCertainty = false) :
    ∃ assertion after, r.assertChecked c provenance = .ok (assertion, after) ∧
      Gated r c provenance assertion after :=
  ⟨_, _, assertChecked_eq hvalid hreaches, assertResolved_gated hr.placed c provenance⟩

/-- On a tie neither side is kept, and a review is asked for. -/
theorem assertChecked_keeps_more_certain_on_tie :
    let r : Reasoner Nat := List.foldl Reasoner.serve {}
      [.addFact ⟨"Bird", [.const "Tux"]⟩, .addFact ⟨"Flies", [.const "Tux"]⟩]
    ∃ assertion after,
      r.assertChecked ⟨"NotFlies", [.const "Tux"]⟩ ⟨.full, "observer", 0⟩ = .ok (assertion, after) ∧
      after.kb.containsFact ⟨"NotFlies", [.const "Tux"]⟩ = false ∧
      ⟨"Flies", [.const "Tux"]⟩ ∉ after.kb.facts.keys ∧
      after.kb.facts.get? ⟨"Bird", [.const "Tux"]⟩ = some none ∧
      ∃ record, assertion.resolution = some record ∧ record.strategy.requiresReview = true := by
  intro r
  obtain ⟨assertion, after, hassert, hgated⟩ := assertChecked_keeps_more_certain r
    ⟨"NotFlies", [.const "Tux"]⟩ ⟨.full, "observer", 0⟩ (Reachable.empty.foldl_serve (r := {}) _)
    (by decide +kernel) (by decide +kernel)
  have hcertain : r.kb.certainty? ⟨"Flies", [.const "Tux"]⟩ = some .full := by decide +kernel
  have hbird : r.kb.facts.get? ⟨"Bird", [.const "Tux"]⟩ = some none := by decide +kernel
  have hnegated : (⟨"NotFlies", [.const "Tux"]⟩ : Predicate).negated =
      ⟨"Flies", [.const "Tux"]⟩ := by
    decide +kernel
  refine ⟨assertion, after, hassert, ?_, ?_, ?_, ?_⟩
  · rw [← Bool.not_eq_true, hgated.candidate, hnegated]
    exact fun h => Certainty.not_lt_self _ (h _ hcertain)
  · rw [← hnegated, hgated.negation, hnegated]
    rintro ⟨e, he, hlt⟩
    rw [hcertain] at he
    cases he
    exact Certainty.not_lt_self _ hlt
  · rw [hgated.facts _ (by decide) (by simp [hnegated])]
    exact hbird
  · exact hgated.review.mpr (hnegated ▸ hcertain)

theorem after_assertChecked_outranked (hvalid : validateFact c = .ok ())
    (hreaches : provenance.certainty.isBelow r.config.minCertainty = false)
    (hstored : r.kb.containsFact c = false) (hderived : c ∉ r.kb.derived.toList) {e : Certainty}
    (he : r.kb.certainty? c.negated = some e) (hlt : provenance.certainty < e) :
    (r.after (r.assertChecked c provenance)).kb = { r.kb with
      exceptions := addExceptions r.kb.exceptions
        ((r.kb.snapshot.violations c provenance.certainty).filterMap Conflict.exception?) } := by
  have hrejects := rejects_detect.mpr ⟨e, he, Certainty.not_lt_of_lt hlt⟩
  rw [assertChecked_eq hvalid hreaches, ← applyStrategy_outranked hstored hderived he hlt]
  exact (assertResolved_kb r c provenance).trans (if_pos hrejects)

/-- A candidate that is neither stored nor derived and is turned away leaves the facts and
the rules as they are. It adds exceptions for the default rules that it violates, if the
violations are looked for at all. -/
theorem assertChecked_losing (r : Reasoner Time) (c : Predicate) (provenance : Provenance Time)
    (hstored : r.kb.containsFact c = false) (hderived : c ∉ r.kb.derived.toList)
    (hloses : (∃ error, validateFact c = .error error) ∨
      provenance.certainty.isBelow r.config.minCertainty = true ∨
      ∃ e, r.kb.certainty? c.negated = some e ∧ provenance.certainty < e) :
    let after := (r.after (r.assertChecked c provenance)).kb
    after = { r.kb with exceptions := after.exceptions } ∧
      r.kb.exceptions <+: after.exceptions ∧
      (after = r.kb ↔ (∃ error, validateFact c = .error error) ∨
        provenance.certainty.isBelow r.config.minCertainty = true ∨
        r.kb.snapshot.violations c provenance.certainty = []) := by
  intro after
  by_cases hrefused : (∃ error, validateFact c = .error error) ∨
      provenance.certainty.isBelow r.config.minCertainty = true
  · have hafter : after = r.kb := congrArg Reasoner.kb (after_assertChecked_refused hrefused)
    rw [hafter, ← or_assoc]
    exact ⟨rfl, List.prefix_rfl, iff_of_true rfl (.inl hrefused)⟩
  · obtain ⟨e, he, hlt⟩ := (or_assoc.mpr hloses).resolve_left hrefused
    have hvalid : validateFact c = .ok () := by
      cases h : validateFact c with
      | error error => exact absurd (.inl ⟨error, h⟩) hrefused
      | ok => rfl
    have hreaches : provenance.certainty.isBelow r.config.minCertainty = false :=
      Bool.not_eq_true _ ▸ fun h => hrefused (.inr h)
    have hafter : after = _ :=
      after_assertChecked_outranked hvalid hreaches hstored hderived he hlt
    rw [hafter, ← or_assoc, or_iff_right hrefused, ← addExceptions_violations]
    refine ⟨rfl, prefix_addExceptions, congrArg KnowledgeBase.exceptions, fun h => ?_⟩
    simp only [h]

/-- An outranked candidate that violates no default rule leaves no trace. -/
theorem assertChecked_losing_outranked :
    let r : Reasoner Nat := List.foldl Reasoner.serve {}
      [.addFact ⟨"Bird", [.const "Tux"]⟩, .addFact ⟨"Flies", [.const "Tux"]⟩]
    (r.after (r.assertChecked ⟨"NotFlies", [.const "Tux"]⟩
      ⟨⟨0x3F666666, by decide⟩, "observer", 0⟩)).kb = r.kb := by
  intro r
  refine ((assertChecked_losing r ⟨"NotFlies", [.const "Tux"]⟩
    ⟨⟨0x3F666666, by decide⟩, "observer", 0⟩ ?_ ?_ ?_).2.2).mpr ?_
  · decide +kernel
  · decide +kernel
  · exact .inr (.inr ⟨.full, by decide +kernel, by decide⟩)
  · exact .inr (.inr (by decide +kernel))

/-- The negation that outranks the candidate is what the default rule expects, and yet the
rule is excepted for the sake of the candidate. -/
theorem assertChecked_excepts_for_rejected :
    let bird : DefaultRule := ⟨⟨"Bird", [.var "x"]⟩, ⟨"Flies", [.var "x"]⟩, .full⟩
    let r : Reasoner Nat := List.foldl Reasoner.serve {} [.addFact ⟨"Bird", [.const "Tux"]⟩,
      .addDefaultRule bird, .addFact ⟨"Flies", [.const "Tux"]⟩]
    let c : Predicate := ⟨"NotFlies", [.const "Tux"]⟩
    let provenance : Provenance Nat := ⟨⟨0x3F666666, by decide⟩, "observer", 0⟩
    r.kb.containsFact c = false ∧ c ∉ r.kb.derived.toList ∧
      (∃ e, r.kb.certainty? c.negated = some e ∧ provenance.certainty < e) ∧
      (r.after (r.assertChecked c provenance)).kb.exceptions ≠ r.kb.exceptions := by
  intro bird r c provenance
  exact ⟨by decide +kernel, by decide +kernel, ⟨.full, by decide +kernel, by decide⟩,
    by decide +kernel⟩

end Reasoner

end Defeasible
