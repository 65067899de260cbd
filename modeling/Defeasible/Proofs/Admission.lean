import Defeasible.Proofs.Gate

/-!
Storing a candidate through the gate in one call or in several. The gate does what a check,
a resolution of the conflicts that the check reports and an insertion do when they are
called one after the other. It keeps a candidate and its negation apart, with one exception:
a contradiction is looked for among the ordinary facts only, and so it is not seen when what
the candidate denies is a timed fact.
-/

namespace Defeasible

variable {Time : Type}

/-- What a name negates is the name without its mark. -/
theorem eq_append_of_negatedName? {name rest : String} (h : negatedName? name = some rest) :
    name = "Not" ++ rest := by
  rw [negatedName?] at h
  split at h
  next c cs hstrip =>
    split at h
    · cases h
      exact String.toList_inj.mp (by simpa using Text.stripStart?_eq_some.mp hstrip)
    · cases h
  next => cases h

/-- Only one name is that of a denial of timed facts. -/
theorem Predicate.isTimed_negated {p : Predicate} :
    p.negated.isTimed = true ↔ p.name = "Not" ++ timedName := by
  have hname : p.negated.isTimed = true ↔
      (negatedName? p.name).getD ("Not" ++ p.name) = timedName := beq_iff_eq
  rw [hname]
  cases hrest : negatedName? p.name with
  | some rest =>
      rw [Option.getD_some, eq_append_of_negatedName? hrest, String.append_right_inj]
  | none =>
      rw [Option.getD_none]
      refine iff_of_false (fun h => ?_) fun h => ?_
      · have hfirst := congrArg (fun name => name.toList.head?) h
        simp [timedName] at hfirst
      · rw [h] at hrest
        revert hrest
        decide

namespace Reasoner

open KnowledgeBase

variable {r after : Reasoner Time} {c : Predicate} {provenance : Provenance Time}
  {assertion : Assertion}

/-- Checks a candidate, resolves the conflicts that the check reports, and stores the
candidate unless it was refused, each by a call of its own. -/
def assertInSteps (r : Reasoner Time) (c : Predicate) (provenance : Provenance Time) :
    Except Error (Assertion × Reasoner Time) := do
  let validation ← r.validate c provenance.certainty
  match validation with
  | .belowThreshold .. => return (⟨false, validation, none⟩, r)
  | .consistent =>
      let (inserted, r) ← r.addSourcedFact c provenance
      return (⟨inserted, validation, none⟩, r)
  | .conflicting report =>
      let (resolution, r) := r.resolve report
      if report.strategy.rejects c then return (⟨false, validation, resolution⟩, r)
      else
        let (inserted, r) ← r.addSourcedFact c provenance
        return (⟨inserted, validation, resolution⟩, r)

theorem addSourcedFact_eq (hvalid : validateFact c = .ok ()) :
    r.addSourcedFact c provenance = .ok ((r.kb.insertFact c (some provenance)).1,
      { r with kb := (r.kb.insertFact c (some provenance)).2 }) := by
  simp only [addSourcedFact, hvalid]
  rfl

theorem validate_eq (hvalid : validateFact c = .ok ())
    (hreaches : provenance.certainty.isBelow r.config.minCertainty = false) :
    r.validate c provenance.certainty = .ok
      (let report := r.check c provenance.certainty
      if report.hasConflicts then .conflicting report else .consistent) := by
  simp only [validate, hvalid, belowThreshold?, hreaches]
  rfl

theorem conflicts_of_not_hasConflicts
    (h : (r.check c provenance.certainty).hasConflicts = false) :
    r.kb.snapshot.detect c provenance.certainty = [] := by
  simpa [Report.hasConflicts, check] using h

/-- What is reported is resolved under the one lock as it is by a call of its own. -/
theorem assertInSteps_eq_assertResolved (hvalid : validateFact c = .ok ())
    (hreaches : provenance.certainty.isBelow r.config.minCertainty = false) :
    r.assertInSteps c provenance = .ok (r.assertResolved c provenance) := by
  refine bind_eq_ok.mpr ⟨_, validate_eq hvalid hreaches, ?_⟩
  cases hconflicts : (r.check c provenance.certainty).hasConflicts with
  | false =>
      have hplan : (r.check c provenance.certainty).strategy = plan [] :=
        congrArg plan (conflicts_of_not_hasConflicts hconflicts)
      have hkept : (plan []).rejects c = false := rfl
      have hidle : (r.kb.applyStrategy (plan [])).2 = r.kb := rfl
      simp only [assertResolved, hconflicts, hplan, hkept, hidle]
      exact bind_eq_ok.mpr ⟨_, addSourcedFact_eq hvalid, rfl⟩
  | true =>
      cases hrejects : (r.check c provenance.certainty).strategy.rejects c with
      | false =>
          simp only [assertResolved, resolve, hconflicts, hrejects, if_true]
          exact bind_eq_ok.mpr ⟨_, addSourcedFact_eq hvalid, rfl⟩
      | true =>
          simp only [assertResolved, resolve, hconflicts, hrejects, if_true]
          rfl

/-- Storing a candidate in one call has the outcome, the effect on the knowledge base and
the effect on the history that the separate calls have. -/
theorem assertInSteps_eq_assertChecked (r : Reasoner Time) (c : Predicate)
    (provenance : Provenance Time) :
    r.assertInSteps c provenance = r.assertChecked c provenance := by
  cases hvalid : validateFact c with
  | error error =>
      simp only [assertInSteps, validate, assertChecked, hvalid]
      rfl
  | ok =>
      cases hbelow : provenance.certainty.isBelow r.config.minCertainty with
      | true =>
          simp only [assertInSteps, validate, assertChecked, hvalid, belowThreshold?, hbelow]
          rfl
      | false =>
          rw [assertChecked_eq hvalid hbelow, assertInSteps_eq_assertResolved hvalid hbelow]

/-- A negation that is timed is not seen by the gate, and stays. -/
theorem containsFact_negated_timed (hgated : Gated r c provenance assertion after)
    (htimed : c.negated.isTimed = true) :
    after.kb.containsFact c.negated = r.kb.containsFact c.negated := by
  have hmem : ∀ kb : KnowledgeBase Time, kb.containsFact c.negated =
      (kb.timed.filter (· != c)).contains c.negated := fun kb => by
    rw [containsFact, if_pos htimed, Bool.eq_iff_iff, List.contains_iff_mem, List.contains_iff_mem,
      List.mem_filter]
    simp [c.negated_ne]
  rw [hmem, hmem, hgated.timed]

/-- An ordinary negation outlasts no candidate that is stored. -/
theorem not_both_of_ordinary (hgated : Gated r c provenance assertion after)
    (hordinary : c.negated.isTimed = false) :
    ¬ (after.kb.containsFact c = true ∧ after.kb.containsFact c.negated = true) := by
  rintro ⟨hc, hn⟩
  have hkeys : c.negated ∈ after.kb.facts.keys := by
    rw [OrderedMap.mem_keys_iff, ← Option.isSome_iff_exists]
    simpa [containsFact, hordinary, OrderedMap.contains] using hn
  obtain ⟨e, he, hlt⟩ := hgated.negation.mp hkeys
  exact Certainty.not_lt_of_lt hlt (hgated.candidate.mp hc e he)

/-- The gate lets a candidate and its negation stand side by side exactly if it does not see
the negation: the candidate denies a timed fact, and the fact is there. -/
theorem assertChecked_keeps_both_iff (r : Reasoner Time) (c : Predicate)
    (provenance : Provenance Time) {assertion : Assertion} {after : Reasoner Time}
    (hr : r.kb.Reachable)
    (hreaches : provenance.certainty.isBelow r.config.minCertainty = false)
    (hassert : r.assertChecked c provenance = .ok (assertion, after)) :
    (after.kb.containsFact c = true ∧ after.kb.containsFact c.negated = true) ↔
      c.name = "Not" ++ timedName ∧ r.kb.containsFact c.negated = true := by
  obtain ⟨⟨⟩, hvalid, -⟩ := bind_eq_ok.mp hassert
  have hgated : Gated r c provenance assertion after := by
    rw [assertChecked_eq hvalid hreaches] at hassert
    obtain ⟨rfl, rfl⟩ := Prod.mk.inj (Except.ok.inj hassert)
    exact assertResolved_gated hr.placed c provenance
  rw [← Predicate.isTimed_negated]
  cases htimed : c.negated.isTimed with
  | false => exact iff_of_false (not_both_of_ordinary hgated htimed) (fun h => nomatch h.1)
  | true =>
      have hunseen : r.kb.certainty? c.negated = none := by
        rw [← Option.not_isSome_iff_eq_none]
        intro h
        obtain ⟨e, he⟩ := Option.isSome_iff_exists.mp h
        have hplace := (hr.placed.facts _ (mem_keys_iff_certainty?.mpr ⟨e, he⟩)).2
        rw [htimed] at hplace
        cases hplace
      have hstored : after.kb.containsFact c = true := by
        rw [hgated.candidate, hunseen]
        exact nofun
      rw [containsFact_negated_timed hgated htimed]
      simp [hstored]

/-- A bird that flies and a report of equal weight that it does not: at most one is kept. -/
theorem assertChecked_keeps_both_iff_flies :
    let r : Reasoner Nat := List.foldl Reasoner.serve {}
      [.addFact ⟨"Bird", [.const "Tux"]⟩, .addFact ⟨"Flies", [.const "Tux"]⟩]
    let c : Predicate := ⟨"NotFlies", [.const "Tux"]⟩
    ∃ assertion after, r.assertChecked c ⟨.full, "observer", 0⟩ = .ok (assertion, after) ∧
      ¬ (after.kb.containsFact c = true ∧ after.kb.containsFact c.negated = true) := by
  intro r c
  have hassert : r.assertChecked c ⟨.full, "observer", 0⟩ = .ok (r.assertResolved c _) :=
    assertChecked_eq (by decide +kernel) (by decide +kernel)
  refine ⟨_, _, hassert, ?_⟩
  rw [assertChecked_keeps_both_iff r c ⟨.full, "observer", 0⟩
    (Reachable.empty.foldl_serve (r := {}) _) (by decide +kernel) hassert]
  decide +kernel

/-- A recorded event and the report that it never happened are both kept. -/
theorem assertChecked_keeps_denial_of_event :
    let r : Reasoner Nat := List.foldl Reasoner.serve {}
      [.addFact ⟨"HappensAt", [.app "Login" [.const "Ann"], .const "5"]⟩]
    let c : Predicate := ⟨"NotHappensAt", [.app "Login" [.const "Ann"], .const "5"]⟩
    let after := r.after (r.assertChecked c ⟨.full, "observer", 0⟩)
    r.kb.Reachable ∧ Certainty.full.isBelow r.config.minCertainty = false ∧
      (r.assertChecked c ⟨.full, "observer", 0⟩).toBool = true ∧
      after.kb.containsFact c = true ∧ after.kb.containsFact c.negated = true := by
  intro r c after
  exact ⟨Reachable.empty.foldl_serve (r := {}) _, by decide +kernel, by decide +kernel,
    by decide +kernel, by decide +kernel⟩

end Reasoner

end Defeasible
