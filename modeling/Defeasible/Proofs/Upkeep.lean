import Defeasible.Proofs.Restoring
import Defeasible.Proofs.Gate
import Defeasible.Proofs.Correction

/-!
The state that a knowledge base is kept in. Along every run of requests, in which reports of
conflicts are resolved when they may be out of date, the ordinary and the timed facts are
valid and stand apart, no timed fact and no exception is kept twice, and what was derived
and what is excepted has no variables. Only loading a snapshot or a made-up report could
bring in other exceptions.
-/

namespace Defeasible

variable {Time : Type}

/-- The request takes nothing over from a report or a snapshot. -/
def Request.isSelfContained : Request Time → Bool
  | .resolve _ | .restore _ => false
  | _ => true

namespace KnowledgeBase

/-- The knowledge bases that requests lead to from the empty one, with the reports made on
the way. Any of the reports may be resolved at any later time. -/
inductive Maintained : KnowledgeBase Time → List Report → Prop where
  | empty : Maintained {} []
  | serve {reports : List Report} (r : Reasoner Time) (request : Request Time) :
      Maintained r.kb reports → request.isSelfContained = true →
      Maintained (r.serve request).kb reports
  | check {reports : List Report} (r : Reasoner Time) (candidate : Predicate)
      (certainty : Certainty) :
      Maintained r.kb reports → Maintained r.kb (r.check candidate certainty :: reports)
  | resolve {reports : List Report} (r : Reasoner Time) {report : Report} :
      Maintained r.kb reports → report ∈ reports → Maintained (r.resolve report).2.kb reports

structure WellKept (kb : KnowledgeBase Time) : Prop where
  facts : ∀ p ∈ kb.facts.keys, validateFact p = .ok () ∧ p.name ≠ timedName
  timed : ∀ p ∈ kb.timed, validateFact p = .ok () ∧ ∃ event args time n,
    p = ⟨timedName, [.app event args, .const time]⟩ ∧ wordOfText? time = some n
  timed_once : kb.timed.Nodup
  derived : ∀ p ∈ kb.derived.toList, p.isGround = true
  exceptions_distinct : kb.exceptions.Nodup
  exceptions_ground : ∀ e ∈ kb.exceptions, e.excluded.isGround = true

variable {kb kb' : KnowledgeBase Time} {p : Predicate} {reports : List Report}

/-- A valid timed fact pairs an event with a whole number. -/
theorem timed_shape (hvalid : validateFact p = .ok ()) (htimed : p.isTimed = true) :
    ∃ event args time n, p = ⟨timedName, [.app event args, .const time]⟩ ∧
      wordOfText? time = some n := by
  have hname : p.name = timedName := by simpa [Predicate.isTimed] using htimed
  rw [validateFact] at hvalid
  simp only [htimed, Bool.not_true, Bool.false_eq_true, if_false] at hvalid
  split at hvalid
  · cases hvalid
  split at hvalid
  · cases hvalid
  split at hvalid
  next event args time hargs =>
    split at hvalid
    next hword =>
      obtain ⟨n, hn⟩ := Option.isSome_iff_exists.mp hword
      exact ⟨event, args, time, n, by rw [← hname, ← hargs], hn⟩
    next => cases hvalid
  next => cases hvalid
  next => cases hvalid

theorem Maintained.reachable (h : Maintained kb reports) : kb.Reachable := by
  induction h with
  | empty => exact .empty
  | serve r request _ _ ih => exact .serve r request ih
  | check _ _ _ _ ih => exact ih
  | resolve r _ _ ih => exact .serve r (.resolve _) ih

theorem Maintained.foldl_serve {r : Reasoner Time} (h : Maintained r.kb reports)
    {requests : List (Request Time)} (hrequests : requests.all Request.isSelfContained = true) :
    Maintained (requests.foldl Reasoner.serve r).kb reports := by
  induction requests generalizing r with
  | nil => exact h
  | cons request requests ih =>
      rw [List.all_cons, Bool.and_eq_true] at hrequests
      exact ih (.serve r request h hrequests.1) hrequests.2

theorem derived_ground_change (hchange : Change kb kb')
    (h : ∀ p ∈ kb.derived.toList, p.isGround = true) :
    ∀ p ∈ kb'.derived.toList, p.isGround = true := by
  cases hchange with
  | store provenance _ => simpa only [insertFact_snd] using h
  | remove p =>
      rw [removeFact_snd]
      exact fun q hq => h q (OrderedMap.mem_keys_of_mem_erase hq)
  | derive hp =>
      intro q hq
      obtain rfl | hq := OrderedMap.mem_keys_insert.mp hq
      · exact hp
      · exact h q hq
  | amend => exact h
  | clear =>
      intro q hq
      cases hq

/-- The second knowledge base has the exceptions of the first and some more, each at most
once and all ground. -/
def Excepts (kb kb' : KnowledgeBase Time) : Prop :=
  ∃ new, (∀ e ∈ new, e.excluded.isGround = true) ∧
    kb'.exceptions = addExceptions kb.exceptions new

theorem Excepts.of_eq (h : kb'.exceptions = kb.exceptions) : Excepts kb kb' :=
  ⟨[], nofun, h⟩

theorem nodup_addExceptions {exceptions : List RuleException} (h : exceptions.Nodup)
    (new : List RuleException) : (addExceptions exceptions new).Nodup := by
  induction new generalizing exceptions with
  | nil => exact h
  | cons e new ih =>
      rw [addExceptions, List.foldl_cons]
      refine ih ?_
      split
      next => exact h
      next hnew =>
        refine h.append (List.nodup_singleton e) fun d hd he => hnew ?_
        rw [List.contains_iff_mem, ← List.mem_singleton.mp he]
        exact hd

theorem Excepts.distinct (h : Excepts kb kb') (hkb : kb.exceptions.Nodup) :
    kb'.exceptions.Nodup := by
  obtain ⟨new, -, hexceptions⟩ := h
  rw [hexceptions]
  exact nodup_addExceptions hkb new

theorem Excepts.ground (h : Excepts kb kb')
    (hkb : ∀ e ∈ kb.exceptions, e.excluded.isGround = true) :
    ∀ e ∈ kb'.exceptions, e.excluded.isGround = true := by
  obtain ⟨new, hnew, hexceptions⟩ := h
  rw [hexceptions]
  exact fun e he => (mem_addExceptions.mp he).elim (hkb e) (hnew e)

/-- A default rule is violated through a stored premise. -/
theorem Placed.ground_of_violation (h : kb.Placed) {rule : DefaultRule}
    {c premise expected : Predicate}
    (hviolation : kb.snapshot.defaultViolation rule c = some (premise, expected)) :
    premise.isGround = true := by
  have hstored := (Snapshot.mem_of_defaultViolation hviolation).1
  rw [snapshot_predicates] at hstored
  exact isGround_of_validateFact (h.facts premise hstored).1

theorem Placed.ground_of_mem_detect (h : kb.Placed) {c : Predicate} {k : Certainty} :
    ∀ e ∈ (kb.snapshot.detect c k).filterMap Conflict.exception?,
      e.excluded.isGround = true := by
  intro e he
  rw [exceptions_detect] at he
  obtain ⟨d, hd, hexception⟩ := List.mem_filterMap.mp he
  obtain ⟨rule, premise, expected, rfl, -, hviolation⟩ := kind_of_mem_violations hd
  cases hexception
  exact h.ground_of_violation hviolation

theorem Placed.excepts_corrected (h : kb.Placed) : Excepts kb kb.corrected := by
  refine ⟨_, fun e he => ?_, rfl⟩
  obtain ⟨d, hd, hexception⟩ := List.mem_filterMap.mp he
  obtain ⟨-, ⟨hcontradiction, -⟩ | ⟨rule, premise, expected, -, hkind, hviolation⟩⟩ :=
    detectAll_cases (List.mem_of_mem_filter hd)
  · rw [Conflict.exception?_of_contradiction hcontradiction] at hexception
    cases hexception
  · rw [Conflict.exception?, hkind] at hexception
    cases hexception
    exact h.ground_of_violation hviolation

theorem excepts_applyStrategy {s : Strategy}
    (h : ∀ e ∈ s.actions.filterMap Action.excepts?, e.excluded.isGround = true) :
    Excepts kb (kb.applyStrategy s).2 :=
  ⟨_, h, by rw [applyStrategy, applyActions_snd]⟩

theorem exceptions_insertFact (kb : KnowledgeBase Time) (p : Predicate)
    (provenance : Option (Provenance Time)) :
    (kb.insertFact p provenance).2.exceptions = kb.exceptions := by
  rw [insertFact_snd]

theorem exceptions_recordDerived (kb : KnowledgeBase Time) (ps : List Predicate) :
    (kb.recordDerived ps).2.exceptions = kb.exceptions := by
  obtain ⟨derived, hderived⟩ := kb.recordDerived_eq ps
  rw [hderived]

theorem exceptions_saturateFrom (kb : KnowledgeBase Time) (soFar : Saturation) (passes : Nat) :
    (kb.saturateFrom soFar passes).2.exceptions = kb.exceptions := by
  have hfoldl : ∀ (ps : List Predicate) (kb : KnowledgeBase Time),
      (ps.foldl insertDerived kb).exceptions = kb.exceptions := by
    intro ps
    induction ps with
    | nil => exact fun _ => rfl
    | cons p ps ih => exact fun kb => (ih _).trans (exceptions_insertFact kb p none)
  induction passes generalizing kb soFar with
  | zero => rfl
  | succ passes ih =>
      rw [saturateFrom]
      split
      · rfl
      · rw [ih, hfoldl]

end KnowledgeBase

namespace Reasoner

open KnowledgeBase

variable {r : Reasoner Time}

theorem excepts_after {α : Type} {attempt : Except Error (α × Reasoner Time)}
    (hok : ∀ a r', attempt = .ok (a, r') → Excepts r.kb r'.kb) :
    Excepts r.kb (r.after attempt).kb := by
  cases attempt with
  | error e => exact .of_eq rfl
  | ok result => exact hok result.1 result.2 rfl

theorem excepts_insertChecked (r : Reasoner Time) (p : Predicate)
    (provenance : Option (Provenance Time)) :
    Excepts r.kb (r.after (do
      validateFact p
      let (isNew, kb) := r.kb.insertFact p provenance
      return (isNew, { r with kb }))).kb := by
  refine excepts_after fun _ r' hok => ?_
  obtain ⟨⟨⟩, -, hrest⟩ := bind_eq_ok.mp hok
  cases hrest
  exact .of_eq (exceptions_insertFact r.kb p provenance)

theorem excepts_addException (r : Reasoner Time) (e : RuleException) :
    Excepts r.kb (r.after (r.addException e)).kb := by
  refine excepts_after fun _ r' hok => ?_
  rw [addException] at hok
  split at hok
  next hground =>
    obtain rfl := congrArg Prod.snd (Except.ok.inj hok)
    exact ⟨[e], by simpa using hground, congrArg exceptions (addException_snd r.kb e)⟩
  next => cases hok

theorem excepts_tell (r : Reasoner Time) (statement : Parse.Statement) :
    Excepts r.kb (r.after (r.tell statement)).kb := by
  cases statement with
  | fact p =>
      have hadd : Excepts r.kb (r.after (r.addFact p)).kb := excepts_insertChecked r p none
      refine excepts_after fun _ r' hok => ?_
      obtain ⟨result, hresult, hrest⟩ := bind_eq_ok.mp hok
      rw [hresult] at hadd
      cases hrest
      exact hadd
  | rule | defaultRule => exact .of_eq rfl

theorem excepts_check (hr : r.kb.Placed) (c : Predicate) (k : Certainty) :
    ∀ e ∈ (r.check c k).strategy.actions.filterMap Action.excepts?,
      e.excluded.isGround = true := by
  rw [check, Conflict.excepts_plan]
  exact hr.ground_of_mem_detect

theorem excepts_assertChecked (hr : r.kb.Placed) (c : Predicate) (provenance : Provenance Time) :
    Excepts r.kb (r.after (r.assertChecked c provenance)).kb := by
  refine excepts_after fun _ r' hok => ?_
  obtain ⟨⟨⟩, -, hrest⟩ := bind_eq_ok.mp hok
  split at hrest
  · cases hrest
    exact .of_eq rfl
  · obtain rfl := congrArg Prod.snd (Except.ok.inj hrest)
    obtain ⟨new, hnew, hexceptions⟩ : Excepts r.kb (r.kb.applyStrategy _).2 :=
      excepts_applyStrategy (excepts_check hr c provenance.certainty)
    refine ⟨new, hnew, ?_⟩
    rw [← hexceptions, assertResolved_kb]
    dsimp only
    split
    · rfl
    · exact exceptions_insertFact _ c (some provenance)

theorem excepts_serve (hr : r.kb.Placed) {request : Request Time}
    (h : request.isSelfContained = true) : Excepts r.kb (r.serve request).kb := by
  cases request with
  | addFact p => exact excepts_insertChecked r p none
  | addSourcedFact p provenance => exact excepts_insertChecked r p (some provenance)
  | addRule | addDefaultRule | sweep => exact .of_eq rfl
  | addException e => exact excepts_addException r e
  | retract p =>
      have hremoved := congrArg exceptions (removeFact_snd r.kb p)
      exact .of_eq hremoved
  | recordDerived | prove | proveMonotonic => exact .of_eq (exceptions_recordDerived _ _)
  | tell statement => exact excepts_tell r statement
  | query q =>
      cases q with
      | goal => exact .of_eq (exceptions_recordDerived _ _)
      | time => exact .of_eq rfl
  | saturate => exact .of_eq (exceptions_saturateFrom _ _ _)
  | assertChecked c provenance => exact excepts_assertChecked hr c provenance
  | autoCorrect =>
      rw [serve, autoCorrect_kb]
      exact hr.excepts_corrected
  | resolve | restore => cases h

theorem excepts_resolve (r : Reasoner Time) {report : Report}
    (h : ∀ e ∈ report.strategy.actions.filterMap Action.excepts?, e.excluded.isGround = true) :
    Excepts r.kb (r.resolve report).2.kb := by
  rw [resolve]
  split
  · exact excepts_applyStrategy h
  · exact .of_eq rfl

end Reasoner

namespace KnowledgeBase

variable {kb : KnowledgeBase Time} {reports : List Report}

/-- The exceptions of a run, with what its reports would except when they are resolved. -/
theorem Maintained.exceptions (h : Maintained kb reports) : kb.exceptions.Nodup ∧
    (∀ e ∈ kb.exceptions, e.excluded.isGround = true) ∧
    ∀ report ∈ reports, ∀ e ∈ report.strategy.actions.filterMap Action.excepts?,
      e.excluded.isGround = true := by
  induction h with
  | empty => exact ⟨List.nodup_nil, nofun, nofun⟩
  | serve r request hrun hrequest ih =>
      obtain ⟨hdistinct, hground, hreports⟩ := ih
      have hstep := Reasoner.excepts_serve hrun.reachable.placed hrequest
      exact ⟨hstep.distinct hdistinct, hstep.ground hground, hreports⟩
  | check r c k hrun ih =>
      obtain ⟨hdistinct, hground, hreports⟩ := ih
      refine ⟨hdistinct, hground, List.forall_mem_cons.mpr ⟨?_, hreports⟩⟩
      exact Reasoner.excepts_check hrun.reachable.placed c k
  | resolve r _ hreport ih =>
      obtain ⟨hdistinct, hground, hreports⟩ := ih
      have hstep := Reasoner.excepts_resolve r (hreports _ hreport)
      exact ⟨hstep.distinct hdistinct, hstep.ground hground, hreports⟩

/-- Whatever is requested, and however late the reports made on the way are resolved, the
knowledge base is well kept. -/
theorem maintained_wellKept (h : Maintained kb reports) : kb.WellKept where
  facts p hp := by
    obtain ⟨hvalid, htimed⟩ := h.reachable.placed.facts p hp
    exact ⟨hvalid, by simpa [Predicate.isTimed] using htimed⟩
  timed p hp := by
    obtain ⟨hvalid, htimed⟩ := h.reachable.placed.timed p hp
    exact ⟨hvalid, timed_shape hvalid htimed⟩
  timed_once := h.reachable.nodup_timed
  derived := h.reachable.invariant nofun derived_ground_change
  exceptions_distinct := h.exceptions.1
  exceptions_ground := h.exceptions.2.1

/-- The premise of the report is retracted before the report is resolved. -/
theorem maintained_wellKept_late_report :
    let rule : DefaultRule := ⟨⟨"Bird", [.var "x"]⟩, ⟨"Flies", [.var "x"]⟩, .full⟩
    ∃ (kb : KnowledgeBase Nat) (reports : List Report), Maintained kb reports ∧
      kb.facts.keys = [⟨"Penguin", [.const "Tux"]⟩] ∧
      kb.timed = [.happensAt ⟨"Boot", []⟩ 5] ∧ kb.exceptions = [⟨rule, ⟨"Bird", [.const "Tux"]⟩⟩] ∧
      kb.WellKept := by
  intro rule
  let told : Reasoner Nat := List.foldl Reasoner.serve {} [
    .addRule ⟨⟨"Penguin", [.var "x"]⟩, ⟨"Bird", [.var "x"]⟩⟩,
    .addFact ⟨"Penguin", [.const "Tux"]⟩, .addFact (.happensAt ⟨"Boot", []⟩ 5),
    .addFact (.happensAt ⟨"Boot", []⟩ 5), .addDefaultRule rule, .saturate]
  let report := told.check ⟨"NotFlies", [.const "Tux"]⟩ .full
  let retracted := told.serve (.retract ⟨"Bird", [.const "Tux"]⟩)
  have htold : Maintained told.kb [] := Maintained.empty.foldl_serve (r := {}) rfl
  have hretracted : Maintained retracted.kb [report] :=
    .serve told (.retract ⟨"Bird", [.const "Tux"]⟩) (.check told _ _ htold) rfl
  have hrun : Maintained (retracted.resolve report).2.kb [report] :=
    .resolve retracted hretracted List.mem_cons_self
  exact ⟨_, _, hrun, by decide +kernel, by decide +kernel, by decide +kernel,
    maintained_wellKept hrun⟩

end KnowledgeBase

end Defeasible
