import Mathlib.Algebra.GroupWithZero.Nat
import Defeasible.Proofs.Fixpoint
import Defeasible.Proofs.Upkeep

/-!
Keeping account of resolutions. What applying a strategy reports is exactly what it has done:
a line for every fact that has gone and one for every exception that has come, however often
the strategy names them. Nothing else changes, and a second application finds nothing left to
do. The history of a reasoner therefore adds up to the changes that its resolutions made.
-/

namespace Defeasible

variable {Time : Type}
namespace KnowledgeBase

variable {kb kb₁ kb₂ : KnowledgeBase Time} {lines lines' : List String} {p : Predicate}

/-- How many of the facts are not held by the second knowledge base, and how many exceptions
that has more. -/
def corrections (kb kb' : KnowledgeBase Time) : Nat :=
  kb.known.countP (fun p => p ∉ kb'.known) + (kb'.exceptions.length - kb.exceptions.length)

theorem corrections_self (kb : KnowledgeBase Time) : kb.corrections kb = 0 := by
  simp [corrections, List.countP_eq_zero]

/-- The second knowledge base comes from the first by removing facts and appending
exceptions. -/
structure Curtails (kb kb' : KnowledgeBase Time) : Prop where
  facts : kb'.facts.entries.Sublist kb.facts.entries
  timed : kb'.timed.Sublist kb.timed
  rules : kb'.rules = kb.rules
  defaultRules : kb'.defaultRules = kb.defaultRules
  exceptions : kb.exceptions <+: kb'.exceptions

theorem Curtails.refl (kb : KnowledgeBase Time) : Curtails kb kb :=
  ⟨.refl _, .refl _, rfl, rfl, List.prefix_rfl⟩

theorem Curtails.trans (h : Curtails kb kb₁) (h' : Curtails kb₁ kb₂) : Curtails kb kb₂ :=
  ⟨h'.facts.trans h.facts, h'.timed.trans h.timed, h'.rules.trans h.rules,
    h'.defaultRules.trans h.defaultRules, h.exceptions.trans h'.exceptions⟩

theorem Curtails.known (h : Curtails kb kb₁) : kb₁.known.Sublist kb.known :=
  (h.facts.map Prod.fst).append h.timed

/-- Every fact is stored once and in its place. -/
structure Tidy (kb : KnowledgeBase Time) : Prop where
  placed : kb.Placed
  once : kb.timed.Nodup

theorem Reachable.tidy (h : kb.Reachable) : kb.Tidy := ⟨h.placed, h.nodup_timed⟩

theorem Tidy.change (hchange : Change kb kb₁) (h : kb.Tidy) : kb₁.Tidy :=
  ⟨h.placed.change hchange, nodup_timed_change hchange h.once⟩

theorem Tidy.nodup_known (h : kb.Tidy) : kb.known.Nodup := by
  refine kb.facts.nodup_keys.append h.once fun p hfact htimed => ?_
  exact Bool.false_ne_true ((h.placed.facts p hfact).2.symm.trans (h.placed.timed p htimed).2)

theorem Tidy.containsFact_iff (h : kb.Tidy) : kb.containsFact p = true ↔ p ∈ kb.known :=
  h.placed.containsFact_iff

/-- What is lost is counted by the lengths where nothing has been added. -/
theorem Curtails.countP_lost (h : Curtails kb kb₁) (hkb : kb.Tidy) :
    kb.known.countP (fun p => p ∉ kb₁.known) + kb₁.known.length = kb.known.length := by
  have hkept : (kb.known.filter fun p => p ∈ kb₁.known).Perm kb₁.known := by
    refine (List.perm_ext_iff_of_nodup (hkb.nodup_known.filter _)
      (hkb.nodup_known.sublist h.known)).mpr fun p => ?_
    rw [List.mem_filter, decide_eq_true_eq, and_iff_right_iff_imp]
    exact fun hp => h.known.subset hp
  have hsplit := List.length_eq_countP_add_countP (fun p => decide (p ∈ kb₁.known)) (l := kb.known)
  rw [List.countP_eq_length_filter, hkept.length_eq] at hsplit
  simp only [decide_not, decide_eq_true_eq] at hsplit ⊢
  omega

/-- Taking the lines away from the facts leaves the facts that are left, but for the lines
about exceptions. -/
def Balanced (kb : KnowledgeBase Time) (lines : List String) (kb' : KnowledgeBase Time) : Prop :=
  lines.length + kb'.known.length + kb.exceptions.length =
    kb.known.length + kb'.exceptions.length

theorem Balanced.refl (kb : KnowledgeBase Time) : Balanced kb [] kb := by simp [Balanced]

theorem Balanced.append (h : Balanced kb lines kb₁) (h' : Balanced kb₁ lines' kb₂) :
    Balanced kb (lines ++ lines') kb₂ := by
  rw [Balanced] at h h' ⊢
  rw [List.length_append]
  omega

theorem Balanced.length_lines (h : Balanced kb lines kb₁) (hcurtails : Curtails kb kb₁)
    (hkb : kb.Tidy) : lines.length = kb.corrections kb₁ := by
  have hlost := hcurtails.countP_lost hkb
  have hexceptions := hcurtails.exceptions.length_le
  rw [Balanced] at h
  rw [corrections]
  omega

theorem known_removeFact (h : kb.Tidy) (p : Predicate) :
    (kb.removeFact p).2.known = kb.known.erase p := by
  rw [h.nodup_known.erase_eq_filter, known, known, List.filter_append, removeFact_snd]
  have hkeys : (kb.facts.erase p).keys = kb.facts.keys.filter (· != p) := by
    rw [OrderedMap.keys, OrderedMap.keys, OrderedMap.erase, List.filter_map]
    refine congrArg _ (List.filter_congr fun e _ => ?_)
    by_cases he : e.1 = p
    · simp [bne, he]
    · simp [bne, OrderedMap.compare_beq_eq, he, Ne.symm he]
  cases htimed : p.isTimed with
  | true =>
      have hfacts : kb.facts.keys.filter (· != p) = kb.facts.keys :=
        List.filter_eq_self.mpr fun q hq => bne_iff_ne.mpr fun heq =>
          Bool.false_ne_true ((h.placed.facts q hq).2.symm.trans (heq ▸ htimed))
      simp [hfacts]
  | false =>
      have hrest : kb.timed.filter (· != p) = kb.timed :=
        List.filter_eq_self.mpr fun q hq => bne_iff_ne.mpr fun heq =>
          Bool.false_ne_true ((heq ▸ htimed : q.isTimed = false).symm.trans (h.placed.timed q hq).2)
      simp [hkeys, hrest]

theorem curtails_removeFact (kb : KnowledgeBase Time) (p : Predicate) :
    Curtails kb (kb.removeFact p).2 := by
  rw [removeFact_snd]
  refine ⟨?_, ?_, rfl, rfl, List.prefix_rfl⟩
  · dsimp only
    split
    · exact .refl _
    · exact List.filter_sublist
  · dsimp only
    split
    · exact List.filter_sublist
    · exact .refl _

theorem curtails_addException (kb : KnowledgeBase Time) (e : RuleException) :
    Curtails kb (kb.addException e).2 := by
  rw [addException_snd]
  exact ⟨.refl _, .refl _, rfl, rfl, prefix_addExceptions⟩

theorem curtails_applyAction (kb : KnowledgeBase Time) (action : Action) :
    Curtails kb (kb.applyAction action).2 := by
  cases action with
  | retract fact | reject fact => exact curtails_removeFact kb fact
  | review => exact .refl kb
  | except e => exact curtails_addException kb e

/-- A removal is reported exactly if the fact was there. -/
theorem balanced_removeFact (h : kb.Tidy) (p : Predicate) (line : String) :
    Balanced kb (if (kb.removeFact p).1 then some line else none).toList (kb.removeFact p).2 := by
  have hexceptions : (kb.removeFact p).2.exceptions = kb.exceptions := by rw [removeFact_snd]
  rw [Balanced, known_removeFact h, hexceptions]
  change (if kb.containsFact p then some line else none).toList.length + _ + _ = _
  by_cases hp : p ∈ kb.known
  · have hlength := List.length_erase_add_one hp
    rw [if_pos (h.containsFact_iff.mpr hp), Option.toList_some, List.length_singleton]
    omega
  · rw [if_neg (mt h.containsFact_iff.mp hp), List.erase_of_not_mem hp]
    simp

theorem balanced_addException (kb : KnowledgeBase Time) (e : RuleException) (line : String) :
    Balanced kb (if (kb.addException e).1 then some line else none).toList
      (kb.addException e).2 := by
  rw [Balanced, addException]
  split
  · simp
  · simp [known]
    omega

theorem balanced_applyAction (h : kb.Tidy) (action : Action) :
    Balanced kb (kb.applyAction action).1.toList (kb.applyAction action).2 := by
  cases action with
  | retract fact | reject fact => exact balanced_removeFact h fact _
  | review => exact .refl kb
  | except e => exact balanced_addException kb e _

theorem tidy_applyActions (h : kb.Tidy) (actions : List Action) :
    (kb.applyActions actions).2.Tidy :=
  (changes_applyActions kb actions).invariant Tidy.change h

theorem curtails_applyActions (kb : KnowledgeBase Time) (actions : List Action) :
    Curtails kb (kb.applyActions actions).2 := by
  induction actions generalizing kb with
  | nil => exact .refl kb
  | cons action actions ih => exact (curtails_applyAction kb action).trans (ih _)

theorem balanced_applyActions (h : kb.Tidy) (actions : List Action) :
    Balanced kb (kb.applyActions actions).1 (kb.applyActions actions).2 := by
  induction actions generalizing kb with
  | nil => exact .refl kb
  | cons action actions ih =>
      have hone : (kb.applyAction action).2.Tidy := tidy_applyActions h [action]
      exact (balanced_applyAction h action).append (ih hone)

/-- One line is reported for each fact removed and each exception appended. -/
theorem length_applyStrategy (h : kb.Tidy) (s : Strategy) :
    (kb.applyStrategy s).1.length = kb.corrections (kb.applyStrategy s).2 :=
  (balanced_applyActions h s.actions).length_lines (curtails_applyActions kb s.actions) h

/-- Actions that name only facts that are gone and exceptions that are there do nothing. -/
theorem applyActions_of_done {actions : List Action}
    (hremoved : ∀ p ∈ actions.filterMap Action.removes?,
      kb.containsFact p = false ∧ p ∉ kb.derived.toList)
    (hexcepted : ∀ e ∈ actions.filterMap Action.excepts?, e ∈ kb.exceptions) :
    kb.applyActions actions = ([], kb) := by
  induction actions with
  | nil => rfl
  | cons action actions ih =>
      have hone : kb.applyAction action = (none, kb) := by
        cases action with
        | retract fact | reject fact =>
            obtain ⟨hstored, hderived⟩ := hremoved fact (.head _)
            have hkb := removeFact_of_absent hstored hderived
            exact Prod.ext (if_neg (Bool.eq_false_iff.mp hstored)) hkb
        | review => rfl
        | except e =>
            have he : e ∈ kb.exceptions := hexcepted e (.head _)
            simp [applyAction, addException, he]
      have hlater := List.sublist_cons_self action actions
      have hrest : kb.applyActions actions = ([], kb) :=
        ih (fun p hp => hremoved p ((hlater.filterMap _).subset hp))
          fun e he => hexcepted e ((hlater.filterMap _).subset he)
      simp only [applyActions, hone, hrest, Option.toList_none, List.append_nil]

theorem applyStrategy_twice (kb : KnowledgeBase Time) (s : Strategy) :
    (kb.applyStrategy s).2.applyStrategy s = ([], (kb.applyStrategy s).2) := by
  refine applyActions_of_done (fun p hp => ?_) fun e he => ?_
  · rw [applyStrategy, applyActions_snd]
    constructor
    · rw [← Bool.not_eq_true]
      exact fun hcontains => (containsFact_removeAll.mp hcontains).2 hp
    · exact fun hderived => (mem_derived_removeAll.mp hderived).2 hp
  · rw [applyStrategy, applyActions_snd]
    exact mem_addExceptions.mpr (.inr he)

theorem mem_known_insertFact {q : Predicate} {provenance : Option (Provenance Time)} :
    p ∈ (kb.insertFact q provenance).2.known ↔ p = q ∨ p ∈ kb.known := by
  rw [insertFact_snd]
  cases htimed : q.isTimed with
  | true =>
      simp only [known, List.mem_append]
      grind
  | false => simp [known, OrderedMap.mem_keys_insert, or_assoc]

/-- Storing a fact that a resolution has not removed does not change what was lost. -/
theorem corrections_insertFact {q : Predicate} (hq : q ∈ kb.known → q ∈ kb₁.known)
    (provenance : Option (Provenance Time)) :
    kb.corrections (kb₁.insertFact q provenance).2 = kb.corrections kb₁ := by
  rw [corrections, corrections, exceptions_insertFact]
  refine congrArg (· + _) (List.countP_congr fun p hp => ?_)
  have hknown : p ∈ (kb₁.insertFact q provenance).2.known ↔ p ∈ kb₁.known := by
    rw [mem_known_insertFact]
    exact or_iff_right_of_imp fun heq => heq ▸ hq (heq ▸ hp)
  simp only [hknown]

end KnowledgeBase

/-- The requests that resolve conflicts. -/
def Request.isResolution : Request Time → Bool
  | .resolve _ | .assertChecked .. | .autoCorrect => true
  | _ => false

def Request.isRestore : Request Time → Bool
  | .restore _ => true
  | _ => false

namespace Reasoner

open KnowledgeBase

variable {r r' : Reasoner Time}

/-- The facts removed and the exceptions added by serving the request, if it is one that
resolves conflicts. -/
def resolved (r : Reasoner Time) (request : Request Time) : Nat :=
  if request.isResolution then r.kb.corrections (r.serve request).kb else 0

/-- The reasoner has come from another one, without having been created anew, and its
resolutions have made so many changes since. In between, others may change the knowledge base
they share. -/
inductive Operated (r : Reasoner Time) : Nat → Reasoner Time → Prop where
  | start : Operated r 0 r
  | serve {n : Nat} {r' : Reasoner Time} (request : Request Time) : Operated r n r' →
      request.isRestore = false → Operated r (n + r'.resolved request) (r'.serve request)
  | elsewhere {n : Nat} {r' : Reasoner Time} (kb : KnowledgeBase Time) : Operated r n r' →
      kb.Reachable → Operated r n { r' with kb }

theorem Operated.reachable {n : Nat} (h : r.Operated n r') (hr : r.kb.Reachable) :
    r'.kb.Reachable := by
  induction h with
  | start => exact hr
  | serve request _ _ ih => exact .serve _ request ih
  | elsewhere kb _ hkb _ => exact hkb

theorem corrections_eq_sum (r : Reasoner Time) :
    r.status.corrections = (r.history.map fun record => record.applied.length).sum := by
  simp [status, List.sum, List.foldr_map]

/-- The request leaves a record of its changes, or no record of none. -/
def Recorded (r : Reasoner Time) (changes : Nat) (r' : Reasoner Time) : Prop :=
  ∃ record : Option Record, r'.history = r.history ++ record.toList ∧
    changes = (record.map fun record => record.applied.length).getD 0

theorem Recorded.silent (h : r'.history = r.history) : Recorded r 0 r' :=
  ⟨none, h.trans (List.append_nil _).symm, rfl⟩

theorem Recorded.history {changes : Nat} (h : Recorded r changes r') :
    r.history <+: r'.history := by
  obtain ⟨record, hhistory, -⟩ := h
  rw [hhistory]
  exact List.prefix_append _ _

theorem Recorded.corrections {changes : Nat} (h : Recorded r changes r') :
    r'.status.corrections = r.status.corrections + changes := by
  obtain ⟨record, hhistory, rfl⟩ := h
  rw [corrections_eq_sum, corrections_eq_sum, hhistory, List.map_append, List.sum_append]
  cases record with
  | none => rfl
  | some record => simp

theorem history_after {α : Type} {attempt : Except Error (α × Reasoner Time)}
    (hok : ∀ a r', attempt = .ok (a, r') → r'.history = r.history) :
    (r.after attempt).history = r.history := by
  cases attempt with
  | error => rfl
  | ok result => exact hok result.1 result.2 rfl

theorem history_insertChecked (r : Reasoner Time) (p : Predicate)
    (provenance : Option (Provenance Time)) :
    (r.after (do
      validateFact p
      let (isNew, kb) := r.kb.insertFact p provenance
      return (isNew, { r with kb }))).history = r.history := by
  refine history_after fun _ r' hok => ?_
  obtain ⟨⟨⟩, -, hrest⟩ := bind_eq_ok.mp hok
  cases hrest
  rfl

theorem history_addException (r : Reasoner Time) (e : RuleException) :
    (r.after (r.addException e)).history = r.history := by
  refine history_after fun _ r' hok => ?_
  rw [addException] at hok
  split at hok <;> cases hok
  rfl

theorem history_tell (r : Reasoner Time) (statement : Parse.Statement) :
    (r.after (r.tell statement)).history = r.history := by
  cases statement with
  | fact p =>
      have hadd : (r.after (r.addFact p)).history = r.history := history_insertChecked r p none
      refine history_after fun _ r' hok => ?_
      obtain ⟨result, hresult, hrest⟩ := bind_eq_ok.mp hok
      rw [hresult] at hadd
      cases hrest
      exact hadd
  | rule | defaultRule => rfl

/-- Only resolutions write the history. -/
theorem history_serve (r : Reasoner Time) {request : Request Time}
    (hresolution : request.isResolution = false) (hrestore : request.isRestore = false) :
    (r.serve request).history = r.history := by
  cases request with
  | addFact p => exact history_insertChecked r p none
  | addSourcedFact p provenance => exact history_insertChecked r p (some provenance)
  | addException e => exact history_addException r e
  | tell statement => exact history_tell r statement
  | query q => cases q <;> rfl
  | addRule | addDefaultRule | retract | recordDerived | prove | proveMonotonic | saturate
  | sweep => rfl
  | resolve | assertChecked | autoCorrect => cases hresolution
  | restore => cases hrestore

theorem recorded_resolve (hr : r.kb.Tidy) (report : Report) :
    Recorded r (r.kb.corrections (r.resolve report).2.kb) (r.resolve report).2 := by
  rw [resolve]
  split
  · exact ⟨some _, rfl, (length_applyStrategy hr report.strategy).symm⟩
  · change Recorded r (r.kb.corrections r.kb) r
    rw [corrections_self]
    exact .silent rfl

/-- A candidate that is not rejected is not removed either. -/
theorem mem_known_of_not_rejected (hr : r.kb.Tidy) {c : Predicate} {k : Certainty}
    (haccepted : ¬ (plan (r.kb.snapshot.detect c k)).rejects c = true) (hc : c ∈ r.kb.known) :
    c ∈ (r.kb.applyStrategy (plan (r.kb.snapshot.detect c k))).2.known := by
  have hafter : (r.kb.applyStrategy (plan (r.kb.snapshot.detect c k))).2.Tidy :=
    tidy_applyActions hr _
  rw [← hafter.containsFact_iff, applyStrategy_plan]
  refine containsFact_removeAll.mpr ⟨hr.containsFact_iff.mpr hc, fun hloses => haccepted ?_⟩
  obtain ⟨e, he, ⟨heq, -⟩ | ⟨-, hnot⟩⟩ := mem_losers_detect.mp hloses
  · exact absurd heq.symm c.negated_ne
  · exact rejects_detect.mpr ⟨e, he, hnot⟩

theorem recorded_assertResolved (hr : r.kb.Tidy) (c : Predicate) (provenance : Provenance Time) :
    Recorded r (r.kb.corrections (r.assertResolved c provenance).2.kb)
      (r.assertResolved c provenance).2 := by
  refine ⟨_, assertResolved_history r c provenance, ?_⟩
  have hlines := length_applyStrategy hr (plan (r.kb.snapshot.detect c provenance.certainty))
  have hkb : r.kb.corrections (r.assertResolved c provenance).2.kb = r.kb.corrections
      (r.kb.applyStrategy (plan (r.kb.snapshot.detect c provenance.certainty))).2 := by
    rw [assertResolved_kb]
    dsimp only
    split
    next => rfl
    next haccepted => exact corrections_insertFact (mem_known_of_not_rejected hr haccepted) _
  rw [hkb, ← hlines, assertResolved_resolution]
  split
  next hnone => rw [hnone]; rfl
  next => rfl

theorem recorded_assertChecked (hr : r.kb.Tidy) (c : Predicate) (provenance : Provenance Time) :
    Recorded r (r.kb.corrections (r.after (r.assertChecked c provenance)).kb)
      (r.after (r.assertChecked c provenance)) := by
  by_cases hrefused : (∃ error, validateFact c = .error error) ∨
      provenance.certainty.isBelow r.config.minCertainty = true
  · rw [after_assertChecked_refused hrefused, corrections_self]
    exact .silent rfl
  · rw [not_or, Bool.not_eq_true] at hrefused
    have hvalid : validateFact c = .ok () := by
      cases hcheck : validateFact c with
      | ok => rfl
      | error error => exact absurd ⟨error, hcheck⟩ hrefused.1
    rw [assertChecked_eq hvalid hrefused.2]
    exact recorded_assertResolved hr c provenance

/-- The two strategies of a correction are kept as one record. -/
theorem recorded_autoCorrect (hr : r.kb.Tidy) :
    Recorded r (r.kb.corrections r.autoCorrect.2.kb) r.autoCorrect.2 := by
  by_cases hclean : r.kb.snapshot.detectAll = []
  · have hkb : r.autoCorrect.2.kb = r.kb := by
      simp [autoCorrect_kb, corrected, losers, hclean, removeAll, addExceptions]
    rw [hkb, corrections_self]
    have hinspect : r.inspect.inconsistencies = [] := hclean
    exact .silent (by simp [autoCorrect, hinspect])
  · have hinspect : r.inspect.inconsistencies.isEmpty = false := by
      simpa [inspect] using hclean
    simp only [autoCorrect, hinspect, Bool.false_eq_true, if_false]
    refine ⟨some _, rfl, Eq.symm ?_⟩
    have hfirst := tidy_applyActions hr
    exact ((balanced_applyActions hr _).append (balanced_applyActions (hfirst _) _)).length_lines
      ((curtails_applyActions _ _).trans (curtails_applyActions _ _)) hr

/-- Whatever a request changes by resolving conflicts is on record. -/
theorem recorded_serve (hr : r.kb.Tidy) {request : Request Time} (h : request.isRestore = false) :
    Recorded r (r.resolved request) (r.serve request) := by
  cases hresolution : request.isResolution with
  | false =>
      rw [resolved, hresolution]
      exact .silent (history_serve r hresolution h)
  | true =>
      rw [resolved, hresolution, if_pos rfl]
      cases request with
      | resolve report => exact recorded_resolve hr report
      | assertChecked c provenance => exact recorded_assertChecked hr c provenance
      | autoCorrect => exact recorded_autoCorrect hr
      | _ => cases hresolution

/-- The history only grows at its end, by what the resolutions have changed. -/
theorem Operated.recorded {n : Nat} (h : r.Operated n r') (hr : r.kb.Reachable) :
    r.history <+: r'.history ∧ r'.status.corrections = r.status.corrections + n := by
  induction h with
  | start => exact ⟨List.prefix_rfl, rfl⟩
  | serve request hrun hrestore ih =>
      have hrecorded := recorded_serve (hrun.reachable hr).tidy hrestore
      exact ⟨ih.1.trans hrecorded.history, by rw [hrecorded.corrections, ih.2, Nat.add_assoc]⟩
  | elsewhere kb _ _ ih => exact ih

/-- Applying a strategy only removes facts and appends exceptions, tells each of these changes
in one line, and leaves nothing for a second time. A reasoner's history keeps its records and
adds up to what its resolutions changed. -/
theorem resolutions_accounted :
    (∀ kb : KnowledgeBase Time, kb.Reachable → ∀ s, Curtails kb (kb.applyStrategy s).2 ∧
      (kb.applyStrategy s).1.length = kb.corrections (kb.applyStrategy s).2 ∧
      (kb.applyStrategy s).2.applyStrategy s = ([], (kb.applyStrategy s).2)) ∧
    ∀ (r : Reasoner Time) n r', r.kb.Reachable → Operated r n r' → r.history <+: r'.history ∧
      (r.history = [] → r'.status.corrections = n) := by
  refine ⟨fun kb hkb s => ⟨curtails_applyActions kb s.actions,
    length_applyStrategy hkb.tidy s, applyStrategy_twice kb s⟩, ?_⟩
  intro r n r' hr hrun
  obtain ⟨hhistory, hcorrections⟩ := hrun.recorded hr
  refine ⟨hhistory, fun hnew => ?_⟩
  rw [hcorrections, corrections_eq_sum, hnew]
  exact Nat.zero_add n

/-- The strategy names a fact in two roles and an exception twice, which makes two changes.
Denying the fact at equal certainty later costs it, and the denial is not stored. -/
theorem resolutions_accounted_tux :
    let tux : Predicate := ⟨"Bird", [.const "Tux"]⟩
    let bird : DefaultRule := ⟨⟨"Bird", [.var "x"]⟩, ⟨"Flies", [.var "x"]⟩, .full⟩
    let s : Strategy := ⟨[.retract tux, .except ⟨bird, tux⟩, .reject tux, .except ⟨bird, tux⟩], []⟩
    let told : Reasoner Nat := ({} : Reasoner Nat).serve (.addFact tux)
    let denied := told.serve (.assertChecked tux.negated ⟨.full, "observer", 0⟩)
    (told.kb.applyStrategy s).1.length = 2 ∧
      told.kb.corrections (told.kb.applyStrategy s).2 = 2 ∧
      ((told.kb.applyStrategy s).2.applyStrategy s).1 = [] ∧ denied.status.corrections = 1 := by
  intro tux bird s told denied
  obtain ⟨hstrategy, hruns⟩ := resolutions_accounted
  have htold : told.kb.Reachable := .serve _ _ .empty
  obtain ⟨-, hlength, htwice⟩ := hstrategy told.kb htold s
  have hlines : (told.kb.applyStrategy s).1.length = 2 := by decide +kernel
  have hrun : Operated {} _ denied := .serve _ (.serve _ .start rfl) rfl
  obtain ⟨-, hcorrections⟩ := hruns {} _ denied .empty hrun
  refine ⟨hlines, hlength.symm.trans hlines, congrArg Prod.fst htwice, ?_⟩
  rw [hcorrections rfl]
  decide +kernel

end Reasoner
end Defeasible
