import Mathlib.Logic.Relation
import Defeasible.Reasoner
import Defeasible.Proofs.Lookup
import Defeasible.Proofs.Derivability

/-!
The facts a knowledge base can come to hold. Whatever is requested of whichever
reasoners over it, every fact it stores has passed the check for facts, the
ordinary ones stand among the ordinary facts and the timed ones among the timed.
-/

namespace Defeasible

variable {Time : Type}

/-- What can be requested of a reasoner with an effect on its knowledge base. -/
inductive Request (Time : Type) where
  | addFact (p : Predicate)
  | addSourcedFact (p : Predicate) (provenance : Provenance Time)
  | addRule (rule : Rule)
  | addDefaultRule (rule : DefaultRule)
  | addException (exception : RuleException)
  | retract (p : Predicate)
  | recordDerived (ps : List Predicate)
  | tell (statement : Parse.Statement)
  | prove (goal : Predicate)
  | proveMonotonic (goal : Predicate)
  | query (query : Query)
  | saturate
  | resolve (report : Report)
  | assertChecked (candidate : Predicate) (provenance : Provenance Time)
  | sweep
  | autoCorrect
  | restore (snapshot : Snapshot Time)

namespace Reasoner

/-- The reasoner after an attempt; a refusal leaves it as it is. -/
def after {α : Type} (r : Reasoner Time) : Except Error (α × Reasoner Time) → Reasoner Time
  | .ok (_, r) => r
  | .error _ => r

def serve (r : Reasoner Time) : Request Time → Reasoner Time
  | .addFact p => r.after (r.addFact p)
  | .addSourcedFact p provenance => r.after (r.addSourcedFact p provenance)
  | .addRule rule => r.addRule rule
  | .addDefaultRule rule => r.addDefaultRule rule
  | .addException exception => r.after (r.addException exception)
  | .retract p => (r.retract p).2
  | .recordDerived ps => (r.recordDerived ps).2
  | .tell statement => r.after (r.tell statement)
  | .prove goal => (r.prove goal).2
  | .proveMonotonic goal => (r.proveMonotonic goal).2
  | .query query => (r.query query).2
  | .saturate => r.saturate.2
  | .resolve report => (r.resolve report).2
  | .assertChecked candidate provenance => r.after (r.assertChecked candidate provenance)
  | .sweep => r.sweep.2
  | .autoCorrect => r.autoCorrect.2
  | .restore snapshot => r.after ((r.restore snapshot).map fun r => ((), r))

end Reasoner

theorem bind_eq_ok {α β : Type} {x : Except Error α} {f : α → Except Error β} {b : β} :
    x >>= f = .ok b ↔ ∃ a, x = .ok a ∧ f a = .ok b := by
  cases x with
  | ok a =>
      refine ⟨fun h => ⟨a, rfl, h⟩, ?_⟩
      rintro ⟨a', ha, h⟩
      cases ha
      exact h
  | error e => exact ⟨nofun, nofun⟩

namespace KnowledgeBase

/-- The knowledge bases that requests lead to from the empty one. The reasoner
that serves a request may have any configuration and any past. -/
inductive Reachable : KnowledgeBase Time → Prop where
  | empty : Reachable {}
  | serve (r : Reasoner Time) (request : Request Time) :
      Reachable r.kb → Reachable (r.serve request).kb

/-- The changes that requests are made of. Nothing is asked of the rules, default rules
and exceptions, which no check is made on. -/
inductive Change : KnowledgeBase Time → KnowledgeBase Time → Prop where
  | store (kb : KnowledgeBase Time) {p : Predicate} (provenance : Option (Provenance Time)) :
      validateFact p = .ok () → Change kb (kb.insertFact p provenance).2
  | remove (kb : KnowledgeBase Time) (p : Predicate) : Change kb (kb.removeFact p).2
  | derive (kb : KnowledgeBase Time) {p : Predicate} : p.isGround = true →
      Change kb { kb with derived := kb.derived.insert p () }
  | amend (kb : KnowledgeBase Time) (rules : List Rule) (defaultRules : List DefaultRule)
      (exceptions : List RuleException) : Change kb { kb with rules, defaultRules, exceptions }
  | clear (kb : KnowledgeBase Time) : Change kb {}

abbrev Changes : KnowledgeBase Time → KnowledgeBase Time → Prop := Relation.ReflTransGen Change

variable {kb kb' : KnowledgeBase Time} {p : Predicate}

theorem toBool_validateFact : (validateFact p).toBool = true ↔ validateFact p = .ok () := by
  cases hcheck : validateFact p with
  | ok => exact iff_of_true rfl rfl
  | error e => exact iff_of_false nofun nofun

theorem isGround_of_validateFact (h : validateFact p = .ok ()) : p.isGround = true := by
  rw [validateFact] at h
  split at h
  · cases h
  · split at h
    · cases h
    next hground => simpa using hground

theorem validateFact_of_mem_consequences (hp : p ∈ kb.consequences.toList) :
    validateFact p = .ok () := by
  have hvalid := (List.mem_filter.mp (OrderedSet.mem_toList_ofList.mp hp)).2
  rw [Bool.and_eq_true, toBool_validateFact] at hvalid
  exact hvalid.2

theorem changes_addException (kb : KnowledgeBase Time) (e : RuleException) :
    Changes kb (kb.addException e).2 := by
  rw [addException]
  split
  · exact .refl
  · exact .single (.amend kb _ _ _)

/-- Only the derived facts change. -/
theorem recordDerived_eq (kb : KnowledgeBase Time) (ps : List Predicate) :
    ∃ derived, (kb.recordDerived ps).2 = { kb with derived } := by
  induction ps generalizing kb with
  | nil => exact ⟨_, rfl⟩
  | cons p ps ih =>
      have hone : ∃ derived, (kb.recordOne p).2 = { kb with derived } := by
        rw [recordOne]
        split <;> exact ⟨_, rfl⟩
      obtain ⟨derived, hone⟩ := hone
      obtain ⟨derived', hrest⟩ := ih (kb.recordOne p).2
      exact ⟨derived', hrest.trans (by rw [hone])⟩

theorem changes_recordDerived (kb : KnowledgeBase Time) (ps : List Predicate) :
    Changes kb (kb.recordDerived ps).2 := by
  induction ps generalizing kb with
  | nil => exact .refl
  | cons p ps ih =>
      have hone : Changes kb (kb.recordOne p).2 := by
        rw [recordOne]
        split
        next h => exact .single (.derive kb (Bool.and_eq_true_iff.mp h |>.1))
        next => exact .refl
      exact hone.trans (ih _)

theorem changes_applyActions (kb : KnowledgeBase Time) (actions : List Action) :
    Changes kb (kb.applyActions actions).2 := by
  induction actions generalizing kb with
  | nil => exact .refl
  | cons action actions ih =>
      have hone : Changes kb (kb.applyAction action).2 := by
        cases action with
        | retract fact | reject fact => exact .single (.remove kb fact)
        | review => exact .refl
        | except exception => exact changes_addException kb exception
      exact hone.trans (ih _)

theorem changes_foldl_insertDerived (kb : KnowledgeBase Time) {ps : List Predicate}
    (hps : ∀ p ∈ ps, validateFact p = .ok ()) : Changes kb (ps.foldl insertDerived kb) := by
  induction ps generalizing kb with
  | nil => exact .refl
  | cons p ps ih =>
      have hp := hps p (.head _)
      have hone : Changes kb (kb.insertDerived p) :=
        .tail (.single (.store kb none hp)) (.derive _ (isGround_of_validateFact hp))
      exact hone.trans (ih _ fun q hq => hps q (.tail _ hq))

theorem changes_saturateFrom (kb : KnowledgeBase Time) (soFar : Saturation) (passes : Nat) :
    Changes kb (kb.saturateFrom soFar passes).2 := by
  induction passes generalizing kb soFar with
  | zero => exact .refl
  | succ passes ih =>
      rw [saturateFrom]
      split
      · exact .refl
      · exact (changes_foldl_insertDerived kb fun p => validateFact_of_mem_consequences).trans
          (ih _ _)

theorem changes_insertAll {facts : List (StoredFact Time)} (h : kb.insertAll facts = .ok kb') :
    Changes kb kb' := by
  induction facts generalizing kb with
  | nil =>
      cases h
      exact .refl
  | cons fact facts ih =>
      obtain ⟨⟨⟩, hvalid, hrest⟩ := bind_eq_ok.mp h
      exact .head (.store kb _ hvalid) (ih hrest)

theorem changes_deriveAll {ps : List Predicate} (h : kb.deriveAll ps = .ok kb') :
    Changes kb kb' := by
  induction ps generalizing kb with
  | nil =>
      cases h
      exact .refl
  | cons p ps ih =>
      obtain ⟨⟨⟩, hvalid, hrest⟩ := bind_eq_ok.mp h
      exact .head (.derive kb (isGround_of_validateFact hvalid)) (ih hrest)

theorem changes_ofSnapshot (kb : KnowledgeBase Time) {s : Snapshot Time}
    (h : ofSnapshot s = .ok kb') :
    Changes kb kb' := by
  obtain ⟨kb₁, hfacts, hrest⟩ := bind_eq_ok.mp h
  obtain ⟨kb₂, htimed, hrest⟩ := bind_eq_ok.mp hrest
  obtain ⟨kb₃, hderived, hrest⟩ := bind_eq_ok.mp hrest
  cases hrest
  have hload : Changes kb kb₃ :=
    .head (.clear kb) (((changes_insertAll hfacts).trans (changes_insertAll htimed)).trans
      (changes_deriveAll hderived))
  exact hload.tail (.amend kb₃ _ _ _)

end KnowledgeBase

namespace Reasoner

open KnowledgeBase

variable {r : Reasoner Time}

theorem changes_after {α : Type} {attempt : Except Error (α × Reasoner Time)}
    (hok : ∀ a r', attempt = .ok (a, r') → Changes r.kb r'.kb) :
    Changes r.kb (r.after attempt).kb := by
  cases attempt with
  | error e => exact .refl
  | ok result => exact hok result.1 result.2 rfl

/-- Facts with and without provenance are stored after the same check. -/
theorem changes_insertChecked (r : Reasoner Time) (p : Predicate)
    (provenance : Option (Provenance Time)) :
    Changes r.kb (r.after (do
      validateFact p
      let (isNew, kb) := r.kb.insertFact p provenance
      return (isNew, { r with kb }))).kb := by
  refine changes_after fun _ r' hok => ?_
  obtain ⟨⟨⟩, hvalid, hrest⟩ := bind_eq_ok.mp hok
  cases hrest
  exact .single (.store r.kb provenance hvalid)

theorem changes_except (r : Reasoner Time) (e : RuleException) :
    Changes r.kb (r.after (r.addException e)).kb := by
  refine changes_after fun _ r' hok => ?_
  rw [addException] at hok
  split at hok
  · cases hok
    exact changes_addException r.kb e
  · cases hok

theorem changes_tell (r : Reasoner Time) (statement : Parse.Statement) :
    Changes r.kb (r.after (r.tell statement)).kb := by
  cases statement with
  | fact p =>
      have hadd : Changes r.kb (r.after (r.addFact p)).kb := changes_insertChecked r p none
      refine changes_after fun _ r' hok => ?_
      obtain ⟨result, hresult, hrest⟩ := bind_eq_ok.mp hok
      rw [hresult] at hadd
      cases hrest
      exact hadd
  | rule | defaultRule => exact .single (.amend r.kb _ _ _)

theorem changes_resolve (r : Reasoner Time) (report : Report) :
    Changes r.kb (r.resolve report).2.kb := by
  rw [resolve]
  split
  · exact changes_applyActions r.kb report.strategy.actions
  · exact .refl

theorem changes_assertResolved (r : Reasoner Time) {candidate : Predicate}
    (hvalid : validateFact candidate = .ok ()) (provenance : Provenance Time) :
    Changes r.kb (r.assertResolved candidate provenance).2.kb := by
  have happlied := changes_applyActions r.kb
    (r.check candidate provenance.certainty).strategy.actions
  have hinserted := happlied.tail (.store _ (some provenance) hvalid)
  by_cases hrejects : (r.check candidate provenance.certainty).strategy.rejects candidate
  · simp only [assertResolved, hrejects, if_true]
    split
    · exact happlied
    · exact happlied
  · simp only [assertResolved, hrejects]
    split
    · exact hinserted
    · exact hinserted

theorem changes_assertChecked (r : Reasoner Time) (candidate : Predicate)
    (provenance : Provenance Time) :
    Changes r.kb (r.after (r.assertChecked candidate provenance)).kb := by
  refine changes_after fun _ r' hok => ?_
  obtain ⟨⟨⟩, hvalid, hrest⟩ := bind_eq_ok.mp hok
  split at hrest
  · cases hrest
    exact .refl
  · obtain rfl := congrArg Prod.snd (Except.ok.inj hrest)
    exact changes_assertResolved r hvalid provenance

theorem changes_autoCorrect (r : Reasoner Time) : Changes r.kb r.autoCorrect.2.kb := by
  simp only [autoCorrect]
  split
  · exact (changes_applyActions _ _).trans (changes_applyActions _ _)
  · exact (changes_applyActions _ _).trans (changes_applyActions _ _)

theorem changes_serve (r : Reasoner Time) (request : Request Time) :
    Changes r.kb (r.serve request).kb := by
  cases request with
  | addFact p => exact changes_insertChecked r p none
  | addSourcedFact p provenance => exact changes_insertChecked r p (some provenance)
  | addRule | addDefaultRule => exact .single (.amend r.kb _ _ _)
  | addException e => exact changes_except r e
  | retract p => exact .single (.remove r.kb p)
  | recordDerived ps => exact changes_recordDerived r.kb ps
  | tell statement => exact changes_tell r statement
  | prove | proveMonotonic => exact changes_recordDerived r.kb _
  | query q =>
      cases q with
      | goal => exact changes_recordDerived r.kb _
      | time => exact .refl
  | saturate => exact changes_saturateFrom r.kb _ _
  | resolve report => exact changes_resolve r report
  | assertChecked candidate provenance => exact changes_assertChecked r candidate provenance
  | sweep => exact .refl
  | autoCorrect => exact changes_autoCorrect r
  | restore snapshot =>
      rw [serve, restore]
      cases hkb : ofSnapshot snapshot with
      | error => exact .refl
      | ok kb => exact changes_ofSnapshot r.kb hkb

end Reasoner

namespace KnowledgeBase

variable {kb kb' : KnowledgeBase Time} {p : Predicate}

theorem Changes.invariant {P : KnowledgeBase Time → Prop} (h : Changes kb kb')
    (hchange : ∀ {kb kb'}, Change kb kb' → P kb → P kb') (hkb : P kb) : P kb' := by
  induction h with
  | refl => exact hkb
  | tail _ hlast ih => exact hchange hlast ih

/-- What every change keeps holds of whatever requests lead to. -/
theorem Reachable.invariant {P : KnowledgeBase Time → Prop} (h : kb.Reachable) (hempty : P {})
    (hchange : ∀ {kb kb'}, Change kb kb' → P kb → P kb') : P kb := by
  induction h with
  | empty => exact hempty
  | serve r request _ ih => exact (r.changes_serve request).invariant hchange ih

theorem Reachable.foldl_serve {r : Reasoner Time} (h : r.kb.Reachable)
    (requests : List (Request Time)) :
    (requests.foldl Reasoner.serve r).kb.Reachable := by
  induction requests generalizing r with
  | nil => exact h
  | cons request requests ih => exact ih (.serve r request h)

/-- Every stored fact is valid and stands among the facts of its kind. -/
structure Placed (kb : KnowledgeBase Time) : Prop where
  facts : ∀ p ∈ kb.facts.keys, validateFact p = .ok () ∧ p.isTimed = false
  timed : ∀ p ∈ kb.timed, validateFact p = .ok () ∧ p.isTimed = true

theorem placed_empty : Placed ({} : KnowledgeBase Time) := ⟨nofun, nofun⟩

theorem Placed.insertFact (h : kb.Placed) (hp : validateFact p = .ok ())
    (provenance : Option (Provenance Time)) : (kb.insertFact p provenance).2.Placed := by
  rw [KnowledgeBase.insertFact]
  split
  next htimed =>
    split
    · exact h
    · refine ⟨h.facts, fun q hq => ?_⟩
      obtain hq | hq := List.mem_append.mp hq
      · exact h.timed q hq
      · obtain rfl := List.mem_singleton.mp hq
        exact ⟨hp, htimed⟩
  next htimed =>
    have hfacts : ∀ value, ∀ q ∈ (kb.facts.insert p value).keys,
        validateFact q = .ok () ∧ q.isTimed = false := by
      intro value q hq
      obtain rfl | hq := OrderedMap.mem_keys_insert.mp hq
      · exact ⟨hp, Bool.not_eq_true _ ▸ htimed⟩
      · exact h.facts q hq
    split
    · exact ⟨hfacts _, h.timed⟩
    · exact ⟨hfacts _, h.timed⟩

theorem Placed.removeFact (h : kb.Placed) (p : Predicate) : (kb.removeFact p).2.Placed := by
  rw [KnowledgeBase.removeFact]
  split
  · exact ⟨h.facts, fun q hq => h.timed q (List.mem_of_mem_filter hq)⟩
  · exact ⟨fun q hq => h.facts q (OrderedMap.mem_keys_of_mem_erase hq), h.timed⟩

theorem Placed.change (hchange : Change kb kb') (h : kb.Placed) : kb'.Placed := by
  cases hchange with
  | store provenance hp => exact h.insertFact hp provenance
  | remove p => exact h.removeFact p
  | derive | amend => exact ⟨h.facts, h.timed⟩
  | clear => exact placed_empty

theorem Reachable.placed (h : kb.Reachable) : kb.Placed := h.invariant placed_empty Placed.change

theorem Placed.containsFact_of_mem_keys (h : kb.Placed) (hp : p ∈ kb.facts.keys) :
    kb.containsFact p = true := by
  obtain ⟨provenance, hprovenance⟩ := OrderedMap.mem_keys_iff.mp hp
  simp [containsFact, (h.facts p hp).2, OrderedMap.contains, hprovenance]

theorem Placed.foldl_insertDerived (h : kb.Placed) {ps : List Predicate}
    (hps : ∀ p ∈ ps, validateFact p = .ok ()) :
    (ps.foldl KnowledgeBase.insertDerived kb).Placed :=
  (changes_foldl_insertDerived kb hps).invariant Placed.change h

theorem Placed.saturateFrom (h : kb.Placed) (soFar : Saturation) (passes : Nat) :
    (kb.saturateFrom soFar passes).2.Placed :=
  (changes_saturateFrom kb soFar passes).invariant Placed.change h

theorem snapshot_predicates (kb : KnowledgeBase Time) : kb.snapshot.predicates = kb.facts.keys := by
  rw [Snapshot.predicates, snapshot, List.map_map]
  rfl

theorem Placed.factsGround (h : kb.Placed) : kb.snapshot.FactsGround := by
  intro p hp
  obtain hp | hp := List.mem_append.mp hp
  · rw [snapshot_predicates] at hp
    exact isGround_of_validateFact (h.facts p hp).1
  · exact isGround_of_validateFact (h.timed p hp).1

theorem Placed.kindsApart (h : kb.Placed) : kb.snapshot.KindsApart := by
  refine ⟨fun p hp => ?_, fun p hp => (h.timed p hp).2⟩
  rw [snapshot_predicates] at hp
  exact (h.facts p hp).2

end KnowledgeBase

theorem Snapshot.isExcepted_iff {kb : Snapshot Time} {r : DefaultRule} {p : Predicate} :
    kb.isExcepted r p = true ↔ ⟨r, p⟩ ∈ kb.exceptions := by
  simp only [isExcepted, List.any_eq_true, Bool.and_eq_true, decide_eq_true_eq]
  constructor
  · rintro ⟨⟨rule, excluded⟩, he, rfl, rfl⟩
    exact he
  · exact fun he => ⟨_, he, rfl, rfl⟩

end Defeasible
