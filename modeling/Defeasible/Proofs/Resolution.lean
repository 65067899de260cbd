import Defeasible.Proofs.Storage

/-!
What a resolution does to a knowledge base. Whatever the order of its actions, it comes to
removing some facts and appending the exceptions that are not there yet. A plan removes the
losing sides of the contradictions and excepts the premises of the violations.
-/

namespace Defeasible

variable {Time : Type}

def Action.removes? : Action → Option Predicate
  | .retract fact | .reject fact => some fact
  | .review .. | .except _ => none

def Action.excepts? : Action → Option RuleException
  | .except exception => some exception
  | .retract _ | .reject _ | .review .. => none

/-- The exceptions with the new ones that are not among them. -/
def addExceptions (exceptions new : List RuleException) : List RuleException :=
  new.foldl (fun es e => if es.contains e then es else es ++ [e]) exceptions

section Exceptions

variable {exceptions new : List RuleException} {e : RuleException}

theorem prefix_addExceptions : exceptions <+: addExceptions exceptions new := by
  induction new generalizing exceptions with
  | nil => exact List.prefix_rfl
  | cons e new ih =>
      rw [addExceptions, List.foldl_cons]
      split
      · exact ih
      · exact (List.prefix_append exceptions [e]).trans ih

theorem mem_addExceptions : e ∈ addExceptions exceptions new ↔ e ∈ exceptions ∨ e ∈ new := by
  induction new generalizing exceptions with
  | nil => simp [addExceptions]
  | cons d new ih =>
      rw [addExceptions, List.foldl_cons]
      refine ih.trans ?_
      split
      next h =>
        have hd : d ∈ exceptions := List.contains_iff_mem.mp h
        simp only [List.mem_cons]
        grind
      next => simp [or_assoc]

end Exceptions

namespace KnowledgeBase

variable {kb : KnowledgeBase Time} {p q : Predicate} {ps : List Predicate}

def removeAll (kb : KnowledgeBase Time) (ps : List Predicate) : KnowledgeBase Time :=
  ps.foldl (fun kb p => (kb.removeFact p).2) kb

theorem removeFact_snd (kb : KnowledgeBase Time) (p : Predicate) :
    (kb.removeFact p).2 = { kb with
      facts := if p.isTimed then kb.facts else kb.facts.erase p
      timed := if p.isTimed then kb.timed.filter (· != p) else kb.timed
      derived := kb.derived.erase p } := by
  rw [removeFact]
  split <;> rfl

theorem addException_snd (kb : KnowledgeBase Time) (e : RuleException) :
    (kb.addException e).2 = { kb with exceptions := addExceptions kb.exceptions [e] } := by
  rw [addException]
  split <;> simp_all [addExceptions]

theorem removeAll_cons (kb : KnowledgeBase Time) (p : Predicate) (ps : List Predicate) :
    kb.removeAll (p :: ps) = (kb.removeFact p).2.removeAll ps := rfl

/-- Removing facts and appending exceptions do not interfere. -/
theorem removeAll_withExceptions (kb : KnowledgeBase Time) (ps : List Predicate)
    (exceptions : List RuleException) :
    { kb with exceptions }.removeAll ps = { kb.removeAll ps with exceptions } := by
  induction ps generalizing kb with
  | nil => rfl
  | cons p ps ih =>
      rw [removeAll_cons, removeAll_cons, ← ih, removeFact_snd, removeFact_snd]

theorem applyActions_snd (kb : KnowledgeBase Time) (actions : List Action) :
    (kb.applyActions actions).2 = { kb.removeAll (actions.filterMap Action.removes?) with
      exceptions := addExceptions kb.exceptions (actions.filterMap Action.excepts?) } := by
  induction actions generalizing kb with
  | nil => rfl
  | cons action actions ih =>
      change ((kb.applyAction action).2.applyActions actions).2 = _
      rw [ih]
      cases action with
      | retract fact | reject fact =>
          simp only [applyAction, List.filterMap_cons, Action.removes?, Action.excepts?,
            removeAll_cons, removeFact_snd]
      | review => rfl
      | except exception =>
          simp only [applyAction, List.filterMap_cons, Action.removes?, Action.excepts?,
            addException_snd, removeAll_withExceptions]
          rfl

theorem get?_removeAll (kb : KnowledgeBase Time) (ps : List Predicate) (q : Predicate) :
    (kb.removeAll ps).facts.get? q =
      if q ∈ ps ∧ q.isTimed = false then none else kb.facts.get? q := by
  induction ps generalizing kb with
  | nil => simp [removeAll]
  | cons p ps ih =>
      rw [removeAll_cons, ih, removeFact_snd]
      by_cases hp : p.isTimed = true
      · by_cases hq : q = p <;> simp [hp, hq]
      · by_cases hq : q = p <;> simp [hp, hq, OrderedMap.get?_erase]

theorem mem_derived_removeAll : p ∈ (kb.removeAll ps).derived.toList ↔
    p ∈ kb.derived.toList ∧ p ∉ ps := by
  induction ps generalizing kb with
  | nil => exact (and_iff_left List.not_mem_nil).symm
  | cons q ps ih =>
      have herase : p ∈ (kb.removeFact q).2.derived.toList ↔ p ∈ kb.derived.toList ∧ p ≠ q := by
        rw [removeFact_snd, OrderedSet.toList, OrderedSet.toList, OrderedMap.mem_keys_iff,
          OrderedMap.mem_keys_iff]
        by_cases hq : p = q <;> simp [OrderedMap.get?_erase, hq]
      rw [removeAll_cons, ih, herase, List.mem_cons, not_or, and_assoc]

theorem timed_removeAll (kb : KnowledgeBase Time) (ps : List Predicate) :
    (kb.removeAll ps).timed =
      kb.timed.filter fun q => !(q.isTimed && ps.contains q) := by
  induction ps generalizing kb with
  | nil => simp [removeAll]
  | cons p ps ih =>
      rw [removeAll_cons, ih, removeFact_snd]
      by_cases hp : p.isTimed = true
      · simp only [hp, if_true, List.filter_filter]
        refine List.filter_congr fun q _ => ?_
        by_cases hq : q = p <;> simp [hq, hp]
      · simp only [hp]
        refine List.filter_congr fun q _ => ?_
        by_cases hq : q = p <;> simp [hq, hp]

theorem containsFact_removeAll :
    (kb.removeAll ps).containsFact p = true ↔ kb.containsFact p = true ∧ p ∉ ps := by
  rw [containsFact, containsFact, timed_removeAll, OrderedMap.contains, OrderedMap.contains,
    get?_removeAll]
  by_cases hp : p.isTimed = true
  · simp [hp]
  · by_cases hmem : p ∈ ps <;> simp [hp, hmem]

theorem removeFact_of_absent (hstored : kb.containsFact p = false)
    (hderived : p ∉ kb.derived.toList) : (kb.removeFact p).2 = kb := by
  rw [removeFact_snd, OrderedMap.erase_of_not_mem hderived]
  rw [containsFact] at hstored
  split at hstored
  next hp =>
    have hfilter : kb.timed.filter (· != p) = kb.timed := by
      refine List.filter_eq_self.mpr fun q hq => ?_
      simp only [bne_iff_ne]
      rintro rfl
      simp_all
    simp [hp, hfilter]
  next hp =>
    have hkeys : p ∉ kb.facts.keys := by
      rw [OrderedMap.mem_keys_iff]
      rintro ⟨value, hvalue⟩
      simp [OrderedMap.contains, hvalue] at hstored
    simp [hp, OrderedMap.erase_of_not_mem hkeys]

theorem removeAll_of_absent
    (h : ∀ p ∈ ps, kb.containsFact p = false ∧ p ∉ kb.derived.toList) : kb.removeAll ps = kb := by
  induction ps with
  | nil => rfl
  | cons p ps ih =>
      obtain ⟨hstored, hderived⟩ := h p (.head _)
      rw [removeAll_cons, removeFact_of_absent hstored hderived]
      exact ih fun q hq => h q (.tail _ hq)

theorem rules_removeAll (kb : KnowledgeBase Time) (ps : List Predicate) :
    (kb.removeAll ps).rules = kb.rules ∧ (kb.removeAll ps).defaultRules = kb.defaultRules := by
  induction ps generalizing kb with
  | nil => exact ⟨rfl, rfl⟩
  | cons p ps ih =>
      rw [removeAll_cons]
      have h := ih (kb.removeFact p).2
      rw [removeFact_snd] at h ⊢
      exact h

end KnowledgeBase

namespace Certainty

variable {a b : Certainty}

theorem eq_of_not_lt (h : ¬ a < b) (h' : ¬ b < a) : a = b := by
  obtain ⟨rank, hrank⟩ := a
  obtain ⟨rank', hrank'⟩ := b
  obtain rfl : rank = rank' := Nat.le_antisymm (Nat.le_of_not_lt h') (Nat.le_of_not_lt h)
  rfl

theorem not_lt_self (a : Certainty) : ¬ a < a := Nat.lt_irrefl a.rank

theorem not_lt_of_lt (h : a < b) : ¬ b < a := Nat.lt_asymm h

theorem not_lt : ¬ a < b ↔ b ≤ a := Nat.not_lt

theorem le_total (a b : Certainty) : a ≤ b ∨ b ≤ a := Nat.le_total a.rank b.rank

end Certainty

namespace Conflict

variable {c : Conflict} {cs : List Conflict} {p : Predicate}

/-- The facts that the conflict costs, whether they are stored or not. -/
def losers (c : Conflict) : List Predicate := (c.actions 0).filterMap Action.removes?

def exception? (c : Conflict) : Option RuleException :=
  match c.kind with
  | .contradiction .. => none
  | .violation rule premise _ => some ⟨rule, premise⟩

theorem mem_losers : p ∈ c.losers ↔ ∃ existing e, c.kind = .contradiction existing e ∧
    (p = existing ∧ ¬ c.certainty < e ∨ p = c.candidate ∧ ¬ e < c.certainty) := by
  obtain ⟨candidate, certainty, kind⟩ := c
  cases kind with
  | violation => simp [losers, actions, Action.removes?]
  | contradiction existing e =>
      simp only [losers, actions, weigh, ConflictKind.contradiction.injEq]
      by_cases hlt : e < certainty
      · simp [hlt, Action.removes?, Certainty.not_lt_of_lt hlt]
      · by_cases hgt : certainty < e
        · simp [hlt, hgt, Action.removes?]
        · simp [hlt, hgt, Action.removes?]

theorem removes_actions (c : Conflict) (position : Nat) :
    (c.actions position).filterMap Action.removes? = c.losers := by
  rw [losers, actions, actions]
  split
  · split <;> rfl
  · rfl

theorem excepts_actions (c : Conflict) (position : Nat) :
    (c.actions position).filterMap Action.excepts? = c.exception?.toList := by
  obtain ⟨candidate, certainty, kind⟩ := c
  cases kind with
  | violation => rfl
  | contradiction existing e =>
      simp only [actions, exception?]
      split <;> rfl

theorem removes_plan (cs : List Conflict) :
    (plan cs).actions.filterMap Action.removes? = cs.flatMap losers := by
  simp only [plan, List.filterMap_flatMap, removes_actions]
  rw [← List.flatMap_map Prod.fst, List.zipIdx_map_fst]

theorem excepts_plan (cs : List Conflict) :
    (plan cs).actions.filterMap Action.excepts? = cs.filterMap exception? := by
  simp only [plan, List.filterMap_flatMap, excepts_actions]
  rw [← List.flatMap_map Prod.fst fun c : Conflict => c.exception?.toList, List.zipIdx_map_fst,
    List.filterMap_eq_flatMap_toList]

/-- The position that a review names does not matter to what is looked for. -/
theorem any_plan {f : Action → Bool} {Q : Conflict → Prop}
    (h : ∀ c position, (Conflict.actions c position).any f = true ↔ Q c) :
    (plan cs).actions.any f = true ↔ ∃ c ∈ cs, Q c := by
  have hfst : ∀ c, c ∈ cs ↔ ∃ x ∈ cs.zipIdx, x.1 = c := fun c => by
    rw [← List.mem_map, List.zipIdx_map_fst]
  rw [plan, List.any_flatMap, List.any_eq_true]
  simp only [h, hfst]
  grind

theorem rejects_plan : (plan cs).rejects p = true ↔ ∃ c ∈ cs, ∃ existing e,
    c.kind = .contradiction existing e ∧ p = c.candidate ∧ ¬ e < c.certainty := by
  refine any_plan fun c position => ?_
  obtain ⟨candidate, certainty, kind⟩ := c
  cases kind with
  | violation => simp [actions]
  | contradiction existing e =>
      simp only [actions, weigh, ConflictKind.contradiction.injEq]
      by_cases hlt : e < certainty
      · simp [hlt]
      · by_cases hgt : certainty < e <;> simp [hlt, hgt, eq_comm]

theorem requiresReview_plan : (plan cs).requiresReview = true ↔
    ∃ c ∈ cs, ∃ existing e, c.kind = .contradiction existing e ∧ e = c.certainty := by
  refine any_plan fun c position => ?_
  obtain ⟨candidate, certainty, kind⟩ := c
  cases kind with
  | violation => simp [actions]
  | contradiction existing e =>
      simp only [actions, weigh, ConflictKind.contradiction.injEq]
      by_cases hlt : e < certainty
      · simp [hlt, show e ≠ certainty from fun h => Certainty.not_lt_self e (h ▸ hlt)]
      · by_cases hgt : certainty < e
        · simp [hlt, hgt, show e ≠ certainty from fun h => Certainty.not_lt_self e (h ▸ hgt)]
        · obtain rfl := Certainty.eq_of_not_lt hlt hgt
          simp [hlt]

end Conflict

theorem KnowledgeBase.applyStrategy_plan (kb : KnowledgeBase Time) (cs : List Conflict) :
    (kb.applyStrategy (plan cs)).2 = { kb.removeAll (cs.flatMap Conflict.losers) with
      exceptions := addExceptions kb.exceptions (cs.filterMap Conflict.exception?) } := by
  rw [applyStrategy, applyActions_snd, Conflict.removes_plan, Conflict.excepts_plan]

namespace KnowledgeBase

/-- The certainty of an ordinary fact, if the fact is stored. -/
def certainty? (kb : KnowledgeBase Time) (p : Predicate) : Option Certainty :=
  (kb.facts.get? p).map fun provenance => (StoredFact.mk p provenance).certainty

variable {kb : KnowledgeBase Time} {c p : Predicate} {k : Certainty}

theorem certainty?_eq_some {e : Certainty} : kb.certainty? p = some e ↔
    ∃ provenance, kb.facts.get? p = some provenance ∧
      (StoredFact.mk p provenance).certainty = e :=
  Option.map_eq_some_iff

theorem mem_keys_iff_certainty? : p ∈ kb.facts.keys ↔ ∃ e, kb.certainty? p = some e := by
  rw [OrderedMap.mem_keys_iff]
  simp [certainty?_eq_some]

theorem certainty?_eq_some_iff_mem {k : Certainty} : kb.certainty? p = some k ↔
    ∃ f ∈ kb.snapshot.facts, f.predicate = p ∧ f.certainty = k := by
  rw [certainty?_eq_some]
  constructor
  · rintro ⟨provenance, hget, rfl⟩
    exact ⟨_, List.mem_map_of_mem (OrderedMap.mem_entries_of_get? hget), rfl, rfl⟩
  · rintro ⟨f, hf, rfl, rfl⟩
    obtain ⟨e, he, rfl⟩ := List.mem_map.mp hf
    exact ⟨e.2, OrderedMap.get?_eq_some_iff.mpr he, rfl⟩

theorem contradiction?_snapshot (kb : KnowledgeBase Time) (c : Predicate) (k : Certainty) :
    kb.snapshot.contradiction? c k =
      (kb.certainty? c.negated).map fun e => ⟨c, k, .contradiction c.negated e⟩ := by
  have hfind : (kb.snapshot.facts.find? fun f => f.predicate = c.negated) =
      (kb.facts.get? c.negated).map fun provenance => ⟨c.negated, provenance⟩ := by
    simp only [snapshot, List.find?_map, OrderedMap.get?, OrderedMap.compare_beq_eq,
      Function.comp_def, Option.map_map, @eq_comm _ c.negated]
    cases h : kb.facts.entries.find? fun e => decide (e.1 = c.negated) with
    | none => rfl
    | some e =>
        have he : e.1 = c.negated := by simpa using List.find?_some h
        simp [he]
  rw [Snapshot.contradiction?, hfind, certainty?, Option.map_map, Option.map_map]
  rfl

theorem kind_of_mem_violations {s : Snapshot Time} {d : Conflict} (h : d ∈ s.violations c k) :
    ∃ rule premise expected, d = ⟨c, k, .violation rule premise expected⟩ ∧
      rule ∈ s.defaultRules ∧ s.defaultViolation rule c = some (premise, expected) := by
  obtain ⟨rule, hrule, hd⟩ := List.mem_filterMap.mp h
  obtain ⟨⟨premise, expected⟩, hviolation, rfl⟩ := Option.map_eq_some_iff.mp hd
  exact ⟨rule, premise, expected, rfl, hrule, hviolation⟩

/-- The only contradiction of a candidate is with its negation. -/
theorem exists_contradiction_detect {Q : Conflict → Predicate → Certainty → Prop} :
    (∃ d ∈ kb.snapshot.detect c k, ∃ existing e,
      d.kind = .contradiction existing e ∧ Q d existing e) ↔
    ∃ e, kb.certainty? c.negated = some e ∧ Q ⟨c, k, .contradiction c.negated e⟩ c.negated e := by
  rw [Snapshot.detect, contradiction?_snapshot]
  constructor
  · rintro ⟨d, hd, existing, e, hkind, hQ⟩
    obtain hd | hd := List.mem_append.mp hd
    · obtain ⟨e', he', rfl⟩ := Option.map_eq_some_iff.mp (Option.mem_toList.mp hd)
      cases hkind
      exact ⟨_, he', hQ⟩
    · obtain ⟨rule, premise, expected, rfl, -⟩ := kind_of_mem_violations hd
      cases hkind
  · rintro ⟨e, he, hQ⟩
    refine ⟨_, List.mem_append_left _ ?_, _, e, rfl, hQ⟩
    rw [he]
    exact .head _

theorem mem_losers_detect : p ∈ (kb.snapshot.detect c k).flatMap Conflict.losers ↔
    ∃ e, kb.certainty? c.negated = some e ∧ (p = c.negated ∧ ¬ k < e ∨ p = c ∧ ¬ e < k) := by
  rw [List.mem_flatMap]
  simp only [Conflict.mem_losers]
  exact exists_contradiction_detect

theorem rejects_detect : (plan (kb.snapshot.detect c k)).rejects c = true ↔
    ∃ e, kb.certainty? c.negated = some e ∧ ¬ e < k := by
  rw [Conflict.rejects_plan, exists_contradiction_detect]
  simp

theorem requiresReview_detect : (plan (kb.snapshot.detect c k)).requiresReview = true ↔
    kb.certainty? c.negated = some k := by
  rw [Conflict.requiresReview_plan, exists_contradiction_detect]
  simp

end KnowledgeBase

end Defeasible
