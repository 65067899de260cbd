import Defeasible.Proofs.Correction
import Defeasible.Proofs.Opposition

/-!
What a correction decides. Which facts are taken away is judged once, by the facts as they
were: a fact goes if an opposite of it is stored that is at least as certain. Where negation
leads back, every stored fact has at most one opposite, so that the pairs do not meddle with
each other and nothing else is touched. An exception is added for a violation by a fact that
stays. The premise of the violation is not asked about again, and it may be gone.
-/

namespace Defeasible

variable {Time : Type}

namespace Predicate

variable {p q : Predicate}

/-- One of the two carries no mark, and the other is its negation. -/
def Opposes (p q : Predicate) : Prop :=
  p.isNegated = false ∧ p.negated = q ∨ q.isNegated = false ∧ q.negated = p

theorem opposes_negated (h : p.negated.negated = p) : p.Opposes p.negated := by
  cases hmark : p.isNegated with
  | false => exact .inl ⟨hmark, rfl⟩
  | true =>
      rw [negated_negated_iff_marks, hmark] at h
      exact .inr ⟨h, negated_negated_iff_marks.mpr (h.trans (hmark ▸ rfl))⟩

theorem Opposes.eq_negated (h : p.Opposes q) (hq : q.negated.negated = q) : q = p.negated := by
  obtain ⟨-, rfl⟩ | ⟨-, rfl⟩ := h
  · rfl
  · exact hq.symm

end Predicate

namespace KnowledgeBase

variable {kb : KnowledgeBase Time} {p : Predicate}

/-- An opposite of the stored fact is stored and is at least as certain. -/
def Outweighed (kb : KnowledgeBase Time) (p : Predicate) : Prop :=
  ∃ q k e, p.Opposes q ∧ kb.certainty? p = some k ∧ kb.certainty? q = some e ∧ k ≤ e

theorem mem_losers_iff : p ∈ kb.losers ↔ kb.Outweighed p := by
  simp only [mem_losers_detectAll, Certainty.not_lt]
  constructor
  · rintro ⟨c, k, e, hmark, hc, he, ⟨rfl, hle⟩ | ⟨rfl, hle⟩⟩
    · exact ⟨c, e, k, .inr ⟨hmark, rfl⟩, he, hc, hle⟩
    · exact ⟨_, k, e, .inl ⟨hmark, rfl⟩, hc, he, hle⟩
  · rintro ⟨q, k, e, ⟨hmark, rfl⟩ | ⟨hmark, rfl⟩, hp, hq, hle⟩
    · exact ⟨p, k, e, hmark, hp, hq, .inr ⟨rfl, hle⟩⟩
    · exact ⟨q, e, k, hmark, hq, hp, .inl ⟨rfl, hle⟩⟩

theorem Outweighed.mem_keys (h : kb.Outweighed p) : p ∈ kb.facts.keys := by
  obtain ⟨q, k, e, -, hp, -⟩ := h
  exact mem_keys_iff_certainty?.mpr ⟨k, hp⟩

/-- Among names that negation leads back to, the only opposite of a stored fact is its
negation. -/
theorem outweighed_iff (hback : ∀ q ∈ kb.facts.keys, q.negated.negated = q)
    (hp : p ∈ kb.facts.keys) : kb.Outweighed p ↔
      ∃ k e, kb.certainty? p = some k ∧ kb.certainty? p.negated = some e ∧ k ≤ e := by
  constructor
  · rintro ⟨q, k, e, hopposes, hk, he, hle⟩
    obtain rfl := hopposes.eq_negated (hback q (mem_keys_iff_certainty?.mpr ⟨e, he⟩))
    exact ⟨k, e, hk, he, hle⟩
  · rintro ⟨k, e, hk, he, hle⟩
    exact ⟨p.negated, k, e, Predicate.opposes_negated (hback p hp), hk, he, hle⟩

section Corrected

theorem get?_corrected (h : ¬ kb.Outweighed p) :
    kb.corrected.facts.get? p = kb.facts.get? p := by
  refine (get?_removeAll kb kb.losers p).trans (if_neg fun hloses => ?_)
  exact h (mem_losers_iff.mp hloses.1)

theorem Placed.stays_iff (h : kb.Placed) :
    p ∈ kb.corrected.facts.keys ↔ p ∈ kb.facts.keys ∧ ¬ kb.Outweighed p := by
  rw [h.mem_keys_corrected, mem_losers_iff]

theorem Placed.timed_corrected (h : kb.Placed) : kb.corrected.timed = kb.timed := by
  refine (timed_removeAll kb kb.losers).trans (List.filter_eq_self.mpr fun p _ => ?_)
  have hordinary : ¬ (p.isTimed = true ∧ p ∈ kb.losers) := by
    rintro ⟨htimed, hloses⟩
    rw [(h.facts p (mem_losers_iff.mp hloses).mem_keys).2] at htimed
    cases htimed
  rw [← List.contains_iff_mem, ← Bool.and_eq_true, Bool.not_eq_true] at hordinary
  rw [hordinary, Bool.not_false]

theorem Placed.mem_derived_corrected (h : kb.Placed) : p ∈ kb.corrected.derived.toList ↔
    p ∈ kb.derived.toList ∧ (p ∈ kb.facts.keys → p ∈ kb.corrected.facts.keys) := by
  refine mem_derived_removeAll.trans (and_congr_right fun _ => ?_)
  rw [mem_losers_iff, h.stays_iff]
  exact ⟨fun hp hkeys => ⟨hkeys, hp⟩, fun hp hout => (hp hout.mem_keys).2 hout⟩

/-- What is left of a knowledge base when its contradictions have been decided by certainty. -/
structure Settles (kb after : KnowledgeBase Time) : Prop where
  apart : ∀ p ∈ after.facts.keys, p.negated ∉ after.facts.keys
  decided : ∀ p k e, kb.certainty? p = some k → kb.certainty? p.negated = some e →
    (e < k → after.facts.get? p = kb.facts.get? p ∧ p.negated ∉ after.facts.keys) ∧
    (k < e → p ∉ after.facts.keys ∧ after.facts.get? p.negated = kb.facts.get? p.negated) ∧
    (k = e → p ∉ after.facts.keys ∧ p.negated ∉ after.facts.keys)
  unopposed : ∀ p, (p ∈ kb.facts.keys → p.negated ∉ kb.facts.keys) →
    after.facts.get? p = kb.facts.get? p
  timed : after.timed = kb.timed
  rules : after.rules = kb.rules ∧ after.defaultRules = kb.defaultRules
  derived : ∀ p, p ∈ after.derived.toList ↔
    p ∈ kb.derived.toList ∧ (p ∈ kb.facts.keys → p ∈ after.facts.keys)
  exceptions : kb.exceptions <+: after.exceptions

/-- Of a stored pair each side goes if the other is at least as certain. -/
theorem outweighed_pair (hback : ∀ q ∈ kb.facts.keys, q.negated.negated = q) {k e : Certainty}
    (hk : kb.certainty? p = some k) (he : kb.certainty? p.negated = some e) :
    (kb.Outweighed p ↔ k ≤ e) ∧ (kb.Outweighed p.negated ↔ e ≤ k) := by
  have hp := mem_keys_iff_certainty?.mpr ⟨k, hk⟩
  have hn := mem_keys_iff_certainty?.mpr ⟨e, he⟩
  rw [outweighed_iff hback hp, outweighed_iff hback hn, hback p hp, hk, he]
  simp

theorem Placed.settles_corrected (h : kb.Placed)
    (hback : ∀ p ∈ kb.facts.keys, p.negated.negated = p) : Settles kb kb.corrected where
  apart p hp hn := by
    rw [h.stays_iff] at hp hn
    obtain ⟨k, hk⟩ := mem_keys_iff_certainty?.mp hp.1
    obtain ⟨e, he⟩ := mem_keys_iff_certainty?.mp hn.1
    obtain ⟨hout, hout'⟩ := outweighed_pair hback hk he
    exact (Certainty.le_total k e).elim (fun hle => hp.2 (hout.mpr hle))
      fun hle => hn.2 (hout'.mpr hle)
  decided p k e hk he := by
    obtain ⟨hout, hout'⟩ := outweighed_pair hback hk he
    have hgone : ∀ q, kb.Outweighed q → q ∉ kb.corrected.facts.keys :=
      fun q hq hstays => (h.stays_iff.mp hstays).2 hq
    refine ⟨fun hlt => ⟨get?_corrected fun hp => ?_, hgone _ (hout'.mpr ?_)⟩,
      fun hlt => ⟨hgone _ (hout.mpr ?_), get?_corrected fun hn => ?_⟩, fun htie => ?_⟩
    · exact Certainty.not_lt.mpr (hout.mp hp) hlt
    · exact Certainty.not_lt.mp (Certainty.not_lt_of_lt hlt)
    · exact Certainty.not_lt.mp (Certainty.not_lt_of_lt hlt)
    · exact Certainty.not_lt.mpr (hout'.mp hn) hlt
    · subst htie
      have hle := Certainty.not_lt.mp (Certainty.not_lt_self k)
      exact ⟨hgone _ (hout.mpr hle), hgone _ (hout'.mpr hle)⟩
  unopposed p hp := by
    refine get?_corrected fun hout => ?_
    obtain ⟨k, e, -, he, -⟩ := (outweighed_iff hback hout.mem_keys).mp hout
    exact hp hout.mem_keys (mem_keys_iff_certainty?.mpr ⟨e, he⟩)
  timed := h.timed_corrected
  rules := rules_removeAll kb kb.losers
  derived _ := h.mem_derived_corrected
  exceptions := prefix_addExceptions

/-- What is excepted anew is the premise of a violation by a fact that stays. -/
theorem Placed.violation_of_excepted (h : kb.Placed) {e : RuleException}
    (hnew : e ∈ kb.corrected.exceptions) (hold : e ∉ kb.exceptions) :
    e.rule ∈ kb.defaultRules ∧ ∃ c ∈ kb.corrected.facts.keys, ∃ expected,
      kb.snapshot.defaultViolation e.rule c = some (e.excluded, expected) := by
  obtain ⟨d, hd, hstays, hexception⟩ := (h.mem_exceptions_corrected.mp hnew).resolve_left hold
  obtain ⟨-, ⟨hcontradiction, -⟩ | ⟨rule, premise, expected, hrule, hkind, hviolation⟩⟩ :=
    detectAll_cases hd
  · rw [Conflict.exception?_of_contradiction hcontradiction] at hexception
    cases hexception
  · rw [Conflict.exception?, hkind] at hexception
    cases hexception
    exact ⟨hrule, d.candidate, hstays, expected, hviolation⟩

end Corrected

end KnowledgeBase

namespace Reasoner

open KnowledgeBase

/-- Where negation leads back for all stored facts, a correction decides every contradiction
by certainty and touches nothing else. -/
theorem autoCorrect_decides (r : Reasoner Time) (hr : r.kb.Reachable)
    (hback : ∀ p ∈ r.kb.facts.keys, p.negated.negated = p) :
    Settles r.kb r.autoCorrect.2.kb := by
  rw [autoCorrect_kb]
  exact hr.placed.settles_corrected hback

/-- A fact that outranks its negation, a tie, and a bird that has no part in either. -/
theorem autoCorrect_decides_penguin :
    let r : Reasoner Nat := List.foldl Reasoner.serve {} [.addFact ⟨"Bird", [.const "Tux"]⟩,
      .addSourcedFact ⟨"Flies", [.const "Tux"]⟩ ⟨⟨0x3F666666, by decide⟩, "observer", 0⟩,
      .addFact ⟨"NotFlies", [.const "Tux"]⟩, .addFact ⟨"Wet", [.const "Tux"]⟩,
      .addFact ⟨"NotWet", [.const "Tux"]⟩, .addFact (.happensAt ⟨"Boot", []⟩ 5)]
    let after := r.autoCorrect.2.kb
    ⟨"Flies", [.const "Tux"]⟩ ∉ after.facts.keys ∧
      after.facts.get? ⟨"NotFlies", [.const "Tux"]⟩ = some none ∧
      ⟨"Wet", [.const "Tux"]⟩ ∉ after.facts.keys ∧ ⟨"NotWet", [.const "Tux"]⟩ ∉ after.facts.keys ∧
      after.facts.get? ⟨"Bird", [.const "Tux"]⟩ = some none ∧
      after.timed = [.happensAt ⟨"Boot", []⟩ 5] := by
  intro r after
  have hsettles : Settles r.kb after := autoCorrect_decides r
    (Reachable.empty.foldl_serve (r := {}) _) (by decide +kernel)
  have hflies : Predicate.negated ⟨"Flies", [.const "Tux"]⟩ = ⟨"NotFlies", [.const "Tux"]⟩ := by
    decide +kernel
  have hwet : Predicate.negated ⟨"Wet", [.const "Tux"]⟩ = ⟨"NotWet", [.const "Tux"]⟩ := by
    decide +kernel
  obtain ⟨-, houtranked, -⟩ := hsettles.decided ⟨"Flies", [.const "Tux"]⟩
    ⟨0x3F666666, by decide⟩ .full (by decide +kernel) (by decide +kernel)
  obtain ⟨-, -, htie⟩ := hsettles.decided ⟨"Wet", [.const "Tux"]⟩ .full .full
    (by decide +kernel) (by decide +kernel)
  have hbird := hsettles.unopposed ⟨"Bird", [.const "Tux"]⟩ (by decide +kernel)
  rw [hflies] at houtranked
  rw [hwet] at htie
  refine ⟨(houtranked (by decide)).1, (houtranked (by decide)).2.trans ?_, (htie rfl).1,
    (htie rfl).2, hbird.trans ?_, hsettles.timed.trans ?_⟩
  · decide +kernel
  · decide +kernel
  · decide +kernel

/-- An exception is added for a fact that stays. The premise that it excludes was stored, and
stays exactly if no opposite of it was stored that is at least as certain. -/
theorem autoCorrect_excepts (r : Reasoner Time) (hr : r.kb.Reachable) {e : RuleException}
    (hnew : e ∈ r.autoCorrect.2.kb.exceptions) (hold : e ∉ r.kb.exceptions) :
    (e.rule ∈ r.kb.defaultRules ∧ ∃ c ∈ r.autoCorrect.2.kb.facts.keys, ∃ expected,
      r.kb.snapshot.defaultViolation e.rule c = some (e.excluded, expected)) ∧
    e.excluded ∈ r.kb.facts.keys ∧
    (e.excluded ∈ r.autoCorrect.2.kb.facts.keys ↔ ¬ r.kb.Outweighed e.excluded) := by
  rw [autoCorrect_kb] at hnew ⊢
  obtain ⟨hrule, c, hc, expected, hviolation⟩ := hr.placed.violation_of_excepted hnew hold
  have hstored := (Snapshot.mem_of_defaultViolation hviolation).1
  rw [snapshot_predicates] at hstored
  refine ⟨⟨hrule, c, hc, expected, hviolation⟩, hstored, ?_⟩
  rw [hr.placed.stays_iff, and_iff_right hstored]

/-- Nothing opposes the premise, so that it stays beside the fact that it is excepted for. -/
theorem autoCorrect_excepts_penguin :
    let bird : DefaultRule := ⟨⟨"Bird", [.var "x"]⟩, ⟨"Flies", [.var "x"]⟩, .full⟩
    let r : Reasoner Nat := List.foldl Reasoner.serve {} [.addFact ⟨"Bird", [.const "Tux"]⟩,
      .addDefaultRule bird, .addFact ⟨"NotFlies", [.const "Tux"]⟩]
    let after := r.autoCorrect.2.kb
    ⟨bird, ⟨"Bird", [.const "Tux"]⟩⟩ ∈ after.exceptions ∧
      ⟨"Bird", [.const "Tux"]⟩ ∈ after.facts.keys ∧
      ∃ c ∈ after.facts.keys, ∃ expected,
        r.kb.snapshot.defaultViolation bird c = some (⟨"Bird", [.const "Tux"]⟩, expected) := by
  intro bird r after
  have hnew : ⟨bird, ⟨"Bird", [.const "Tux"]⟩⟩ ∈ after.exceptions := by decide +kernel
  obtain ⟨⟨-, hviolation⟩, hstored, hstays⟩ := autoCorrect_excepts r
    (Reachable.empty.foldl_serve (r := {}) _) hnew (by decide +kernel)
  refine ⟨hnew, hstays.mpr fun hout => ?_, hviolation⟩
  obtain ⟨k, e, -, he, -⟩ := (outweighed_iff (by decide +kernel) hstored).mp hout
  have hnone : r.kb.certainty? (Predicate.negated ⟨"Bird", [.const "Tux"]⟩) = none := by
    decide +kernel
  rw [hnone] at he
  cases he

/-- The premise is lost to its negation in the same correction that excepts it. -/
theorem autoCorrect_excepts_lost_premise :
    let bird : DefaultRule := ⟨⟨"Bird", [.var "x"]⟩, ⟨"Flies", [.var "x"]⟩, .full⟩
    let r : Reasoner Nat := List.foldl Reasoner.serve {} [.addFact ⟨"Bird", [.const "Tux"]⟩,
      .addFact ⟨"NotBird", [.const "Tux"]⟩, .addDefaultRule bird,
      .addFact ⟨"NotFlies", [.const "Tux"]⟩]
    r.kb.Reachable ∧ r.kb.exceptions = [] ∧
      r.autoCorrect.2.kb.exceptions = [⟨bird, ⟨"Bird", [.const "Tux"]⟩⟩] ∧
      r.autoCorrect.2.kb.facts.keys = [⟨"NotFlies", [.const "Tux"]⟩] := by
  intro bird r
  exact ⟨Reachable.empty.foldl_serve (r := {}) _, by decide +kernel, by decide +kernel,
    by decide +kernel⟩

end Reasoner

end Defeasible
