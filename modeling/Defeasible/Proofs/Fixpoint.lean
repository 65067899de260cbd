import Mathlib.Data.Set.Basic
import Mathlib.Logic.Function.Iterate
import Mathlib.Order.Bounds.Basic
import Defeasible.Proofs.Storage
import Defeasible.Proofs.MostGeneral

/-!
Forward chaining as a fixpoint. A pass over the stored facts is one application of an
operator on sets of predicates that is stated without unification, a run is as many
applications as it has passes, and a run that ends by itself ends at the least set
that holds the stored facts and is closed under the operator.
-/

namespace Defeasible

variable {Time : Type}

namespace Rule

/-- Variables that the premise does not have are left as they are. -/
def Matches (r : Rule) (σ : String → Term) : Prop := ∀ v, v ∉ r.premise.vars → σ v = .var v

/-- The instance of the premise is in the set, and that of the conclusion is the fact. -/
def Yields (r : Rule) (σ : String → Term) (S : Set Predicate) (p : Predicate) : Prop :=
  r.premise.subst σ ∈ S ∧ r.conclusion.subst σ = p ∧ validateFact p = .ok ()

/-- Every variable of the conclusion is a variable of the premise. -/
def RangeRestricted (r : Rule) : Prop := ∀ v ∈ r.conclusion.vars, v ∈ r.premise.vars

variable {r : Rule} {σ τ : String → Term}

theorem Matches.unique (hσ : r.Matches σ) (hτ : r.Matches τ)
    (h : r.premise.subst σ = r.premise.subst τ) : σ = τ := by
  funext v
  by_cases hv : v ∈ r.premise.vars
  · exact Predicate.eq_of_subst_eq h v hv
  · rw [hσ v hv, hτ v hv]

theorem RangeRestricted.exists_matches (h : r.RangeRestricted) (σ : String → Term) :
    ∃ τ, r.Matches τ ∧ r.premise.subst τ = r.premise.subst σ ∧
      r.conclusion.subst τ = r.conclusion.subst σ := by
  refine ⟨fun v => if v ∈ r.premise.vars then σ v else .var v, ?_, ?_, ?_⟩
  · exact fun v hv => if_neg hv
  · exact Predicate.subst_congr fun v hv => if_pos hv
  · exact Predicate.subst_congr fun v hv => if_pos (h v hv)

end Rule

/-- The set with every fact that a rule concludes by matching its premise with a member. -/
def advance (rules : List Rule) (S : Set Predicate) : Set Predicate :=
  {p | p ∈ S ∨ ∃ r ∈ rules, ∃ σ, r.Matches σ ∧ r.Yields σ S p}

/-- The same with anything put in for the variables that the match leaves open. -/
def advanceFreely (rules : List Rule) (S : Set Predicate) : Set Predicate :=
  {p | p ∈ S ∨ ∃ r ∈ rules, ∃ σ, r.Yields σ S p}

section Operator

variable {rules : List Rule} {S C : Set Predicate}

theorem advanceFreely_eq_advance (h : ∀ r ∈ rules, r.RangeRestricted) (S : Set Predicate) :
    advanceFreely rules S = advance rules S := by
  ext p
  refine or_congr_right ⟨?_, ?_⟩
  · rintro ⟨r, hr, σ, hpremise, hconclusion, hvalid⟩
    obtain ⟨τ, hτ, hsame, hsame'⟩ := (h r hr).exists_matches σ
    exact ⟨r, hr, τ, hτ, hsame ▸ hpremise, hsame'.trans hconclusion, hvalid⟩
  · rintro ⟨r, hr, σ, -, hyields⟩
    exact ⟨r, hr, σ, hyields⟩

theorem subset_advance : S ⊆ advance rules S := fun _ hp => .inl hp

theorem advance_mono (h : S ⊆ C) : advance rules S ⊆ advance rules C := by
  rintro p (hp | ⟨r, hr, σ, hσ, hpremise, hrest⟩)
  · exact .inl (h hp)
  · exact .inr ⟨r, hr, σ, hσ, h hpremise, hrest⟩

theorem subset_iterate_advance (n : Nat) : S ⊆ (advance rules)^[n] S := by
  induction n with
  | zero => exact fun _ hp => hp
  | succ n ih =>
      rw [Function.iterate_succ_apply']
      exact ih.trans subset_advance

theorem iterate_advance_subset (hS : S ⊆ C) (hC : advance rules C ⊆ C) (n : Nat) :
    (advance rules)^[n] S ⊆ C := by
  induction n with
  | zero => exact hS
  | succ n ih =>
      rw [Function.iterate_succ_apply']
      exact (advance_mono ih).trans hC

end Operator

namespace KnowledgeBase

/-- The ordinary and the timed facts together. -/
def factSet (kb : KnowledgeBase Time) : Set Predicate := {p | p ∈ kb.known}

variable {kb : KnowledgeBase Time} {r : Rule} {p q : Predicate}

section Pass

open Substitution

/-- Matching with a ground fact finds the one match there is. -/
theorem matches_resolve {fact : Predicate} {s : Substitution} (hfact : fact.isGround = true)
    (h : unifyPredicates r.premise fact ∅ = some s) :
    r.Matches (s.resolve s.size) ∧ r.premise.subst (s.resolve s.size) = fact := by
  obtain ⟨hs, -, hresp⟩ := acyclic_empty.unifyPredicates_some h
  -- Unification binds no variable that it is not given.
  have hwithin : s.Within fun t => ∀ v ∈ t.vars, v ∈ r.premise.vars := by
    refine acyclic_empty.unifyPredicates_within ?_ nofun ?_ ?_ h
    · exact fun _ _ ht a ha v hv => ht v (Term.mem_vars_app.mpr ⟨a, ha, hv⟩)
    · exact fun a ha v hv => Predicate.mem_vars_of_mem_args ha hv
    · intro a ha v hv
      exact absurd (Predicate.mem_vars_of_mem_args ha hv) (Predicate.isGround_iff.mp hfact v)
  constructor
  · intro v hv
    refine resolve_of_unbound ?_ _
    cases hbound : s.get? v with
    | none => rfl
    | some t => exact absurd ((hwithin v t hbound).1 v (Term.mem_vars_var.mpr rfl)) hv
  · rw [((hresp _).mp hs.respects_resolve).2, Predicate.subst_of_isGround hfact]

theorem conclude?_eq_some_iff {fact : Predicate} (hfact : fact.isGround = true) :
    conclude? r fact = some p ↔
      ∃ σ, r.Matches σ ∧ r.premise.subst σ = fact ∧ r.conclusion.subst σ = p := by
  rw [conclude?]
  cases h : unifyPredicates r.premise fact ∅ with
  | none =>
      refine iff_of_false nofun ?_
      rintro ⟨σ, -, hpremise, -⟩
      refine acyclic_empty.unifyPredicates_none h (respects_empty σ) ?_
      rw [hpremise, Predicate.subst_of_isGround hfact]
  | some s =>
      obtain ⟨hmatches, hpremise⟩ := matches_resolve hfact h
      rw [Option.map_some, Option.some_inj, apply_eq_subst]
      constructor
      · exact fun hp => ⟨_, hmatches, hpremise, hp⟩
      · rintro ⟨σ, hσ, hσpremise, rfl⟩
        rw [hσ.unique hmatches (hσpremise.trans hpremise.symm)]

theorem Placed.valid_of_mem (h : kb.Placed) (hp : p ∈ kb.factSet) : validateFact p = .ok () := by
  obtain hp | hp := List.mem_append.mp hp
  · exact (h.facts p hp).1
  · exact (h.timed p hp).1

theorem Placed.containsFact_iff (h : kb.Placed) : kb.containsFact p = true ↔ p ∈ kb.factSet := by
  have hfacts : kb.facts.contains p = true ↔ p ∈ kb.facts.keys := by
    rw [OrderedMap.contains, OrderedMap.mem_keys_iff, Option.isSome_iff_exists]
  change _ ↔ p ∈ kb.facts.keys ++ kb.timed
  rw [containsFact, List.mem_append, ← hfacts]
  split
  next htimed =>
    rw [List.contains_iff_mem, hfacts, iff_comm, or_iff_right]
    exact fun hp => Bool.false_ne_true ((h.facts p hp).2.symm.trans htimed)
  next htimed =>
    rw [iff_comm, or_iff_left]
    exact fun hp => htimed (h.timed p hp).2

theorem Placed.mem_consequences (h : kb.Placed) :
    p ∈ kb.consequences.toList ↔
      p ∉ kb.factSet ∧ ∃ r ∈ kb.rules, ∃ σ, r.Matches σ ∧ r.Yields σ kb.factSet p := by
  have hconclude : ∀ {fact : Predicate} {rule : Rule}, fact ∈ kb.known →
      (conclude? rule fact = some p ↔
        ∃ σ, rule.Matches σ ∧ rule.premise.subst σ = fact ∧ rule.conclusion.subst σ = p) :=
    fun hfact => conclude?_eq_some_iff (isGround_of_validateFact (h.valid_of_mem hfact))
  rw [consequences, OrderedSet.mem_toList_ofList, List.mem_filter, List.mem_flatMap,
    Bool.and_eq_true, Bool.not_eq_true', ← Bool.not_eq_true, h.containsFact_iff,
    toBool_validateFact]
  constructor
  · rintro ⟨⟨r, hr, hmem⟩, hnew, hvalid⟩
    obtain ⟨fact, hfact, hsome⟩ := List.mem_filterMap.mp hmem
    obtain ⟨σ, hσ, rfl, hconclusion⟩ := (hconclude hfact).mp hsome
    exact ⟨hnew, r, hr, σ, hσ, hfact, hconclusion, hvalid⟩
  · rintro ⟨hnew, r, hr, σ, hσ, hfact, hconclusion, hvalid⟩
    refine ⟨⟨r, hr, List.mem_filterMap.mpr ⟨_, hfact, ?_⟩⟩, hnew, hvalid⟩
    exact (hconclude hfact).mpr ⟨σ, hσ, rfl, hconclusion⟩

theorem mem_factSet_insertDerived : q ∈ (kb.insertDerived p).factSet ↔ q = p ∨ q ∈ kb.factSet := by
  change q ∈ (kb.insertFact p none).2.facts.keys ++ (kb.insertFact p none).2.timed ↔
    _ ∨ q ∈ kb.facts.keys ++ kb.timed
  rw [insertFact]
  split
  · split
    next hold =>
      refine ⟨.inr, ?_⟩
      rintro (rfl | hq)
      · exact List.mem_append_right _ (List.contains_iff_mem.mp hold)
      · exact hq
    · simp only [List.mem_append, List.mem_singleton]
      grind
  · split <;> simp only [List.mem_append, OrderedMap.mem_keys_insert, or_assoc]

theorem rules_insertDerived (kb : KnowledgeBase Time) (p : Predicate) :
    (kb.insertDerived p).rules = kb.rules := by
  rw [insertDerived, insertFact]
  split <;> split <;> rfl

theorem foldl_insertDerived (kb : KnowledgeBase Time) (ps : List Predicate) :
    (ps.foldl insertDerived kb).rules = kb.rules ∧
      ∀ q, q ∈ (ps.foldl insertDerived kb).factSet ↔ q ∈ ps ∨ q ∈ kb.factSet := by
  induction ps generalizing kb with
  | nil => simp
  | cons p ps ih =>
      obtain ⟨hrules, hmem⟩ := ih (kb.insertDerived p)
      refine ⟨hrules.trans (rules_insertDerived kb p), fun q => ?_⟩
      rw [List.foldl_cons, hmem, mem_factSet_insertDerived, List.mem_cons, or_assoc, or_left_comm]

/-- The facts after a pass are one application of the operator. -/
theorem Placed.factSet_pass (h : kb.Placed) :
    (kb.consequences.toList.foldl KnowledgeBase.insertDerived kb).factSet =
      advance kb.rules kb.factSet := by
  ext p
  rw [(KnowledgeBase.foldl_insertDerived kb _).2, h.mem_consequences]
  change _ ↔ p ∈ kb.factSet ∨ _
  by_cases hp : p ∈ kb.factSet
  · exact iff_of_true (.inr hp) (.inl hp)
  · rw [or_iff_left hp, or_iff_right hp, and_iff_right hp]

end Pass

section Run

variable {soFar saturation : Saturation} {limit : Nat} {after : KnowledgeBase Time}

/-- What at most the given number of further passes come to. -/
structure Saturates (kb : KnowledgeBase Time) (soFar : Saturation) (limit : Nat)
    (saturation : Saturation) (after : KnowledgeBase Time) : Prop where
  passes : ∃ n, saturation.passes = soFar.passes + n ∧
    after.factSet = (advance kb.rules)^[n] kb.factSet ∧
    (saturation.reachedFixpoint = true ∨ n = limit)
  rules : after.rules = kb.rules
  derived : ∀ p, p ∈ saturation.derived.toList ↔
    p ∈ soFar.derived.toList ∨ p ∈ after.factSet ∧ p ∉ kb.factSet
  closed : saturation.reachedFixpoint = true → after.consequences.toList = []

theorem Saturates.subset (h : kb.Saturates soFar limit saturation after) :
    kb.factSet ⊆ after.factSet := by
  obtain ⟨n, -, hfacts, -⟩ := h.passes
  rw [hfacts]
  exact subset_iterate_advance n

theorem Placed.saturates_pass (h : kb.Placed)
    (hrest : (kb.consequences.toList.foldl KnowledgeBase.insertDerived kb).Saturates
      { soFar with
        passes := soFar.passes + 1
        derived := kb.consequences.toList.foldl (fun set p => set.insert p ()) soFar.derived }
      limit saturation after) :
    kb.Saturates soFar (limit + 1) saturation after := by
  obtain ⟨hrules, hmem⟩ := KnowledgeBase.foldl_insertDerived kb kb.consequences.toList
  obtain ⟨n, hpasses, hfacts, hlimit⟩ := hrest.passes
  refine ⟨⟨n + 1, ?_, ?_, ?_⟩, hrest.rules.trans hrules, fun p => ?_, hrest.closed⟩
  · exact hpasses.trans (Nat.add_right_comm _ _ _)
  · rw [hfacts, hrules, h.factSet_pass, Function.iterate_succ_apply]
  · exact hlimit.imp_right (congrArg (· + 1))
  · -- What is new over the whole run is new in this pass or in a later one.
    have hnew : p ∈ kb.consequences.toList → p ∉ kb.factSet :=
      fun hp => (h.mem_consequences.mp hp).1
    have hkept := fun hp => hrest.subset ((hmem p).mpr hp)
    rw [hrest.derived, OrderedSet.mem_toList_foldl_insert, hmem]
    grind

theorem Placed.saturates (h : kb.Placed) (soFar : Saturation)
    (hsoFar : soFar.reachedFixpoint = false) (limit : Nat) :
    kb.Saturates soFar limit (kb.saturateFrom soFar limit).1 (kb.saturateFrom soFar limit).2 := by
  induction limit generalizing kb soFar with
  | zero =>
      refine ⟨⟨0, rfl, rfl, .inr rfl⟩, rfl, fun p => ?_, ?_⟩
      · exact (or_iff_left fun hp => hp.2 hp.1).symm
      · exact fun hreached => Bool.noConfusion (hsoFar.symm.trans hreached)
  | succ limit ih =>
      rw [KnowledgeBase.saturateFrom]
      split
      next hempty =>
        have hnone := List.isEmpty_iff.mp hempty
        have hpass := h.factSet_pass
        rw [hnone] at hpass
        refine ⟨⟨1, rfl, hpass, .inl rfl⟩, rfl, fun p => ?_, fun _ => hnone⟩
        exact (or_iff_left fun hp => hp.2 hp.1).symm
      next =>
        have hplaced : (kb.consequences.toList.foldl KnowledgeBase.insertDerived kb).Placed :=
          h.foldl_insertDerived fun p => validateFact_of_mem_consequences
        exact h.saturates_pass (ih hplaced _ hsoFar)

theorem Saturates.isLeast (h : kb.Saturates soFar limit saturation after)
    (hafter : after.Placed) (hreached : saturation.reachedFixpoint = true) :
    IsLeast {S | kb.factSet ⊆ S ∧ advance kb.rules S ⊆ S} after.factSet := by
  obtain ⟨n, -, hfacts, -⟩ := h.passes
  refine ⟨⟨h.subset, ?_⟩, ?_⟩
  · rw [← h.rules, ← hafter.factSet_pass, h.closed hreached]
    exact fun _ hp => hp
  · rintro S ⟨hS, hclosed⟩
    rw [hfacts]
    exact iterate_advance_subset hS hclosed n

theorem saturate_of_closed (h : kb.consequences.toList = []) (hlimit : 0 < limit) :
    kb.saturate limit = ({ passes := 1, reachedFixpoint := true }, kb) := by
  obtain ⟨n, rfl⟩ := Nat.exists_eq_succ_of_ne_zero (Nat.ne_of_gt hlimit)
  rw [saturate, saturateFrom, h]
  rfl

end Run

/-- The facts after saturation are those before it with the operator applied once for
each pass, and the new ones among them are reported. Unless the passes were too few, the
facts are the least closed set, and saturating again at once changes nothing. -/
theorem saturate_isLeast (kb : KnowledgeBase Time) (hkb : kb.Reachable) (limit : Nat) :
    let saturation := (kb.saturate limit).1
    let after := (kb.saturate limit).2
    after.factSet = (advance kb.rules)^[saturation.passes] kb.factSet ∧
      (∀ p, p ∈ saturation.derived.toList ↔ p ∈ after.factSet ∧ p ∉ kb.factSet) ∧
      (saturation.reachedFixpoint = false → saturation.passes = limit) ∧
      (saturation.reachedFixpoint = true →
        IsLeast {S | kb.factSet ⊆ S ∧ advance kb.rules S ⊆ S} after.factSet ∧
          ∀ limit', 0 < limit' →
            after.saturate limit' = ({ passes := 1, reachedFixpoint := true }, after)) := by
  intro saturation after
  have hrun : kb.Saturates {} limit saturation after := hkb.placed.saturates {} rfl limit
  have hafter : after.Placed := hkb.placed.saturateFrom {} limit
  obtain ⟨n, hpasses, hfacts, hlimit⟩ := hrun.passes
  obtain rfl : saturation.passes = n := hpasses.trans (Nat.zero_add n)
  refine ⟨hfacts, fun p => (hrun.derived p).trans (or_iff_right nofun), fun hreached => ?_, ?_⟩
  · exact hlimit.resolve_left fun h => Bool.noConfusion (hreached.symm.trans h)
  · intro hreached
    exact ⟨hrun.isLeast hafter hreached, fun _ => saturate_of_closed (hrun.closed hreached)⟩

/-- A timed fact is used in the first pass, what it gives in the second, and the third
finds nothing. -/
theorem saturate_isLeast_three_passes :
    let kb : KnowledgeBase Nat := (List.foldl Reasoner.serve {}
      [.addFact ⟨"HappensAt", [.app "Login" [.const "UserA"], .const "100"]⟩,
        .addFact ⟨"Edge", [.const "A", .const "B"]⟩,
        .addRule ⟨⟨"HappensAt", [.app "Login" [.var "u"], .var "t"]⟩, ⟨"Active", [.var "u"]⟩⟩,
        .addRule ⟨⟨"Active", [.var "u"]⟩, ⟨"Edge", [.var "u", .const "A"]⟩⟩]).kb
    let after := (kb.saturate 16).2
    after.factSet = (advance kb.rules)^[3] kb.factSet ∧
      IsLeast {S | kb.factSet ⊆ S ∧ advance kb.rules S ⊆ S} after.factSet ∧
      after.saturate 1 = ({ passes := 1, reachedFixpoint := true }, after) := by
  intro kb after
  have hkb : kb.Reachable := Reachable.empty.foldl_serve (r := {}) _
  have hpasses : (kb.saturate 16).1.passes = 3 := by decide +kernel
  have hreached : (kb.saturate 16).1.reachedFixpoint = true := by decide +kernel
  obtain ⟨hfacts, -, -, hfixpoint⟩ := kb.saturate_isLeast hkb 16
  obtain ⟨hleast, hagain⟩ := hfixpoint hreached
  rw [hpasses] at hfacts
  exact ⟨hfacts, hleast, hagain 1 Nat.one_pos⟩

/-- A variable that only the conclusion has is not given values, although each would
give a valid fact. -/
theorem saturate_leaves_conclusion_open :
    let kb : KnowledgeBase Nat := (List.foldl Reasoner.serve {}
      [.addRule ⟨⟨"Human", [.var "x"]⟩, ⟨"Knows", [.var "x", .var "y"]⟩⟩,
        .addFact ⟨"Human", [.const "Socrates"]⟩]).kb
    let saturation := (kb.saturate 16).1
    let after := (kb.saturate 16).2
    kb.Reachable ∧ saturation.reachedFixpoint = true ∧
      ⟨"Knows", [.const "Socrates", .const "Socrates"]⟩ ∈ advanceFreely kb.rules kb.factSet ∧
      after.factSet ≠ (advanceFreely kb.rules)^[saturation.passes] kb.factSet := by
  intro kb saturation after
  have hpasses : saturation.passes = 1 := by decide +kernel
  have hnone : ⟨"Knows", [.const "Socrates", .const "Socrates"]⟩ ∉ after.known := by decide +kernel
  have hfree : ⟨"Knows", [.const "Socrates", .const "Socrates"]⟩ ∈
      advanceFreely kb.rules kb.factSet := by
    refine .inr ⟨_, .head _, fun _ => .const "Socrates", ?_, rfl, rfl⟩
    exact List.mem_append_left _ (.head _)
  refine ⟨Reachable.empty.foldl_serve (r := {}) _, by decide +kernel, hfree, fun heq => hnone ?_⟩
  rw [hpasses, Function.iterate_one] at heq
  rw [← heq] at hfree
  exact hfree

end KnowledgeBase

end Defeasible
