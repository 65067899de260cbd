import Defeasible.Proofs.UnificationBound

/-!
What unification computes. On an acyclic substitution it finds the most general
extension that makes two terms equal, or there is no assignment that does, and the
result is acyclic again.
-/

namespace Defeasible

namespace Substitution

variable {s s' : Substitution} {p q : Predicate}

theorem Acyclic.unify_solved (hs : s.Acyclic) (x y : Term) :
    (Problem.equate x y).Solved s (unify x y s) :=
  (hs.unifies_unify x y).solved hs

theorem Acyclic.unifyVariable_solved (hs : s.Acyclic) (v : String) (t : Term) :
    (Problem.assign v t).Solved s (unifyVariable v t s) :=
  (hs.unifies_unifyVariable v t).solved hs

theorem equate_toTerm_holds {θ : String → Term} :
    (Problem.equate p.toTerm q.toTerm).Holds θ ↔ p.subst θ = q.subst θ := by
  rw [Problem.Holds, ← Predicate.toTerm_subst, ← Predicate.toTerm_subst, Predicate.toTerm_inj]

theorem Acyclic.unifyPredicates_solved (hs : s.Acyclic) (p q : Predicate) :
    (Problem.equate p.toTerm q.toTerm).Solved s (unifyPredicates p q s) := by
  rw [unifyPredicates]
  split
  next h =>
    refine ((hs.unifies_unifyLists p.args q.args h.2).solved hs).congr fun θ _ => ?_
    simp [Problem.Holds, Predicate.toTerm, h.1]
  next h =>
    intro θ _ hholds
    have heq := equate_toTerm_holds.mp hholds
    have hname : (p.subst θ).name = (q.subst θ).name := congrArg Predicate.name heq
    have harity := congrArg (fun r => r.args.length) heq
    simp only [Predicate.subst, Term.substList_eq_map, List.length_map] at harity
    exact h ⟨hname, harity⟩

theorem Acyclic.unifyPredicates_some (hs : s.Acyclic) (h : unifyPredicates p q s = some s') :
    s'.Acyclic ∧ s'.Extends s ∧
      ∀ θ, s'.Respects θ ↔ s.Respects θ ∧ p.subst θ = q.subst θ := by
  have hsolved := hs.unifyPredicates_solved p q
  rw [h] at hsolved
  obtain ⟨hs', hext, hresp⟩ := hsolved
  exact ⟨hs', hext, fun θ => (hresp θ).trans (and_congr_right fun _ => equate_toTerm_holds)⟩

theorem Acyclic.unifyPredicates_none (hs : s.Acyclic) (h : unifyPredicates p q s = none)
    {θ : String → Term} (hθ : s.Respects θ) : p.subst θ ≠ q.subst θ := by
  have hsolved := hs.unifyPredicates_solved p q
  rw [h] at hsolved
  exact fun heq => hsolved θ hθ (equate_toTerm_holds.mpr heq)

theorem Acyclic.unifyPredicates_within {A : Term → Prop} (hA : ArgumentClosed A) (hs : s.Acyclic)
    (hsA : s.Within A) (hp : ∀ a ∈ p.args, A a) (hq : ∀ a ∈ q.args, A a)
    (h : unifyPredicates p q s = some s') : s'.Within A := by
  rw [unifyPredicates] at h
  split at h
  next hshape =>
    exact (hs.unifies_unifyLists p.args q.args hshape.2).within hA ⟨hp, hq⟩ hsA h
  next => cases h

/-- A solution exists, for instance by applying the result itself. -/
theorem solvable_of_unify_some (hs : s.Acyclic) {x y : Term} (h : unify x y s = some s') :
    s.Respects (s'.resolve s'.size) ∧ s'.applyTerm x = s'.applyTerm y := by
  have hsolved := hs.unify_solved x y
  rw [h] at hsolved
  exact (hsolved.2.2 _).mp hsolved.1.respects_resolve

theorem isSome_unify_of_swapped (hs : s.Acyclic) {x y : Term}
    (h : (unify x y s).isSome = true) : (unify y x s).isSome = true := by
  obtain ⟨s', hs'⟩ := Option.isSome_iff_exists.mp h
  obtain ⟨hresp, heq⟩ := solvable_of_unify_some hs hs'
  have hsolved := hs.unify_solved y x
  cases hyx : unify y x s with
  | some s'' => rfl
  | none =>
      rw [hyx] at hsolved
      exact absurd heq.symm (hsolved _ hresp)

end Substitution

/-- Success gives the most general extension that makes the terms equal, failure
means that no assignment does, and the order of the terms does not matter. -/
theorem unify_mostGeneral {s : Substitution} (hs : s.Acyclic) (x y : Term) :
    (∀ s', unify x y s = some s' →
      s'.Extends s ∧ s'.applyTerm x = s'.applyTerm y ∧
        ∀ θ, s.Respects θ → x.subst θ = y.subst θ → s'.Respects θ) ∧
    (unify x y s = none → ∀ θ, s.Respects θ → x.subst θ ≠ y.subst θ) ∧
    (unify x y s).isSome = (unify y x s).isSome := by
  have hsolved := hs.unify_solved x y
  refine ⟨fun s' h => ?_, fun h => ?_, ?_⟩
  · rw [h] at hsolved
    refine ⟨hsolved.2.1, (Substitution.solvable_of_unify_some hs h).2, ?_⟩
    exact fun θ hθ heq => (hsolved.2.2 θ).mpr ⟨hθ, heq⟩
  · rw [h] at hsolved
    exact hsolved
  · exact Bool.eq_iff_iff.mpr
      ⟨Substitution.isSome_unify_of_swapped hs, Substitution.isSome_unify_of_swapped hs⟩

/-- The variable `y` stands for a term with `x` in it, so that `x` and `y` cannot be
made equal, while `P(y, z)` and `P(f(A), x)` can. -/
theorem unify_mostGeneral_through_binding :
    let s : Substitution := OrderedMap.insert ∅ "y" (.app "f" [.var "x"])
    let s' : Substitution := OrderedMap.insert (s.insert "x" (.const "A")) "z" (.var "x")
    let left : Term := .app "P" [.var "y", .var "z"]
    let right : Term := .app "P" [.app "f" [.const "A"], .var "x"]
    s.Acyclic ∧ (∀ θ, s.Respects θ → (Term.var "x").subst θ ≠ (Term.var "y").subst θ) ∧
      s'.Extends s ∧ s'.applyTerm left = s'.applyTerm right ∧
        ∀ θ, s.Respects θ → left.subst θ = right.subst θ → s'.Respects θ := by
  intro s s' left right
  have hs : s.Acyclic := Substitution.acyclic_empty.insert rfl (by decide)
  exact ⟨hs, (unify_mostGeneral hs (.var "x") (.var "y")).2.1 rfl,
    (unify_mostGeneral hs left right).1 s' rfl⟩

end Defeasible
