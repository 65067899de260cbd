import Defeasible.Unification
import Defeasible.Proofs.Acyclic

/-!
Unification without a bound on its depth, as a relation between a call and its
result. On an acyclic substitution the result of a run is a most general solution,
or there is no solution; and no two runs of a call differ in their result.
-/

namespace Defeasible

/-- What a call of the unifier is to make equal. -/
inductive Problem where
  | equate (x y : Term)
  | assign (v : String) (t : Term)
  | equateAll (xs ys : List Term)

namespace Problem

def Holds (θ : String → Term) : Problem → Prop
  | .equate x y => x.subst θ = y.subst θ
  | .assign v t => θ v = t.subst θ
  | .equateAll xs ys => xs.map (Term.subst θ) = ys.map (Term.subst θ)

/-- Every term of the problem is in the set. -/
def Within (A : Term → Prop) : Problem → Prop
  | .equate x y => A x ∧ A y
  | .assign v t => A (.var v) ∧ A t
  | .equateAll xs ys => (∀ x ∈ xs, A x) ∧ ∀ y ∈ ys, A y

/-- A result is right if it is an acyclic extension that the assignments respect
which respect the given substitution and solve the problem, or if it is a failure
and there are no such assignments. -/
def Solved (P : Problem) (s : Substitution) : Option Substitution → Prop
  | some s' => s'.Acyclic ∧ s'.Extends s ∧ ∀ θ, s'.Respects θ ↔ s.Respects θ ∧ P.Holds θ
  | none => ∀ θ, s.Respects θ → ¬ P.Holds θ

theorem Solved.congr {P Q : Problem} {s : Substitution} {r : Option Substitution}
    (h : ∀ θ, s.Respects θ → (P.Holds θ ↔ Q.Holds θ)) (hP : P.Solved s r) : Q.Solved s r := by
  cases r with
  | none => exact fun θ hθ hQ => hP θ hθ ((h θ hθ).mpr hQ)
  | some s' =>
      refine ⟨hP.1, hP.2.1, fun θ => (hP.2.2 θ).trans ?_⟩
      exact and_congr_right fun hθ => h θ hθ

end Problem

/-- Neither term is a variable and their heads differ. -/
def Term.clash : Term → Term → Bool
  | .const a, .const b => a != b
  | .app f xs, .app g ys => f != g || xs.length != ys.length
  | .const _, .app .. | .app .., .const _ => true
  | .var _, _ | _, .var _ => false

/-- The recursion of the unifier without its bound: the call on the problem under
the substitution ends with the result. -/
inductive Unifies : Problem → Substitution → Option Substitution → Prop where
  | same (x : Term) (s : Substitution) : Unifies (.equate x x) s (some s)
  | left {v : String} {y : Term} {s : Substitution} {r : Option Substitution} :
      .var v ≠ y → Unifies (.assign v y) s r → Unifies (.equate (.var v) y) s r
  | right {v : String} {x : Term} {s : Substitution} {r : Option Substitution} :
      (∀ w, x ≠ .var w) → Unifies (.assign v x) s r → Unifies (.equate x (.var v)) s r
  | arguments {f : String} {xs ys : List Term} {s : Substitution} {r : Option Substitution} :
      xs ≠ ys → xs.length = ys.length → Unifies (.equateAll xs ys) s r →
        Unifies (.equate (.app f xs) (.app f ys)) s r
  | clash {x y : Term} {s : Substitution} : x.clash y → Unifies (.equate x y) s none
  | bound {v : String} {t b : Term} {s : Substitution} {r : Option Substitution} :
      s.get? v = some b → Unifies (.equate b t) s r → Unifies (.assign v t) s r
  | itself {v : String} {t : Term} {s : Substitution} :
      s.get? v = none → s.walk t = .var v → Unifies (.assign v t) s (some s)
  | cycle {v : String} {t : Term} {s : Substitution} :
      s.get? v = none → (s.walk t).isCompound → s.occurs v (s.walk t) →
        Unifies (.assign v t) s none
  | bind {v : String} {t : Term} {s : Substitution} :
      s.get? v = none → s.walk t ≠ .var v →
        ¬ ((s.walk t).isCompound ∧ s.occurs v (s.walk t)) →
          Unifies (.assign v t) s (some (s.insert v t))
  | nil (s : Substitution) : Unifies (.equateAll [] []) s (some s)
  | stop {x y : Term} {xs ys : List Term} {s : Substitution} :
      Unifies (.equate x y) s none → Unifies (.equateAll (x :: xs) (y :: ys)) s none
  | cons {x y : Term} {xs ys : List Term} {s s' : Substitution} {r : Option Substitution} :
      Unifies (.equate x y) s (some s') → Unifies (.equateAll xs ys) s' r →
        Unifies (.equateAll (x :: xs) (y :: ys)) s r

namespace Unifies

open Substitution

variable {s : Substitution} {v : String} {t x y : Term} {θ : String → Term}

theorem subst_ne_of_clash (h : x.clash y) : x.subst θ ≠ y.subst θ := by
  cases x with
  | var v => cases h
  | const a =>
      cases y with
      | var v => cases h
      | const b => simpa [Term.clash] using h
      | app g ys => simp
  | app f xs =>
      cases y with
      | var v => cases h
      | const b => simp
      | app g ys =>
          intro heq
          simp only [Term.subst_app, Term.app.injEq] at heq
          have hlength := congrArg List.length heq.2
          simp only [List.length_map] at hlength
          simp [Term.clash, heq.1, hlength] at h

/-- A variable is no proper part of what it stands for. -/
theorem not_holds_of_occurs (hs : s.Acyclic) (hθ : s.Respects θ)
    (hcompound : (s.walk t).isCompound) (hoccurs : s.occurs v (s.walk t)) :
    θ v ≠ t.subst θ := by
  intro heq
  have happ : (s.applyTerm (s.walk t)).isCompound = true := by
    cases hwalk : s.walk t with
    | app f args => rfl
    | var w | const c => simp [hwalk, Term.isCompound] at hcompound
  have hlt : (θ v).size < ((s.applyTerm (s.walk t)).subst θ).size :=
    Term.size_lt_size_subst happ (occurs_iff.mp hoccurs)
  rw [hs.applyTerm_walk, hθ.subst_applyTerm, ← heq] at hlt
  exact Nat.lt_irrefl _ hlt

theorem not_mem_of_not_occurs (hs : s.Acyclic) (hne : s.walk t ≠ .var v)
    (h : ¬ ((s.walk t).isCompound ∧ s.occurs v (s.walk t))) : v ∉ (s.applyTerm t).vars := by
  rw [← hs.applyTerm_walk]
  intro hmem
  cases hwalk : s.walk t with
  | var w =>
      rw [hwalk, applyTerm_of_unbound (hs.unbound_of_walk hwalk), Term.mem_vars_var] at hmem
      exact hne (hmem ▸ hwalk)
  | const c =>
      rw [hwalk, applyTerm_const] at hmem
      exact Term.not_mem_vars_const hmem
  | app f args => exact h ⟨by rw [hwalk]; rfl, occurs_iff.mpr hmem⟩

/-- Every run from an acyclic substitution ends with the right result. -/
theorem solved {P : Problem} {r : Option Substitution} (h : Unifies P s r) (hs : s.Acyclic) :
    P.Solved s r := by
  induction h with
  | same x s => exact ⟨hs, .refl s, fun θ => by simp [Problem.Holds]⟩
  | left _ _ ih => exact (ih hs).congr fun θ _ => Iff.rfl
  | right _ _ ih =>
      refine (ih hs).congr fun θ _ => ?_
      exact eq_comm
  | arguments _ _ _ ih =>
      exact (ih hs).congr fun θ _ => by simp [Problem.Holds]
  | clash hclash => exact fun θ _ => subst_ne_of_clash hclash
  | bound hv _ ih =>
      refine (ih hs).congr fun θ hθ => ?_
      rw [Problem.Holds, Problem.Holds, hθ _ _ hv]
  | itself hv hwalk =>
      refine ⟨hs, .refl _, fun θ => ⟨fun hθ => ⟨hθ, ?_⟩, And.left⟩⟩
      rw [Problem.Holds, ← hθ.subst_applyTerm, ← hs.applyTerm_walk, hwalk, hθ.subst_applyTerm,
        Term.subst_var]
  | cycle _ hcompound hoccurs =>
      exact fun θ hθ => not_holds_of_occurs hs hθ hcompound hoccurs
  | bind hv hne h =>
      exact ⟨hs.insert hv (not_mem_of_not_occurs hs hne h), extends_insert hv,
        fun θ => respects_insert hv⟩
  | nil s => exact ⟨hs, .refl s, fun θ => by simp [Problem.Holds]⟩
  | stop _ ih =>
      intro θ hθ hall
      simp only [Problem.Holds, List.map_cons, List.cons.injEq] at hall
      exact ih hs θ hθ hall.1
  | @cons x y xs ys s s' r _ _ ihx ihxs =>
      obtain ⟨hs', hext, hresp⟩ := ihx hs
      have hall : ∀ θ, s'.Respects θ ∧ (Problem.equateAll xs ys).Holds θ ↔
          s.Respects θ ∧ (Problem.equateAll (x :: xs) (y :: ys)).Holds θ := by
        intro θ
        simp only [hresp, Problem.Holds, List.map_cons, List.cons.injEq, and_assoc]
      cases r with
      | none =>
          intro θ hθ hP
          obtain ⟨hθ', hP'⟩ := (hall θ).mpr ⟨hθ, hP⟩
          exact ihxs hs' θ hθ' hP'
      | some s'' =>
          obtain ⟨hs'', hext', hresp'⟩ := ihxs hs'
          exact ⟨hs'', hext'.trans hext, fun θ => (hresp' θ).trans (hall θ)⟩

/-- A call has one result only. -/
theorem unique {P : Problem} {r r' : Option Substitution} (h : Unifies P s r)
    (h' : Unifies P s r') : r = r' := by
  induction h generalizing r' with
  | same x s =>
      cases h' with
      | same => rfl
      | left hne | arguments hne => exact absurd rfl hne
      | right hne => exact absurd rfl (hne _)
      | clash hclash => exact absurd rfl (subst_ne_of_clash (θ := .var) hclash)
  | left hne _ ih =>
      cases h' with
      | same => exact absurd rfl hne
      | left _ h' => exact ih h'
      | right hvar => exact absurd rfl (hvar _)
      | clash hclash => cases hclash
  | right hvar _ ih =>
      cases h' with
      | same | left => exact absurd rfl (hvar _)
      | right _ h' => exact ih h'
      | clash hclash => cases ‹Term› <;> cases hclash
  | arguments hne hlen _ ih =>
      cases h' with
      | same => exact absurd rfl hne
      | arguments _ _ h' => exact ih h'
      | clash hclash => simp [Term.clash, hlen] at hclash
  | clash hclash =>
      cases h' with
      | same => exact absurd rfl (subst_ne_of_clash (θ := .var) hclash)
      | left => cases hclash
      | right => cases ‹Term› <;> cases hclash
      | arguments _ hlen => simp [Term.clash, hlen] at hclash
      | clash => rfl
  | bound hv _ ih =>
      cases h' with
      | bound hv' h' =>
          cases hv.symm.trans hv'
          exact ih h'
      | itself hv' | cycle hv' | bind hv' => cases hv.symm.trans hv'
  | itself hv hwalk =>
      cases h' with
      | bound hv' => cases hv.symm.trans hv'
      | itself => rfl
      | cycle _ hcompound => simp [hwalk, Term.isCompound] at hcompound
      | bind _ hne => exact absurd hwalk hne
  | cycle hv hcompound hoccurs =>
      cases h' with
      | bound hv' => cases hv.symm.trans hv'
      | itself _ hwalk => simp [hwalk, Term.isCompound] at hcompound
      | cycle => rfl
      | bind _ _ h => exact absurd ⟨hcompound, hoccurs⟩ h
  | bind hv hne h =>
      cases h' with
      | bound hv' => cases hv.symm.trans hv'
      | itself _ hwalk => exact absurd hwalk hne
      | cycle _ hcompound hoccurs => exact absurd ⟨hcompound, hoccurs⟩ h
      | bind => rfl
  | nil s =>
      cases h'
      rfl
  | stop _ ih =>
      cases h' with
      | stop => rfl
      | cons h' => cases ih h'
  | cons _ _ ihx ihxs =>
      cases h' with
      | stop h' => cases ihx h'
      | cons h' hrest =>
          cases ihx h'
          exact ihxs hrest

end Unifies
end Defeasible
