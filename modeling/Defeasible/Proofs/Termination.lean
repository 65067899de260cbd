import Defeasible.Proofs.MostGeneral

/-!
Following bindings, replacing variables and checking occurrence without a bound on
their depth, each as a relation between a call and its result. On a substitution
that unification has built, each of these calls ends, and so does unification.
-/

namespace Defeasible
namespace Substitution

/-- Following bindings from a term ends at the second term. -/
inductive Walks (s : Substitution) : Term → Term → Prop where
  | constant (c : String) : Walks s (.const c) (.const c)
  | compound (f : String) (args : List Term) : Walks s (.app f args) (.app f args)
  | unbound {v : String} : s.get? v = none → Walks s (.var v) (.var v)
  | bound {v : String} {t u : Term} : s.get? v = some t → Walks s t u → Walks s (.var v) u

/-- Replacing the bound variables of a term ends with the second term. -/
inductive Applies (s : Substitution) : Term → Term → Prop where
  | constant {t : Term} {c : String} : Walks s t (.const c) → Applies s t (.const c)
  | unbound {t : Term} {v : String} : Walks s t (.var v) → Applies s t (.var v)
  | compound {t : Term} {f : String} {args : List Term} (result : Term → Term) :
      Walks s t (.app f args) → (∀ a ∈ args, Applies s a (result a)) →
        Applies s t (.app f (args.map result))

/-- Looking for the variable in a term ends with the answer. -/
inductive OccursIn (s : Substitution) (v : String) : Term → Bool → Prop where
  | constant {t : Term} {c : String} : Walks s t (.const c) → OccursIn s v t false
  | unbound {t : Term} {w : String} : Walks s t (.var w) → OccursIn s v t (w == v)
  | compound {t : Term} {f : String} {args : List Term} (result : Term → Bool) :
      Walks s t (.app f args) → (∀ a ∈ args, OccursIn s v a (result a)) →
        OccursIn s v t (args.any result)

/-- Built from the empty substitution by successful unifications. -/
inductive Reached : Substitution → Prop where
  | empty : Reached ∅
  | unify {s s' : Substitution} {x y : Term} :
      Reached s → unify x y s = some s' → Reached s'
  | unifyPredicates {s s' : Substitution} {p q : Predicate} :
      Reached s → unifyPredicates p q s = some s' → Reached s'
  | unifyVariable {s s' : Substitution} {v : String} {t : Term} :
      Reached s → unifyVariable v t s = some s' → Reached s'

variable {s : Substitution} {v : String} {t : Term}

theorem Walks.unique {u u' : Term} (h : Walks s t u) (h' : Walks s t u') : u = u' := by
  induction h with
  | constant | compound =>
      cases h'
      rfl
  | unbound hv =>
      cases h' with
      | unbound => rfl
      | bound hv' => cases hv.symm.trans hv'
  | bound hv _ ih =>
      cases h' with
      | unbound hv' => cases hv.symm.trans hv'
      | bound hv' h' =>
          cases hv.symm.trans hv'
          exact ih h'

theorem Applies.unique {u u' : Term} (h : Applies s t u) (h' : Applies s t u') : u = u' := by
  induction h generalizing u' with
  | constant h =>
      cases h' with
      | constant h' =>
          cases h.unique h'
          rfl
      | unbound h' | compound _ h' => cases h.unique h'
  | unbound h =>
      cases h' with
      | unbound h' =>
          cases h.unique h'
          rfl
      | constant h' | compound _ h' => cases h.unique h'
  | compound result h _ ih =>
      cases h' with
      | constant h' | unbound h' => cases h.unique h'
      | compound result' h' hargs' =>
          cases h.unique h'
          exact congrArg _ (List.map_congr_left fun a ha => ih a ha (hargs' a ha))

theorem OccursIn.unique {b b' : Bool} (h : OccursIn s v t b) (h' : OccursIn s v t b') :
    b = b' := by
  induction h generalizing b' with
  | constant h =>
      cases h' with
      | constant h' =>
          cases h.unique h'
          rfl
      | unbound h' | compound _ h' => cases h.unique h'
  | unbound h =>
      cases h' with
      | unbound h' =>
          cases h.unique h'
          rfl
      | constant h' | compound _ h' => cases h.unique h'
  | compound result h _ ih =>
      cases h' with
      | constant h' | unbound h' => cases h.unique h'
      | compound result' h' hargs' =>
          cases h.unique h'
          rw [Bool.eq_iff_iff, List.any_eq_true, List.any_eq_true]
          refine exists_congr fun a => and_congr_right fun ha => ?_
          rw [ih a ha (hargs' a ha)]

theorem Applies.of_bound {u : Term} (hv : s.get? v = some t) (h : Applies s t u) :
    Applies s (.var v) u := by
  cases h with
  | constant h => exact .constant (.bound hv h)
  | unbound h => exact .unbound (.bound hv h)
  | compound result h hargs => exact .compound result (.bound hv h) hargs

theorem OccursIn.of_bound {w : String} {b : Bool} (hv : s.get? v = some t)
    (h : OccursIn s w t b) : OccursIn s w (.var v) b := by
  cases h with
  | constant h => exact .constant (.bound hv h)
  | unbound h => exact .unbound (.bound hv h)
  | compound result h hargs => exact .compound result (.bound hv h) hargs

theorem applies_of_vars (h : ∀ v ∈ t.vars, Applies s (.var v) (s.applyTerm (.var v))) :
    Applies s t (s.applyTerm t) := by
  induction t with
  | var v => exact h v (Term.mem_vars_var.mpr rfl)
  | const c => exact .constant (.constant c)
  | app f args ih =>
      rw [applyTerm_app]
      refine .compound _ (.compound f args) fun a ha => ih a ha fun v hv => ?_
      exact h v (Term.mem_vars_app.mpr ⟨a, ha, hv⟩)

theorem occurs_app (v f : String) (args : List Term) :
    s.occurs v (.app f args) = args.any (s.occurs v) := by
  rw [occurs, Term.anyVariable, Term.anyVariableList_eq_any]
  rfl

theorem occursIn_of_vars {w : String}
    (h : ∀ v ∈ t.vars, OccursIn s w (.var v) (s.occurs w (.var v))) :
    OccursIn s w t (s.occurs w t) := by
  induction t with
  | var v => exact h v (Term.mem_vars_var.mpr rfl)
  | const c => exact .constant (.constant c)
  | app f args ih =>
      rw [occurs_app]
      refine .compound _ (.compound f args) fun a ha => ih a ha fun v hv => ?_
      exact h v (Term.mem_vars_app.mpr ⟨a, ha, hv⟩)

namespace Acyclic

theorem walks (hs : s.Acyclic) (t : Term) : Walks s t (s.walk t) := by
  cases t with
  | const c => simpa using .constant c
  | app f args => simpa using .compound f args
  | var v =>
      induction v using hs.induction with
      | step v ih =>
          cases hv : s.get? v with
          | none =>
              rw [walk_of_unbound hv]
              exact .unbound hv
          | some t =>
              rw [hs.walk_of_bound hv]
              refine .bound hv ?_
              cases t with
              | const c => simpa using .constant c
              | app f args => simpa using .compound f args
              | var w => exact ih w ⟨.var w, hv, Term.mem_vars_var.mpr rfl⟩

theorem applies (hs : s.Acyclic) (t : Term) : Applies s t (s.applyTerm t) := by
  refine applies_of_vars fun v hmem => ?_
  clear hmem
  induction v using hs.induction with
  | step v ih =>
      cases hv : s.get? v with
      | none =>
          rw [applyTerm_of_unbound hv]
          exact .unbound (.unbound hv)
      | some t =>
          rw [hs.applyTerm_of_bound hv]
          exact .of_bound hv (applies_of_vars fun w hw => ih w ⟨t, hv, hw⟩)

theorem occurs_of_bound (hs : s.Acyclic) (hv : s.get? v = some t) (w : String) :
    s.occurs w (.var v) = s.occurs w t := by
  rw [Bool.eq_iff_iff, occurs_iff, occurs_iff, hs.applyTerm_of_bound hv]

theorem occursIn (hs : s.Acyclic) (w : String) (t : Term) : OccursIn s w t (s.occurs w t) := by
  refine occursIn_of_vars fun v hmem => ?_
  clear hmem
  induction v using hs.induction with
  | step v ih =>
      cases hv : s.get? v with
      | none =>
          have hoccurs : s.occurs w (.var v) = (v == w) := by
            rw [Bool.eq_iff_iff, occurs_iff, applyTerm_of_unbound hv, Term.mem_vars_var,
              beq_iff_eq]
            exact eq_comm
          rw [hoccurs]
          exact .unbound (.unbound hv)
      | some t =>
          rw [hs.occurs_of_bound hv]
          exact .of_bound hv (occursIn_of_vars fun u hu => ih u ⟨t, hv, hu⟩)

end Acyclic

theorem acyclic_of_solved {P : Problem} {s' : Substitution} {r : Option Substitution}
    (h : P.Solved s r) (hr : r = some s') : s'.Acyclic := by
  subst hr
  exact h.1

theorem Reached.acyclic (h : Reached s) : s.Acyclic := by
  induction h with
  | empty => exact acyclic_empty
  | unify _ hr hs => exact acyclic_of_solved (hs.unify_solved _ _) hr
  | unifyPredicates _ hr hs => exact acyclic_of_solved (hs.unifyPredicates_solved _ _) hr
  | unifyVariable _ hr hs => exact acyclic_of_solved (hs.unifyVariable_solved _ _) hr

/-- No variable of a substitution built by unification reaches itself, and on it
all four recursions end, whatever they are called on. -/
theorem reached_terminating (h : Reached s) :
    s.Acyclic ∧
    (∀ t u, Walks s t u ↔ s.walk t = u) ∧
    (∀ v t b, OccursIn s v t b ↔ s.occurs v t = b) ∧
    (∀ t u, Applies s t u ↔ s.applyTerm t = u) ∧
    (∀ x y r, Unifies (.equate x y) s r ↔ unify x y s = r) ∧
    (∀ t, ∀ v ∈ (s.applyTerm t).vars, s.get? v = none) ∧
    ∀ t, s.applyTerm (s.applyTerm t) = s.applyTerm t := by
  have hs := h.acyclic
  refine ⟨hs, fun t u => ⟨(hs.walks t).unique, ?_⟩, fun v t b => ⟨(hs.occursIn v t).unique, ?_⟩,
    fun t u => ⟨(hs.applies t).unique, ?_⟩, fun x y r => ⟨(hs.unifies_unify x y).unique, ?_⟩,
    fun t v hv => hs.unbound_of_mem_vars hv, hs.applyTerm_idem⟩
  · exact fun hu => hu ▸ hs.walks t
  · exact fun hb => hb ▸ hs.occursIn v t
  · exact fun hu => hu ▸ hs.applies t
  · exact fun hr => hr ▸ hs.unifies_unify x y

/-- A chain of bindings made by all three kinds of unification, its last link an
unresolved variable. -/
theorem reached_terminating_on_chain :
    let s₁ : Substitution := OrderedMap.insert ∅ "x" (.var "y")
    let s₂ : Substitution := OrderedMap.insert s₁ "y" (.app "f" [.var "z"])
    let s₃ : Substitution := OrderedMap.insert s₂ "w" (.var "x")
    Reached s₃ ∧ s₃.Acyclic ∧ Walks s₃ (.var "w") (.app "f" [.var "z"]) ∧
      OccursIn s₃ "z" (.var "w") true ∧
      Applies s₃ (.app "P" [.var "w"]) (.app "P" [.app "f" [.var "z"]]) ∧
      Unifies (.equate (.var "z") (.var "w")) s₃ none := by
  intro s₁ s₂ s₃
  have h₁ : Reached s₁ := Reached.empty.unify (x := .var "x") (y := .var "y") rfl
  have h₂ : Reached s₂ :=
    h₁.unifyPredicates (p := ⟨"P", [.var "x"]⟩) (q := ⟨"P", [.app "f" [.var "z"]]⟩) rfl
  have h₃ : Reached s₃ := h₂.unifyVariable (v := "w") (t := .var "x") rfl
  obtain ⟨hs, hwalk, hoccurs, happly, hunify, -, -⟩ := reached_terminating h₃
  exact ⟨h₃, hs, (hwalk _ _).mpr rfl, (hoccurs _ _ _).mpr rfl, (happly _ _).mpr rfl,
    (hunify _ _ _).mpr rfl⟩

end Substitution
end Defeasible
