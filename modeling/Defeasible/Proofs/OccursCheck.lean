import Defeasible.Proofs.Termination

/-!
The occurs check against the terms that applying a substitution builds. The check follows
bindings only as far as it looks, and application rebuilds every argument; a call of each on
the same term takes the same path through the bindings, so the check finds exactly the
variables of the rebuilt term. On predicates, applying an empty substitution leaves out a
recursion that would change nothing.
-/

namespace Defeasible.Substitution

variable {s : Substitution} {v : String} {t u : Term} {b : Bool}

/-- Whatever answer the check ends with, it is what the rebuilt term shows. The two calls
walk to the same term, and below it both go on in the same arguments. -/
theorem OccursIn.eq_true_iff (hb : OccursIn s v t b) (hu : Applies s t u) :
    b = true ↔ v ∈ u.vars := by
  induction hb generalizing u with
  | constant hwalk =>
      cases hu with
      | constant hwalk' =>
          cases hwalk.unique hwalk'
          simp
      | unbound hwalk' | compound _ hwalk' => cases hwalk.unique hwalk'
  | unbound hwalk =>
      cases hu with
      | unbound hwalk' =>
          cases hwalk.unique hwalk'
          rw [beq_iff_eq, Term.mem_vars_var]
          exact eq_comm
      | constant hwalk' | compound _ hwalk' => cases hwalk.unique hwalk'
  | compound result hwalk _ ih =>
      cases hu with
      | constant hwalk' | unbound hwalk' => cases hwalk.unique hwalk'
      | compound result' hwalk' hargs =>
          cases hwalk.unique hwalk'
          rw [List.any_eq_true, Term.mem_vars_app]
          constructor
          · rintro ⟨a, ha, hresult⟩
            exact ⟨_, List.mem_map_of_mem ha, (ih a ha (hargs a ha)).mp hresult⟩
          · rintro ⟨_, hmem, hv⟩
            obtain ⟨a, ha, rfl⟩ := List.mem_map.mp hmem
            exact ⟨a, ha, (ih a ha (hargs a ha)).mpr hv⟩

/-- Applies the substitution to every argument, whether or not it binds anything. -/
def applyArgs (s : Substitution) (p : Predicate) : Predicate := ⟨p.name, p.args.map s.applyTerm⟩

theorem apply_eq_applyArgs (s : Substitution) (p : Predicate) : s.apply p = s.applyArgs p := by
  rw [apply_eq_subst, Predicate.subst, Term.substList_eq_map]
  rfl

theorem toTerm_apply (s : Substitution) (p : Predicate) :
    (s.apply p).toTerm = s.applyTerm p.toTerm := by
  rw [apply_eq_subst]
  rfl

theorem apply_of_isEmpty (h : s.isEmpty = true) (p : Predicate) : s.apply p = p := by
  rw [apply, if_pos h]

/-- On an acyclic substitution the occurs check is true of exactly the variables of the term
that application builds, and so are the unbounded recursions behind both. Application to a
predicate is the unbounded recursion as well, and its shortcut for an empty substitution
gives what replacing in every argument gives. -/
theorem Acyclic.occurs_iff_mem_vars (hs : s.Acyclic) :
    (∀ v t, s.occurs v t = true ↔ v ∈ (s.applyTerm t).vars) ∧
    (∀ v t b u, OccursIn s v t b → Applies s t u → (b = true ↔ v ∈ u.vars)) ∧
    (∀ p u, Applies s p.toTerm u ↔ (s.apply p).toTerm = u) ∧
    ∀ (e : Substitution) (p : Predicate), e.isEmpty = true → e.apply p = p ∧ e.applyArgs p = p := by
  refine ⟨fun v t => (hs.occursIn v t).eq_true_iff (hs.applies t),
    fun v t b u hb hu => hb.eq_true_iff hu, fun p u => ?_, fun e p he => ?_⟩
  · rw [toTerm_apply]
    exact ⟨(hs.applies _).unique, fun h => h ▸ hs.applies _⟩
  · have hshortcut := apply_of_isEmpty he p
    exact ⟨hshortcut, (apply_eq_applyArgs e p).symm.trans hshortcut⟩

/-- A variable two bindings away, the second below a compound term. -/
theorem Acyclic.occurs_iff_mem_vars_behind_chain :
    let s₁ : Substitution := OrderedMap.insert ∅ "y" (.app "f" [.var "z", .const "A"])
    let s₂ : Substitution := OrderedMap.insert s₁ "x" (.var "y")
    s₂.Acyclic ∧ s₂.occurs "z" (.app "P" [.var "x"]) = true ∧
      "z" ∈ (s₂.applyTerm (.app "P" [.var "x"])).vars ∧
      s₂.occurs "y" (.app "P" [.var "x"]) = false ∧
      Applies s₂ (.app "P" [.var "x"]) (.app "P" [.app "f" [.var "z", .const "A"]]) := by
  intro s₁ s₂
  have h₁ : s₁.Acyclic := acyclic_empty.insert rfl (by decide)
  have h₂ : s₂.Acyclic := h₁.insert rfl (by decide)
  obtain ⟨hoccurs, -, happly, -⟩ := h₂.occurs_iff_mem_vars
  have hz : s₂.occurs "z" (.app "P" [.var "x"]) = true := by decide
  exact ⟨h₂, hz, (hoccurs _ _).mp hz, by decide, (happly ⟨"P", [.var "x"]⟩ _).mpr rfl⟩

end Defeasible.Substitution
