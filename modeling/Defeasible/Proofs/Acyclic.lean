import Mathlib.Logic.Relation
import Mathlib.Data.Finset.Card
import Defeasible.Substitution
import Defeasible.Proofs.Instance
import Defeasible.Proofs.Lookup

/-!
Acyclic substitutions: no variable reaches itself by following bindings. A path
of bindings then never returns to a bound variable, so the number of bindings
bounds its length and the bounded walks and replacements satisfy the equations
of the unbounded ones. The assignments that respect a substitution are its
meaning: they do not see whether it has been applied or not.
-/

namespace Defeasible

section Ancestors

variable {α : Type} {R R' : α → α → Prop} {U : Finset α} {a b : α}

open Classical in
/-- The members of a finite set from which the relation leads to `a`. -/
noncomputable def ancestors (R : α → α → Prop) (U : Finset α) (a : α) : Finset α :=
  U.filter fun b => Relation.TransGen R b a

theorem mem_ancestors : b ∈ ancestors R U a ↔ b ∈ U ∧ Relation.TransGen R b a := by
  classical
  exact Finset.mem_filter

theorem ancestors_subset : ancestors R U a ⊆ U := fun _ h => (mem_ancestors.mp h).1

theorem card_ancestors_lt_card (ha : a ∈ U) (h : ¬ Relation.TransGen R a a) :
    (ancestors R U a).card < U.card := by
  refine Finset.card_lt_card ((Finset.ssubset_iff_of_subset ancestors_subset).mpr ⟨a, ha, ?_⟩)
  exact fun hmem => h (mem_ancestors.mp hmem).2

/-- A step along the relation gains at least the ancestor it starts from. -/
theorem card_ancestors_lt (ha : a ∈ U) (hab : R a b) (h : ¬ Relation.TransGen R a a) :
    (ancestors R U a).card < (ancestors R U b).card := by
  refine Finset.card_lt_card ((Finset.ssubset_iff_of_subset fun c hc => ?_).mpr ⟨a, ?_, ?_⟩)
  · obtain ⟨hU, hca⟩ := mem_ancestors.mp hc
    exact mem_ancestors.mpr ⟨hU, hca.tail hab⟩
  · exact mem_ancestors.mpr ⟨ha, .single hab⟩
  · exact fun hc => h (mem_ancestors.mp hc).2

theorem card_ancestors_mono (h : ∀ a b, R a b → R' a b) :
    (ancestors R U a).card ≤ (ancestors R' U a).card := by
  refine Finset.card_le_card fun c hc => ?_
  obtain ⟨hU, hca⟩ := mem_ancestors.mp hc
  exact mem_ancestors.mpr ⟨hU, Relation.TransGen.mono h _ _ hca⟩

end Ancestors

namespace Substitution

/-- The term bound to `v` contains `w`. -/
def Binds (s : Substitution) (v w : String) : Prop := ∃ t, s.get? v = some t ∧ w ∈ t.vars

/-- No variable reaches itself by following bindings, directly or inside
compound terms. -/
def Acyclic (s : Substitution) : Prop := ∀ v, ¬ Relation.TransGen s.Binds v v

/-- The assignment gives every bound variable what it gives the bound term. -/
def Respects (θ : String → Term) (s : Substitution) : Prop :=
  ∀ v t, s.get? v = some t → θ v = t.subst θ

/-- The substitution keeps every binding of `s`. -/
def Extends (s' s : Substitution) : Prop := ∀ v t, s.get? v = some t → s'.get? v = some t

variable {s s' : Substitution} {v w : String} {t : Term} {θ : String → Term}

theorem Extends.refl (s : Substitution) : s.Extends s := fun _ _ h => h

theorem Extends.trans {s'' : Substitution} (h' : s''.Extends s') (h : s'.Extends s) :
    s''.Extends s :=
  fun v t hv => h' v t (h v t hv)

theorem extends_insert (hv : s.get? v = none) : Extends (s.insert v t) s := by
  intro w u hw
  have hne : w ≠ v := by
    rintro rfl
    rw [hv] at hw
    cases hw
  rw [OrderedMap.get?_insert_of_ne _ _ hne, hw]

theorem Respects.of_extends (hθ : Respects θ s') (h : s'.Extends s) : Respects θ s :=
  fun v t hv => hθ v t (h v t hv)

theorem respects_empty (θ : String → Term) : Respects θ ∅ := nofun

theorem respects_insert (hv : s.get? v = none) :
    Respects θ (s.insert v t) ↔ Respects θ s ∧ θ v = t.subst θ := by
  constructor
  · intro h
    exact ⟨h.of_extends (extends_insert hv), h v t (OrderedMap.get?_insert_self _ _ _)⟩
  · rintro ⟨h, ht⟩ w u hw
    by_cases hne : w = v
    · subst hne
      rw [OrderedMap.get?_insert_self] at hw
      cases hw
      exact ht
    · rw [OrderedMap.get?_insert_of_ne _ _ hne] at hw
      exact h w u hw

theorem acyclic_empty : Acyclic ∅ := by
  intro v h
  obtain ⟨w, ⟨t, ht, -⟩, -⟩ := Relation.TransGen.head'_iff.mp h
  cases ht

/-- The number of bound variables on the paths of bindings to `v`. -/
noncomputable def rank (s : Substitution) (v : String) : Nat :=
  (ancestors s.Binds s.keys.toFinset v).card

theorem mem_keys_of_bound (hv : s.get? v = some t) : v ∈ s.keys.toFinset :=
  List.mem_toFinset.mpr (OrderedMap.mem_keys_iff.mpr ⟨t, hv⟩)

theorem Acyclic.rank_lt_size (hs : s.Acyclic) (hv : s.get? v = some t) : s.rank v < s.size := by
  have hlt := card_ancestors_lt_card (mem_keys_of_bound hv) (hs v)
  have hle : s.keys.toFinset.card ≤ s.keys.length := List.toFinset_card_le _
  rw [OrderedMap.length_keys] at hle
  exact Nat.lt_of_lt_of_le hlt hle

theorem Acyclic.rank_lt (hs : s.Acyclic) (h : s.Binds v w) : s.rank v < s.rank w :=
  card_ancestors_lt (mem_keys_of_bound h.choose_spec.1) h (hs v)

/-- Induction along the bindings: a property of a variable may be assumed of
every variable in the term bound to it. -/
@[elab_as_elim]
theorem Acyclic.induction {motive : String → Prop} (hs : s.Acyclic)
    (step : ∀ v, (∀ w, s.Binds v w → motive w) → motive v) (v : String) : motive v := by
  induction hn : s.size - s.rank v using Nat.strong_induction_on generalizing v with
  | _ n ih =>
      refine step v fun w hw => ih (s.size - s.rank w) ?_ w rfl
      have hsize := hs.rank_lt_size hw.choose_spec.1
      have hrank := hs.rank_lt hw
      omega

theorem resolve_of_unbound (hv : s.get? v = none) (d : Nat) : s.resolve d v = .var v := by
  cases d with
  | zero => rfl
  | succ d => rw [resolve, hv]

theorem resolve_succ_of_bound (hv : s.get? v = some t) (d : Nat) :
    s.resolve (d + 1) v = t.subst (s.resolve d) := by
  rw [resolve, hv]

/-- Beyond the number of bindings that are left below a variable, a greater
depth resolves it no further. -/
theorem Acyclic.resolve_succ (hs : s.Acyclic) (d : Nat) (v : String)
    (hd : s.size ≤ d + s.rank v) : s.resolve (d + 1) v = s.resolve d v := by
  induction d generalizing v with
  | zero =>
      cases hv : s.get? v with
      | none => rw [resolve_of_unbound hv, resolve_of_unbound hv]
      | some t =>
          have := hs.rank_lt_size hv
          omega
  | succ d ih =>
      cases hv : s.get? v with
      | none => rw [resolve_of_unbound hv, resolve_of_unbound hv]
      | some t =>
          rw [resolve_succ_of_bound hv, resolve_succ_of_bound hv]
          refine Term.subst_congr fun w hw => ih w ?_
          have := hs.rank_lt ⟨t, hv, hw⟩
          omega

theorem applyTerm_var (s : Substitution) (v : String) :
    s.applyTerm (.var v) = s.resolve s.size v := rfl

theorem applyTerm_const (s : Substitution) (c : String) : s.applyTerm (.const c) = .const c := rfl

theorem applyTerm_app (s : Substitution) (f : String) (args : List Term) :
    s.applyTerm (.app f args) = .app f (args.map s.applyTerm) := Term.subst_app _ _ _

theorem applyTerm_of_unbound (hv : s.get? v = none) : s.applyTerm (.var v) = .var v :=
  resolve_of_unbound hv _

theorem Acyclic.applyTerm_of_bound (hs : s.Acyclic) (hv : s.get? v = some t) :
    s.applyTerm (.var v) = s.applyTerm t := by
  rw [applyTerm_var, ← hs.resolve_succ _ _ (Nat.le_add_right _ _), resolve_succ_of_bound hv]
  rfl

theorem apply_eq_subst (s : Substitution) (p : Predicate) :
    s.apply p = p.subst (s.resolve s.size) := by
  rw [apply]
  split
  next h =>
    have hres : ∀ v ∈ p.vars, s.resolve s.size v = .var v := by
      intro v _
      apply resolve_of_unbound
      rw [OrderedMap.get?, List.isEmpty_iff.mp h]
      rfl
    rw [Predicate.subst_congr hres, Predicate.subst_id]
  next => rfl

theorem Respects.subst_resolve (hθ : Respects θ s) (d : Nat) (v : String) :
    (s.resolve d v).subst θ = θ v := by
  induction d generalizing v with
  | zero => rfl
  | succ d ih =>
      cases hv : s.get? v with
      | none => rw [resolve_of_unbound hv, Term.subst_var]
      | some t =>
          rw [resolve_succ_of_bound hv, Term.subst_subst, hθ v t hv]
          exact Term.subst_congr fun w _ => ih w

/-- An assignment that respects the substitution does not see it applied. -/
theorem Respects.subst_applyTerm (hθ : Respects θ s) (t : Term) :
    (s.applyTerm t).subst θ = t.subst θ := by
  rw [applyTerm, Term.subst_subst]
  exact Term.subst_congr fun v _ => hθ.subst_resolve _ v

theorem Respects.subst_apply (hθ : Respects θ s) (p : Predicate) :
    (s.apply p).subst θ = p.subst θ := by
  rw [apply_eq_subst, Predicate.subst_subst]
  exact Predicate.subst_congr fun v _ => hθ.subst_resolve _ v

/-- Applying an acyclic substitution, and anything after it, respects it. -/
theorem Acyclic.respects (hs : s.Acyclic) (θ : String → Term) :
    Respects (fun v => (s.applyTerm (.var v)).subst θ) s := by
  intro v t hv
  dsimp only
  rw [hs.applyTerm_of_bound hv, applyTerm, Term.subst_subst]
  rfl

theorem Acyclic.respects_resolve (hs : s.Acyclic) : Respects (s.resolve s.size) s :=
  fun _ _ hv => hs.applyTerm_of_bound hv

theorem Acyclic.unbound_of_mem_resolve (hs : s.Acyclic)
    (hw : w ∈ (s.applyTerm (.var v)).vars) : s.get? w = none := by
  induction v using hs.induction with
  | step v ih =>
      cases hv : s.get? v with
      | none =>
          rw [applyTerm_of_unbound hv, Term.mem_vars_var] at hw
          rw [hw, hv]
      | some t =>
          rw [hs.applyTerm_of_bound hv, applyTerm, Term.mem_vars_subst] at hw
          obtain ⟨u, hu, hw⟩ := hw
          exact ih u ⟨t, hv, hu⟩ hw

theorem Acyclic.unbound_of_mem_vars (hs : s.Acyclic) (hw : w ∈ (s.applyTerm t).vars) :
    s.get? w = none := by
  rw [applyTerm, Term.mem_vars_subst] at hw
  obtain ⟨v, -, hw⟩ := hw
  exact hs.unbound_of_mem_resolve hw

theorem Acyclic.applyTerm_idem (hs : s.Acyclic) (t : Term) :
    s.applyTerm (s.applyTerm t) = s.applyTerm t := by
  have hfix : ∀ w ∈ (s.applyTerm t).vars, s.resolve s.size w = .var w :=
    fun w hw => resolve_of_unbound (hs.unbound_of_mem_vars hw) _
  rw [applyTerm, Term.subst_congr hfix, Term.subst_id]

@[simp] theorem walkWithin_const (d : Nat) (c : String) :
    s.walkWithin d (.const c) = .const c := by
  cases d <;> rfl

@[simp] theorem walkWithin_app (d : Nat) (f : String) (args : List Term) :
    s.walkWithin d (.app f args) = .app f args := by
  cases d <;> rfl

theorem walkWithin_of_unbound (hv : s.get? v = none) (d : Nat) :
    s.walkWithin d (.var v) = .var v := by
  cases d with
  | zero => rfl
  | succ d => rw [walkWithin, hv]

theorem walkWithin_succ_of_bound (hv : s.get? v = some t) (d : Nat) :
    s.walkWithin (d + 1) (.var v) = s.walkWithin d t := by
  rw [walkWithin, hv]

theorem Acyclic.walkWithin_succ (hs : s.Acyclic) (d : Nat) (v : String)
    (hd : s.size ≤ d + s.rank v) :
    s.walkWithin (d + 1) (.var v) = s.walkWithin d (.var v) := by
  induction d generalizing v with
  | zero =>
      cases hv : s.get? v with
      | none => rw [walkWithin_of_unbound hv, walkWithin_of_unbound hv]
      | some t =>
          have := hs.rank_lt_size hv
          omega
  | succ d ih =>
      cases hv : s.get? v with
      | none => rw [walkWithin_of_unbound hv, walkWithin_of_unbound hv]
      | some t =>
          rw [walkWithin_succ_of_bound hv, walkWithin_succ_of_bound hv]
          cases t with
          | var w =>
              have := hs.rank_lt ⟨.var w, hv, Term.mem_vars_var.mpr rfl⟩
              exact ih w (by omega)
          | const c | app f args => simp only [walkWithin_const, walkWithin_app]

@[simp] theorem walk_const (c : String) : s.walk (.const c) = .const c := walkWithin_const _ c

@[simp] theorem walk_app (f : String) (args : List Term) : s.walk (.app f args) = .app f args :=
  walkWithin_app _ f args

theorem walk_of_unbound (hv : s.get? v = none) : s.walk (.var v) = .var v :=
  walkWithin_of_unbound hv _

theorem Acyclic.walk_of_bound (hs : s.Acyclic) (hv : s.get? v = some t) :
    s.walk (.var v) = s.walk t := by
  rw [walk, ← hs.walkWithin_succ _ _ (Nat.le_add_right _ _), walkWithin_succ_of_bound hv]
  rfl

theorem Acyclic.unbound_of_walk (hs : s.Acyclic) (h : s.walk t = .var w) : s.get? w = none := by
  cases t with
  | const c | app f args => simp at h
  | var v =>
      induction v using hs.induction with
      | step v ih =>
          cases hv : s.get? v with
          | none =>
              rw [walk_of_unbound hv] at h
              cases h
              exact hv
          | some t =>
              rw [hs.walk_of_bound hv] at h
              cases t with
              | var u => exact ih u ⟨.var u, hv, Term.mem_vars_var.mpr rfl⟩ h
              | const c | app f args => simp at h

theorem Acyclic.applyTerm_walk (hs : s.Acyclic) (t : Term) :
    s.applyTerm (s.walk t) = s.applyTerm t := by
  cases t with
  | const c | app f args => simp only [walk_const, walk_app]
  | var v =>
      induction v using hs.induction with
      | step v ih =>
          cases hv : s.get? v with
          | none => rw [walk_of_unbound hv]
          | some t =>
              rw [hs.walk_of_bound hv, hs.applyTerm_of_bound hv]
              cases t with
              | var u => exact ih u ⟨.var u, hv, Term.mem_vars_var.mpr rfl⟩
              | const c | app f args => simp only [walk_const, walk_app]

theorem reaches_iff {d : Nat} : s.reaches w d v = true ↔ w ∈ (s.resolve d v).vars := by
  induction d generalizing v with
  | zero =>
      rw [reaches, resolve, Term.mem_vars_var, beq_iff_eq]
      exact eq_comm
  | succ d ih =>
      cases hv : s.get? v with
      | none =>
          rw [reaches, hv, resolve_of_unbound hv, Term.mem_vars_var, beq_iff_eq]
          exact eq_comm
      | some t =>
          simp only [reaches, hv, resolve_succ_of_bound hv, Term.anyVariable_iff,
            Term.mem_vars_subst, ih]

/-- The occurs check sees what applying the substitution would show. -/
theorem occurs_iff : s.occurs v t = true ↔ v ∈ (s.applyTerm t).vars := by
  simp only [occurs, applyTerm, Term.anyVariable_iff, Term.mem_vars_subst, reaches_iff]

theorem Acyclic.mem_resolve_of_path (hs : s.Acyclic) (hw : s.get? w = none)
    (h : Relation.ReflTransGen s.Binds v w) : w ∈ (s.applyTerm (.var v)).vars := by
  induction h using Relation.ReflTransGen.head_induction_on with
  | refl => rw [applyTerm_of_unbound hw, Term.mem_vars_var]
  | head hvu _ ih =>
      obtain ⟨t, hv, hu⟩ := hvu
      rw [hs.applyTerm_of_bound hv, applyTerm, Term.mem_vars_subst]
      exact ⟨_, hu, ih⟩

theorem binds_insert (hv : s.get? v = none) {u w : String} (h : Binds (s.insert v t) u w) :
    s.Binds u w ∨ u = v ∧ w ∈ t.vars := by
  obtain ⟨r, hr, hw⟩ := h
  by_cases hu : u = v
  · subst hu
    rw [OrderedMap.get?_insert_self] at hr
    cases hr
    exact .inr ⟨rfl, hw⟩
  · rw [OrderedMap.get?_insert_of_ne _ _ hu] at hr
    exact .inl ⟨r, hr, hw⟩

/-- A path after an insertion avoids the new binding, or starts with a path of old
bindings to the bound variable and ends with one from its term. -/
theorem path_insert (hv : s.get? v = none) {a b : String}
    (h : Relation.TransGen (Binds (s.insert v t)) a b) :
    Relation.TransGen s.Binds a b ∨
      Relation.ReflTransGen s.Binds a v ∧ ∃ c ∈ t.vars, Relation.ReflTransGen s.Binds c b := by
  induction h with
  | single h =>
      obtain h | ⟨rfl, hb⟩ := binds_insert hv h
      · exact .inl (.single h)
      · exact .inr ⟨.refl, _, hb, .refl⟩
  | tail _ h ih =>
      obtain h | ⟨rfl, hb⟩ := binds_insert hv h
      · obtain ih | ⟨hav, c, hc, hcb⟩ := ih
        · exact .inl (ih.tail h)
        · exact .inr ⟨hav, c, hc, hcb.tail h⟩
      · obtain ih | ⟨hav, -, -, -⟩ := ih
        · exact .inr ⟨ih.to_reflTransGen, _, hb, .refl⟩
        · exact .inr ⟨hav, _, hb, .refl⟩

/-- Binding an unbound variable to a term in which it does not occur keeps a
substitution acyclic. The term may be an unresolved chain of variables. -/
theorem Acyclic.insert (hs : s.Acyclic) (hv : s.get? v = none)
    (ht : v ∉ (s.applyTerm t).vars) : Acyclic (s.insert v t) := by
  intro u h
  obtain h | ⟨huv, c, hc, hcu⟩ := path_insert hv h
  · exact hs u h
  · apply ht
    rw [applyTerm, Term.mem_vars_subst]
    exact ⟨c, hc, hs.mem_resolve_of_path hv (hcu.trans huv)⟩

end Substitution
end Defeasible
