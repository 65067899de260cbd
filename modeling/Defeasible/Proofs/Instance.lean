import Mathlib.Data.List.Basic
import Defeasible.Term

/-!
Instances of terms. The functions on argument lists are the functions on terms
mapped over the list, so that a statement about terms needs one induction whose
hypothesis covers every argument. Replacing variables composes, depends only on
the variables that occur, and never makes a term smaller than what it puts in.
-/

namespace Defeasible
namespace Term

/-- Structural induction with a hypothesis for each member of an argument list. -/
@[elab_as_elim, induction_eliminator]
theorem induction {motive : Term → Prop} (var : ∀ v, motive (.var v))
    (const : ∀ c, motive (.const c))
    (app : ∀ f args, (∀ a ∈ args, motive a) → motive (.app f args)) : ∀ t, motive t
  | .var v => var v
  | .const c => const c
  | .app f args => app f args fun a _ => induction var const app a

theorem substList_eq_map (σ : String → Term) (ts : List Term) :
    substList σ ts = ts.map (subst σ) := by
  induction ts with
  | nil => rfl
  | cons t ts ih => rw [substList, ih, List.map_cons]

theorem varsList_eq_flatMap (ts : List Term) : varsList ts = ts.flatMap vars := by
  induction ts with
  | nil => rfl
  | cons t ts ih => rw [varsList, ih, List.flatMap_cons]

theorem isGroundList_eq_all (ts : List Term) : isGroundList ts = ts.all isGround := by
  induction ts with
  | nil => rfl
  | cons t ts ih => rw [isGroundList, ih, List.all_cons]

theorem anyVariableList_eq_any (p : String → Bool) (ts : List Term) :
    anyVariableList p ts = ts.any (anyVariable p) := by
  induction ts with
  | nil => rfl
  | cons t ts ih => rw [anyVariableList, ih, List.any_cons]

theorem hasUnnamedList_eq_any (ts : List Term) : hasUnnamedList ts = ts.any hasUnnamed := by
  induction ts with
  | nil => rfl
  | cons t ts ih => rw [hasUnnamedList, ih, List.any_cons]

theorem size_le_sizeList {t : Term} {ts : List Term} (h : t ∈ ts) : t.size ≤ sizeList ts := by
  induction ts with
  | nil => cases h
  | cons u us ih =>
      rw [sizeList]
      obtain rfl | h := List.mem_cons.mp h
      · exact Nat.le_add_right _ _
      · exact Nat.le_add_left_of_le (ih h)

@[simp] theorem subst_var (σ : String → Term) (v : String) : (Term.var v).subst σ = σ v := rfl

@[simp] theorem subst_const (σ : String → Term) (c : String) :
    (Term.const c).subst σ = .const c := rfl

@[simp] theorem subst_app (σ : String → Term) (f : String) (args : List Term) :
    (Term.app f args).subst σ = .app f (args.map (subst σ)) := by
  rw [subst, substList_eq_map]

@[simp] theorem mem_vars_var {v w : String} : w ∈ (Term.var v).vars ↔ w = v :=
  List.mem_singleton

@[simp] theorem not_mem_vars_const {c w : String} : w ∉ (Term.const c).vars := List.not_mem_nil

@[simp] theorem mem_vars_app {f w : String} {args : List Term} :
    w ∈ (Term.app f args).vars ↔ ∃ a ∈ args, w ∈ a.vars := by
  rw [vars, varsList_eq_flatMap, List.mem_flatMap]

theorem subst_congr {σ τ : String → Term} {t : Term} (h : ∀ v ∈ t.vars, σ v = τ v) :
    t.subst σ = t.subst τ := by
  induction t with
  | var v => exact h v (mem_vars_var.mpr rfl)
  | const c => rfl
  | app f args ih =>
      have hargs : args.map (subst σ) = args.map (subst τ) :=
        List.map_congr_left fun a ha => ih a ha fun v hv => h v (mem_vars_app.mpr ⟨a, ha, hv⟩)
      rw [subst_app, subst_app, hargs]

theorem eq_of_subst_eq {σ τ : String → Term} {t : Term} (h : t.subst σ = t.subst τ) :
    ∀ v ∈ t.vars, σ v = τ v := by
  induction t with
  | var w =>
      intro v hv
      obtain rfl := mem_vars_var.mp hv
      exact h
  | const c => exact fun v hv => absurd hv not_mem_vars_const
  | app f args ih =>
      intro v hv
      obtain ⟨a, ha, hv⟩ := mem_vars_app.mp hv
      rw [subst_app, subst_app] at h
      exact ih a ha (List.map_inj_left.mp (Term.app.inj h).2 a ha) v hv

theorem subst_subst (σ τ : String → Term) (t : Term) :
    (t.subst σ).subst τ = t.subst fun v => (σ v).subst τ := by
  induction t with
  | var v => rfl
  | const c => rfl
  | app f args ih =>
      simp only [subst_app, List.map_map]
      exact congrArg (Term.app f) (List.map_congr_left ih)

theorem subst_id (t : Term) : t.subst .var = t := by
  induction t with
  | var v => rfl
  | const c => rfl
  | app f args ih =>
      rw [subst_app, List.map_congr_left ih, List.map_id']

theorem mem_vars_subst {σ : String → Term} {t : Term} {w : String} :
    w ∈ (t.subst σ).vars ↔ ∃ v ∈ t.vars, w ∈ (σ v).vars := by
  induction t with
  | var v => simp
  | const c => simp
  | app f args ih =>
      simp only [subst_app, mem_vars_app, List.mem_map, exists_exists_and_eq_and]
      constructor
      · rintro ⟨a, ha, hw⟩
        obtain ⟨v, hv, hw⟩ := (ih a ha).mp hw
        exact ⟨v, ⟨a, ha, hv⟩, hw⟩
      · rintro ⟨v, ⟨a, ha, hv⟩, hw⟩
        exact ⟨a, ha, (ih a ha).mpr ⟨v, hv, hw⟩⟩

theorem anyVariable_iff {p : String → Bool} {t : Term} :
    t.anyVariable p = true ↔ ∃ v ∈ t.vars, p v = true := by
  induction t with
  | var v => simp [anyVariable]
  | const c => simp [anyVariable]
  | app f args ih =>
      simp only [anyVariable, anyVariableList_eq_any, List.any_eq_true, mem_vars_app]
      constructor
      · rintro ⟨a, ha, hp⟩
        obtain ⟨v, hv, hp⟩ := (ih a ha).mp hp
        exact ⟨v, ⟨a, ha, hv⟩, hp⟩
      · rintro ⟨v, ⟨a, ha, hv⟩, hp⟩
        exact ⟨a, ha, (ih a ha).mpr ⟨v, hv, hp⟩⟩

theorem isGround_iff {t : Term} : t.isGround = true ↔ ∀ v, v ∉ t.vars := by
  induction t with
  | var v => simp [isGround]
  | const c => simp [isGround]
  | app f args ih =>
      simp only [isGround, isGroundList_eq_all, List.all_eq_true, mem_vars_app]
      constructor
      · rintro h v ⟨a, ha, hv⟩
        exact (ih a ha).mp (h a ha) v hv
      · intro h a ha
        exact (ih a ha).mpr fun v hv => h v ⟨a, ha, hv⟩

theorem subst_of_isGround {t : Term} (h : t.isGround = true) (σ : String → Term) :
    t.subst σ = t := by
  have hvars : ∀ v ∈ t.vars, σ v = .var v := fun v hv => absurd hv (isGround_iff.mp h v)
  rw [subst_congr hvars, subst_id]

theorem hasUnnamed_subst {σ : String → Term} {t : Term} :
    (t.subst σ).hasUnnamed = true ↔
      t.hasUnnamed = true ∨ ∃ v ∈ t.vars, (σ v).hasUnnamed = true := by
  induction t with
  | var v => simp [hasUnnamed]
  | const c => simp [hasUnnamed]
  | app f args ih =>
      simp only [subst_app, hasUnnamed, hasUnnamedList_eq_any, List.any_map, Bool.or_eq_true,
        List.any_eq_true, Function.comp_apply, mem_vars_app]
      constructor
      · rintro (hf | ⟨a, ha, hunnamed⟩)
        · exact .inl (.inl hf)
        · obtain hunnamed | ⟨v, hv, hunnamed⟩ := (ih a ha).mp hunnamed
          · exact .inl (.inr ⟨a, ha, hunnamed⟩)
          · exact .inr ⟨v, ⟨a, ha, hv⟩, hunnamed⟩
      · rintro ((hf | ⟨a, ha, hunnamed⟩) | ⟨v, ⟨a, ha, hv⟩, hunnamed⟩)
        · exact .inl hf
        · exact .inr ⟨a, ha, (ih a ha).mpr (.inl hunnamed)⟩
        · exact .inr ⟨a, ha, (ih a ha).mpr (.inr ⟨v, hv, hunnamed⟩)⟩

/-- What is put in for a variable of the term is a part of the instance. -/
theorem size_le_size_subst {σ : String → Term} {t : Term} {v : String} (h : v ∈ t.vars) :
    (σ v).size ≤ (t.subst σ).size := by
  induction t with
  | var w => exact Nat.le_of_eq (congrArg (fun u => (σ u).size) (mem_vars_var.mp h))
  | const c => exact absurd h not_mem_vars_const
  | app f args ih =>
      obtain ⟨a, ha, hv⟩ := mem_vars_app.mp h
      have hle : (a.subst σ).size ≤ sizeList (args.map (subst σ)) :=
        size_le_sizeList (List.mem_map_of_mem ha)
      rw [subst_app, size]
      exact Nat.le_succ_of_le (Nat.le_trans (ih a ha hv) hle)

/-- In a compound term it is a proper part. -/
theorem size_lt_size_subst {σ : String → Term} {t : Term} {v : String}
    (ht : t.isCompound = true) (h : v ∈ t.vars) : (σ v).size < (t.subst σ).size := by
  cases t with
  | var w | const c => cases ht
  | app f args =>
      obtain ⟨a, ha, hv⟩ := mem_vars_app.mp h
      have hle : (a.subst σ).size ≤ sizeList (args.map (subst σ)) :=
        size_le_sizeList (List.mem_map_of_mem ha)
      rw [subst_app, size]
      exact Nat.lt_succ_of_le (Nat.le_trans (size_le_size_subst hv) hle)

end Term

namespace Predicate

theorem toTerm_subst (σ : String → Term) (p : Predicate) :
    (p.subst σ).toTerm = p.toTerm.subst σ := rfl

theorem toTerm_inj {p q : Predicate} : p.toTerm = q.toTerm ↔ p = q := by
  cases p
  cases q
  simp [toTerm]

theorem subst_congr {σ τ : String → Term} {p : Predicate} (h : ∀ v ∈ p.vars, σ v = τ v) :
    p.subst σ = p.subst τ :=
  toTerm_inj.mp (Term.subst_congr (t := p.toTerm) h)

theorem eq_of_subst_eq {σ τ : String → Term} {p : Predicate} (h : p.subst σ = p.subst τ) :
    ∀ v ∈ p.vars, σ v = τ v :=
  Term.eq_of_subst_eq (t := p.toTerm) (congrArg toTerm h)

theorem subst_subst (σ τ : String → Term) (p : Predicate) :
    (p.subst σ).subst τ = p.subst fun v => (σ v).subst τ :=
  toTerm_inj.mp (Term.subst_subst σ τ p.toTerm)

theorem subst_id (p : Predicate) : p.subst .var = p := toTerm_inj.mp (Term.subst_id p.toTerm)

theorem mem_vars_subst {σ : String → Term} {p : Predicate} {w : String} :
    w ∈ (p.subst σ).vars ↔ ∃ v ∈ p.vars, w ∈ (σ v).vars :=
  Term.mem_vars_subst (t := p.toTerm)

theorem hasUnnamed_subst {σ : String → Term} {p : Predicate} :
    (p.subst σ).hasUnnamed = true ↔
      p.hasUnnamed = true ∨ ∃ v ∈ p.vars, (σ v).hasUnnamed = true :=
  Term.hasUnnamed_subst (t := p.toTerm)

theorem mem_vars_of_mem_args {p : Predicate} {a : Term} {v : String} (ha : a ∈ p.args)
    (hv : v ∈ a.vars) : v ∈ p.vars :=
  Term.mem_vars_app (f := p.name).mpr ⟨a, ha, hv⟩

theorem isGround_iff {p : Predicate} : p.isGround = true ↔ ∀ v, v ∉ p.vars :=
  Term.isGround_iff (t := p.toTerm)

theorem subst_of_isGround {p : Predicate} (h : p.isGround = true) (σ : String → Term) :
    p.subst σ = p :=
  toTerm_inj.mp (Term.subst_of_isGround (t := p.toTerm) h σ)

end Predicate
end Defeasible
