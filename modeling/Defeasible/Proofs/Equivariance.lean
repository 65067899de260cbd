import Defeasible.Unification
import Defeasible.Negation
import Defeasible.Proofs.UnificationBound

/-!
Exchanging names. When variables get other names, no two of them the same, everything that
follows bindings commutes with the exchange: walking, applying, the occurs check and
unification give the same results with the names exchanged. None of them looks at a name
otherwise than by comparing it with another.
-/

namespace Defeasible

namespace Term

variable {ρ : String → String} {s t : Term}

def mapNames (ρ : String → String) (t : Term) : Term := t.subst fun v => .var (ρ v)

@[simp] theorem mapNames_var (ρ : String → String) (v : String) :
    (var v).mapNames ρ = .var (ρ v) := rfl

@[simp] theorem mapNames_const (ρ : String → String) (c : String) :
    (const c).mapNames ρ = .const c := rfl

@[simp] theorem mapNames_app (ρ : String → String) (f : String) (args : List Term) :
    (app f args).mapNames ρ = .app f (args.map (mapNames ρ)) := subst_app _ f args

theorem mapNames_of_fixed (h : ∀ v ∈ t.vars, ρ v = v) : t.mapNames ρ = t := by
  have hvars : t.mapNames ρ = t.subst .var := subst_congr fun v hv => congrArg var (h v hv)
  rw [hvars, subst_id]

theorem mapNames_mapNames (ρ π : String → String) (t : Term) :
    (t.mapNames ρ).mapNames π = t.mapNames (π ∘ ρ) := subst_subst _ _ t

theorem mapNames_inj (hρ : ρ.Injective) : s.mapNames ρ = t.mapNames ρ ↔ s = t := by
  refine ⟨fun h => ?_, congrArg _⟩
  obtain ⟨π, hπ⟩ := hρ.hasLeftInverse
  have hback : ∀ u : Term, (u.mapNames ρ).mapNames π = u := fun u => by
    rw [mapNames_mapNames]
    exact mapNames_of_fixed fun v _ => hπ v
  rw [← hback s, ← hback t, h]

theorem mapNames_subst (ρ : String → String) (σ : String → Term) (t : Term) :
    (t.subst σ).mapNames ρ = t.subst fun v => (σ v).mapNames ρ := subst_subst _ _ t

theorem subst_mapNames (ρ : String → String) (σ : String → Term) (t : Term) :
    (t.mapNames ρ).subst σ = t.subst fun v => σ (ρ v) := subst_subst _ _ t

theorem mem_vars_mapNames {w : String} : w ∈ (t.mapNames ρ).vars ↔ ∃ v ∈ t.vars, ρ v = w := by
  simp [mapNames, mem_vars_subst, eq_comm]

@[simp] theorem isCompound_mapNames (ρ : String → String) (t : Term) :
    (t.mapNames ρ).isCompound = t.isCompound := by
  cases t with
  | var | const => rfl
  | app => rw [mapNames_app]; rfl

@[simp] theorem size_mapNames (ρ : String → String) (t : Term) : (t.mapNames ρ).size = t.size := by
  induction t with
  | var | const => rfl
  | app f args ih =>
      have hargs : sizeList (args.map (mapNames ρ)) = sizeList args := by
        induction args with
        | nil => rfl
        | cons a args ihargs =>
            rw [List.map_cons, sizeList, sizeList, ih a (.head _),
              ihargs fun b hb => ih b (.tail _ hb)]
      rw [mapNames_app, size, size, hargs]

theorem anyVariable_mapNames (ρ : String → String) (p : String → Bool) (t : Term) :
    (t.mapNames ρ).anyVariable p = t.anyVariable (p ∘ ρ) := by
  rw [Bool.eq_iff_iff, anyVariable_iff, anyVariable_iff]
  simp [mem_vars_mapNames]

end Term

namespace Predicate

variable {ρ : String → String} {p q : Predicate}

def mapNames (ρ : String → String) (p : Predicate) : Predicate := p.subst fun v => .var (ρ v)

@[simp] theorem name_mapNames (ρ : String → String) (p : Predicate) :
    (p.mapNames ρ).name = p.name := rfl

@[simp] theorem args_mapNames (ρ : String → String) (p : Predicate) :
    (p.mapNames ρ).args = p.args.map (Term.mapNames ρ) := Term.substList_eq_map _ _

@[simp] theorem arity_mapNames (ρ : String → String) (p : Predicate) :
    (p.mapNames ρ).arity = p.arity := by
  simp [arity]

theorem negated_mapNames (ρ : String → String) (p : Predicate) :
    (p.mapNames ρ).negated = p.negated.mapNames ρ := rfl

theorem mapNames_of_fixed (h : ∀ v ∈ p.vars, ρ v = v) : p.mapNames ρ = p := by
  have hvars : p.mapNames ρ = p.subst .var := subst_congr fun v hv => congrArg Term.var (h v hv)
  rw [hvars, subst_id]

theorem mapNames_inj (hρ : ρ.Injective) : p.mapNames ρ = q.mapNames ρ ↔ p = q := by
  rw [← toTerm_inj, mapNames, mapNames, toTerm_subst, toTerm_subst]
  exact (Term.mapNames_inj hρ).trans toTerm_inj

theorem mapNames_of_isGround (h : p.isGround = true) : p.mapNames ρ = p := subst_of_isGround h _

theorem mem_vars_mapNames {w : String} : w ∈ (p.mapNames ρ).vars ↔ ∃ v ∈ p.vars, ρ v = w := by
  simp [mapNames, mem_vars_subst, eq_comm]

@[simp] theorem isGround_mapNames (ρ : String → String) (p : Predicate) :
    (p.mapNames ρ).isGround = p.isGround := by
  rw [Bool.eq_iff_iff, isGround_iff, isGround_iff]
  simp only [mem_vars_mapNames]
  refine ⟨fun h v hv => h (ρ v) ⟨v, hv, rfl⟩, ?_⟩
  rintro h w ⟨v, hv, -⟩
  exact h v hv

end Predicate

namespace Substitution

variable {ρ : String → String} {s : Substitution} {v : String} {t : Term}

/-- The bindings with all names exchanged, those of the bound variables too. -/
def mapNames (ρ : String → String) (s : Substitution) : Substitution :=
  .ofList (s.entries.map fun e => (ρ e.1, e.2.mapNames ρ))

theorem perm_mapNames (hρ : ρ.Injective) (s : Substitution) :
    (s.mapNames ρ).entries.Perm (s.entries.map fun e => (ρ e.1, e.2.mapNames ρ)) := by
  refine OrderedMap.perm_ofList ?_
  have hkeys : (s.entries.map fun e => (ρ e.1, e.2.mapNames ρ)).map Prod.fst = s.keys.map ρ := by
    simp [OrderedMap.keys]
  rw [hkeys]
  exact s.nodup_keys.map hρ

theorem get?_mapNames_eq_some (hρ : ρ.Injective) {w : String} {u : Term} :
    (s.mapNames ρ).get? w = some u ↔
      ∃ v t, s.get? v = some t ∧ ρ v = w ∧ t.mapNames ρ = u := by
  rw [OrderedMap.get?_eq_some_iff, (perm_mapNames hρ s).mem_iff]
  simp [OrderedMap.get?_eq_some_iff]

theorem get?_mapNames (hρ : ρ.Injective) (s : Substitution) (v : String) :
    (s.mapNames ρ).get? (ρ v) = (s.get? v).map (Term.mapNames ρ) := by
  ext u
  rw [get?_mapNames_eq_some hρ, Option.map_eq_some_iff]
  constructor
  · rintro ⟨w, t, ht, hw, hu⟩
    rw [hρ hw] at ht
    exact ⟨t, ht, hu⟩
  · rintro ⟨t, ht, hu⟩
    exact ⟨v, t, ht, rfl, hu⟩

theorem mapNames_of_fixed (hρ : ρ.Injective)
    (h : ∀ v t, s.get? v = some t → ρ v = v ∧ t.mapNames ρ = t) : s.mapNames ρ = s := by
  refine OrderedMap.ext_get? fun w => Option.ext fun u => ?_
  rw [get?_mapNames_eq_some hρ]
  constructor
  · rintro ⟨v, t, ht, rfl, rfl⟩
    obtain ⟨hv, hterm⟩ := h v t ht
    rwa [hv, hterm]
  · intro hu
    obtain ⟨hw, hterm⟩ := h w u hu
    exact ⟨w, u, hu, hw, hterm⟩

theorem size_mapNames (hρ : ρ.Injective) (s : Substitution) : (s.mapNames ρ).size = s.size := by
  rw [OrderedMap.size, (perm_mapNames hρ s).length_eq, List.length_map]
  rfl

theorem weight_mapNames (hρ : ρ.Injective) (s : Substitution) :
    (s.mapNames ρ).weight = s.weight := by
  rw [weight, (perm_mapNames hρ s).foldr_eq' (fun _ _ _ _ _ => by omega), List.foldr_map]
  simp only [Term.size_mapNames]
  rfl

theorem insert_mapNames (hρ : ρ.Injective) (s : Substitution) (v : String) (t : Term) :
    mapNames ρ (s.insert v t) = (s.mapNames ρ).insert (ρ v) (t.mapNames ρ) := by
  refine OrderedMap.ext_get? fun w => ?_
  by_cases hw : ∃ u, ρ u = w
  · obtain ⟨u, rfl⟩ := hw
    simp only [get?_mapNames hρ, OrderedMap.get?_insert, hρ.eq_iff]
    split <;> rfl
  · have hnone : ∀ s : Substitution, (s.mapNames ρ).get? w = none := fun s => by
      refine Option.eq_none_iff_forall_ne_some.mpr fun u hu => ?_
      obtain ⟨v, -, -, hv, -⟩ := (get?_mapNames_eq_some hρ).mp hu
      exact hw ⟨v, hv⟩
    rw [hnone, OrderedMap.get?_insert_of_ne _ _ fun h => hw ⟨v, h.symm⟩, hnone]

theorem walkWithin_mapNames (hρ : ρ.Injective) (s : Substitution) (steps : Nat) (t : Term) :
    (s.mapNames ρ).walkWithin steps (t.mapNames ρ) = (s.walkWithin steps t).mapNames ρ := by
  induction steps generalizing t with
  | zero => rfl
  | succ steps ih =>
      cases t with
      | const => rfl
      | app => rw [Term.mapNames_app, walkWithin_app, walkWithin_app, Term.mapNames_app]
      | var v =>
          rw [Term.mapNames_var, walkWithin, walkWithin, get?_mapNames hρ]
          cases s.get? v with
          | none => rfl
          | some t => exact ih t

theorem walk_mapNames (hρ : ρ.Injective) (s : Substitution) (t : Term) :
    (s.mapNames ρ).walk (t.mapNames ρ) = (s.walk t).mapNames ρ := by
  rw [walk, size_mapNames hρ, walkWithin_mapNames hρ, walk]

theorem resolve_mapNames (hρ : ρ.Injective) (s : Substitution) (depth : Nat) (v : String) :
    (s.mapNames ρ).resolve depth (ρ v) = (s.resolve depth v).mapNames ρ := by
  induction depth generalizing v with
  | zero => rfl
  | succ depth ih =>
      rw [resolve, resolve, get?_mapNames hρ]
      cases s.get? v with
      | none => rfl
      | some t =>
          simp only [Option.map_some, Term.subst_mapNames, Term.mapNames_subst, ih]

theorem applyTerm_mapNames (hρ : ρ.Injective) (s : Substitution) (t : Term) :
    (s.mapNames ρ).applyTerm (t.mapNames ρ) = (s.applyTerm t).mapNames ρ := by
  simp only [applyTerm, Term.subst_mapNames, Term.mapNames_subst, size_mapNames hρ,
    resolve_mapNames hρ]

theorem apply_mapNames (hρ : ρ.Injective) (s : Substitution) (p : Predicate) :
    (s.mapNames ρ).apply (p.mapNames ρ) = (s.apply p).mapNames ρ := by
  rw [apply_eq_subst, apply_eq_subst, Predicate.mapNames, Predicate.mapNames,
    Predicate.subst_subst, Predicate.subst_subst, size_mapNames hρ]
  exact Predicate.subst_congr fun v _ => resolve_mapNames hρ s s.size v

theorem reaches_mapNames (hρ : ρ.Injective) (s : Substitution) (target : String) (depth : Nat)
    (v : String) :
    (s.mapNames ρ).reaches (ρ target) depth (ρ v) = s.reaches target depth v := by
  have hbeq : ∀ u w : String, (ρ u == ρ w) = (u == w) := fun u w => by
    rw [Bool.eq_iff_iff, beq_iff_eq, beq_iff_eq, hρ.eq_iff]
  induction depth generalizing v with
  | zero => exact hbeq v target
  | succ depth ih =>
      rw [reaches, reaches, get?_mapNames hρ]
      cases s.get? v with
      | none => exact hbeq v target
      | some t =>
          simp only [Option.map_some, Term.anyVariable_mapNames]
          congr 1
          funext w
          exact ih w

theorem occurs_mapNames (hρ : ρ.Injective) (s : Substitution) (v : String) (t : Term) :
    (s.mapNames ρ).occurs (ρ v) (t.mapNames ρ) = s.occurs v t := by
  rw [occurs, occurs, Term.anyVariable_mapNames, size_mapNames hρ]
  congr 1
  funext w
  exact reaches_mapNames hρ s v s.size w

end Substitution

section Unification

variable {ρ : String → String}

/-- Exchanging the names before or after makes no difference to what the function finds. -/
def Unifier.Equivariant (ρ : String → String)
    (unifier : Term → Term → Substitution → Option Substitution) : Prop :=
  ∀ x y s, unifier (x.mapNames ρ) (y.mapNames ρ) (s.mapNames ρ) =
    (unifier x y s).map (Substitution.mapNames ρ)

variable {unifier : Term → Term → Substitution → Option Substitution}

theorem Unifier.Equivariant.lists (h : Equivariant ρ unifier) (xs ys : List Term)
    (s : Substitution) :
    unifyLists unifier (xs.map (Term.mapNames ρ)) (ys.map (Term.mapNames ρ)) (s.mapNames ρ) =
      (unifyLists unifier xs ys s).map (Substitution.mapNames ρ) := by
  induction xs generalizing ys s with
  | nil => rfl
  | cons x xs ih =>
      cases ys with
      | nil => rfl
      | cons y ys =>
          simp only [List.map_cons, unifyLists, h x y s]
          cases unifier x y s with
          | none => rfl
          | some s => exact ih ys s

theorem Unifier.Equivariant.assign (hρ : ρ.Injective) (h : Equivariant ρ unifier)
    (v : String) (t : Term) (s : Substitution) :
    unifyVariableBy unifier (ρ v) (t.mapNames ρ) (s.mapNames ρ) =
      (unifyVariableBy unifier v t s).map (Substitution.mapNames ρ) := by
  rw [unifyVariableBy, unifyVariableBy, Substitution.get?_mapNames hρ]
  cases s.get? v with
  | some bound => exact h bound t s
  | none =>
      have hwalk : (s.walk t).mapNames ρ = .var (ρ v) ↔ s.walk t = .var v :=
        Term.mapNames_inj (t := .var v) hρ
      simp only [Option.map_none, Substitution.walk_mapNames hρ, hwalk, Term.isCompound_mapNames,
        Substitution.occurs_mapNames hρ, ← Substitution.insert_mapNames hρ]
      split
      · rfl
      · split <;> rfl

theorem Term.clash_mapNames (ρ : String → String) (x y : Term) :
    (x.mapNames ρ).clash (y.mapNames ρ) = x.clash y := by
  cases x <;> cases y <;> simp [Term.clash]

theorem unifyWithin_mapNames (hρ : ρ.Injective) (depth : Nat) :
    Unifier.Equivariant ρ (unifyWithin depth) := by
  induction depth with
  | zero => exact fun _ _ _ => rfl
  | succ depth ih =>
      intro x y s
      by_cases heq : x = y
      · rw [heq, unifyWithin_self, unifyWithin_self]
        rfl
      have hne : x.mapNames ρ ≠ y.mapNames ρ := mt (Term.mapNames_inj hρ).mp heq
      by_cases hclash : x.clash y = true
      · rw [unifyWithin_clash hclash, unifyWithin_clash (Term.clash_mapNames ρ x y ▸ hclash)]
        rfl
      -- a variable on the left comes first, as in the definition
      cases x with
      | var v =>
          rw [unifyWithin_left heq, Term.mapNames_var, unifyWithin_left hne]
          exact ih.assign hρ v y s
      | const a =>
          cases y with
          | var v =>
              rw [unifyWithin_right (by simp), Term.mapNames_var, unifyWithin_right (by simp)]
              exact ih.assign hρ v _ s
          | const b | app g ys => simp_all [Term.clash]
      | app f xs =>
          cases y with
          | var v =>
              rw [unifyWithin_right (by simp), Term.mapNames_var, unifyWithin_right (by simp)]
              exact ih.assign hρ v _ s
          | const b => simp [Term.clash] at hclash
          | app g ys =>
              obtain ⟨rfl, hlength⟩ : f = g ∧ xs.length = ys.length := by
                simpa [Term.clash] using hclash
              rw [Term.mapNames_app, Term.mapNames_app] at hne ⊢
              rw [unifyWithin_arguments (by simpa using heq) hlength,
                unifyWithin_arguments (by simpa using hne) (by simpa using hlength)]
              exact ih.lists xs ys s

theorem unify_mapNames (hρ : ρ.Injective) : Unifier.Equivariant ρ unify := by
  intro x y s
  have hdepth : unifyDepth (x.mapNames ρ) (y.mapNames ρ) (s.mapNames ρ) = unifyDepth x y s := by
    simp only [unifyDepth, Term.size_mapNames, Substitution.weight_mapNames hρ]
  rw [unify, hdepth, unifyWithin_mapNames hρ, unify]

theorem unifyPredicates_mapNames (hρ : ρ.Injective) (p q : Predicate) (s : Substitution) :
    unifyPredicates (p.mapNames ρ) (q.mapNames ρ) (s.mapNames ρ) =
      (unifyPredicates p q s).map (Substitution.mapNames ρ) := by
  simp only [unifyPredicates, Predicate.name_mapNames, Predicate.arity_mapNames,
    Predicate.args_mapNames]
  split
  · exact (unify_mapNames hρ).lists p.args q.args s
  · rfl

theorem unifyPredicates_ground_mapNames (hρ : ρ.Injective) {p : Predicate}
    (hp : p.isGround = true) (q : Predicate) (s : Substitution) :
    unifyPredicates p (q.mapNames ρ) (s.mapNames ρ) =
      (unifyPredicates p q s).map (Substitution.mapNames ρ) := by
  rw [← unifyPredicates_mapNames hρ, Predicate.mapNames_of_isGround hp]

theorem unifyPredicates_empty_mapNames (hρ : ρ.Injective) (p q : Predicate) :
    unifyPredicates (p.mapNames ρ) (q.mapNames ρ) ∅ =
      (unifyPredicates p q ∅).map (Substitution.mapNames ρ) :=
  unifyPredicates_mapNames hρ p q ∅

end Unification

end Defeasible
