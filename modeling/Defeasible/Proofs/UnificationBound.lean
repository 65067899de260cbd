import Defeasible.Proofs.UnificationRuns

/-!
The depth bound of unification suffices. Each call goes on with parts of its terms
or with terms bound to them, and none of these returns to an earlier one while no
variable reaches itself. A finite set that holds all of them therefore bounds the
depth of the calls, and the computed bound exceeds twice the size of such a set.
-/

namespace Defeasible

namespace Term

mutual

/-- The term and all the terms in it. -/
def parts : Term → List Term
  | .var v => [.var v]
  | .const c => [.const c]
  | .app f args => .app f args :: partsList args

def partsList : List Term → List Term
  | [] => []
  | t :: ts => t.parts ++ partsList ts

end

mutual

theorem length_parts (t : Term) : t.parts.length = t.size := by
  cases t with
  | var v | const c => rfl
  | app f args => rw [parts, List.length_cons, length_partsList, size]

theorem length_partsList (ts : List Term) : (partsList ts).length = sizeList ts := by
  cases ts with
  | nil => rfl
  | cons t ts => rw [partsList, List.length_append, length_parts, length_partsList, sizeList]

end

theorem partsList_eq_flatMap (ts : List Term) : partsList ts = ts.flatMap parts := by
  induction ts with
  | nil => rfl
  | cons t ts ih => rw [partsList, ih, List.flatMap_cons]

theorem mem_parts_self (t : Term) : t ∈ t.parts := by
  cases t <;> simp [parts]

theorem mem_parts_of_mem_args {t a : Term} {f : String} {args : List Term}
    (h : .app f args ∈ t.parts) (ha : a ∈ args) : a ∈ t.parts := by
  induction t with
  | var v | const c => simp [parts] at h
  | app g ts ih =>
      rw [parts, partsList_eq_flatMap, List.mem_cons, List.mem_flatMap] at h ⊢
      obtain h | ⟨u, hu, h⟩ := h
      · cases h
        exact .inr ⟨a, ha, mem_parts_self a⟩
      · exact .inr ⟨u, hu, ih u hu h⟩

end Term

/-- A set of terms that holds the arguments of its applications. -/
def ArgumentClosed (A : Term → Prop) : Prop := ∀ f args, A (.app f args) → ∀ a ∈ args, A a

namespace Substitution

/-- Both sides of every binding are in the set. -/
def Within (A : Term → Prop) (s : Substitution) : Prop :=
  ∀ v t, s.get? v = some t → A (.var v) ∧ A t

/-- What a call on `t` may go on with: an argument, or the term bound to it. -/
inductive Leads (s : Substitution) : Term → Term → Prop where
  | argument {f : String} {args : List Term} {a : Term} : a ∈ args → Leads s (.app f args) a
  | binding {v : String} {t : Term} : s.get? v = some t → Leads s (.var v) t

variable {s s' : Substitution} {t u : Term} {U : Finset Term}

theorem Leads.extends (h : s.Leads t u) (hext : s'.Extends s) : s'.Leads t u := by
  cases h with
  | argument ha => exact .argument ha
  | binding hv => exact .binding (hext _ _ hv)

/-- A path either stays inside the term and makes it smaller, or passes a binding
from which all the variables at its end are reached. -/
theorem leads_path (h : Relation.TransGen s.Leads t u) :
    (u.size < t.size ∧ ∀ w ∈ u.vars, w ∈ t.vars) ∨
      ∃ v ∈ t.vars, ∀ w ∈ u.vars, Relation.TransGen s.Binds v w := by
  induction h with
  | single h =>
      cases h with
      | argument ha =>
          exact .inl ⟨Nat.lt_succ_of_le (Term.size_le_sizeList ha),
            fun w hw => Term.mem_vars_app.mpr ⟨_, ha, hw⟩⟩
      | binding hv =>
          exact .inr ⟨_, Term.mem_vars_var.mpr rfl, fun w hw => .single ⟨_, hv, hw⟩⟩
  | tail _ h ih =>
      cases h with
      | argument ha =>
          have hsize := Nat.lt_succ_of_le (Term.size_le_sizeList ha)
          obtain ⟨hlt, hsub⟩ | ⟨v, hv, hall⟩ := ih
          · exact .inl ⟨Nat.lt_trans hsize hlt,
              fun w hw => hsub w (Term.mem_vars_app.mpr ⟨_, ha, hw⟩)⟩
          · exact .inr ⟨v, hv, fun w hw => hall w (Term.mem_vars_app.mpr ⟨_, ha, hw⟩)⟩
      | @binding u _ hu =>
          obtain ⟨-, hsub⟩ | ⟨v, hv, hall⟩ := ih
          · exact .inr ⟨u, hsub u (Term.mem_vars_var.mpr rfl), fun w hw => .single ⟨_, hu, hw⟩⟩
          · exact .inr ⟨v, hv, fun w hw => (hall u (Term.mem_vars_var.mpr rfl)).tail ⟨_, hu, hw⟩⟩

theorem Acyclic.not_leads_self (hs : s.Acyclic) (t : Term) : ¬ Relation.TransGen s.Leads t t := by
  intro h
  obtain ⟨hlt, -⟩ | ⟨v, hv, hall⟩ := leads_path h
  · exact Nat.lt_irrefl _ hlt
  · exact hs v (hall v hv)

/-- How many terms of the set lead to `t`. Each further call has more of them. -/
noncomputable def height (s : Substitution) (U : Finset Term) (t : Term) : Nat :=
  (ancestors s.Leads U t).card

theorem height_le : s.height U t ≤ U.card := Finset.card_le_card ancestors_subset

theorem Acyclic.height_lt (hs : s.Acyclic) (ht : t ∈ U) (h : s.Leads t u) :
    s.height U t < s.height U u :=
  card_ancestors_lt ht h (hs.not_leads_self t)

theorem Extends.height_le (hext : s'.Extends s) : s.height U t ≤ s'.height U t :=
  card_ancestors_mono fun _ _ h => h.extends hext

end Substitution

section Equations

variable {s : Substitution} {v : String} {x y : Term}

theorem unifyWithin_self (d : Nat) (x : Term) (s : Substitution) :
    unifyWithin (d + 1) x x s = some s := by
  unfold unifyWithin
  exact if_pos rfl

theorem unifyWithin_left (h : .var v ≠ y) (d : Nat) :
    unifyWithin (d + 1) (.var v) y s = unifyVariableBy (unifyWithin d) v y s := by
  rw [unifyWithin, if_neg h]

theorem unifyWithin_right (h : ∀ w, x ≠ .var w) (d : Nat) :
    unifyWithin (d + 1) x (.var v) s = unifyVariableBy (unifyWithin d) v x s := by
  rw [unifyWithin, if_neg (h v)]
  exact fun w hw => h w hw

theorem unifyWithin_arguments {f : String} {xs ys : List Term} (h : xs ≠ ys)
    (hlen : xs.length = ys.length) (d : Nat) :
    unifyWithin (d + 1) (.app f xs) (.app f ys) s = unifyLists (unifyWithin d) xs ys s := by
  rw [unifyWithin, if_neg (by simpa using h), if_pos ⟨rfl, hlen⟩]

theorem unifyWithin_clash (h : x.clash y) (d : Nat) :
    unifyWithin (d + 1) x y s = none := by
  cases x with
  | var v => cases h
  | const a =>
      cases y with
      | var v => cases h
      | const b | app g ys => simp_all [unifyWithin, Term.clash]
  | app f xs =>
      cases y with
      | var v => cases h
      | const b => simp [unifyWithin]
      | app g ys =>
          have hne : ¬ (f = g ∧ xs.length = ys.length) := by
            rintro ⟨rfl, hlen⟩
            simp [Term.clash, hlen] at h
          have hdiff : Term.app f xs ≠ .app g ys := by
            rintro ⟨⟩
            exact hne ⟨rfl, rfl⟩
          rw [unifyWithin, if_neg hdiff, if_neg hne]

end Equations

namespace Unifies

open Substitution

variable {s s' : Substitution} {v : String} {t : Term} {A : Term → Prop} {U : Finset Term}
  {unify : Term → Term → Substitution → Option Substitution}

/-- A run binds only what stands in its problem or in its substitution. -/
theorem within {P : Problem} {r : Option Substitution} (h : Unifies P s r)
    (hA : ArgumentClosed A) (hP : P.Within A) (hs : s.Within A) (hr : r = some s') :
    s'.Within A := by
  induction h generalizing s' with
  | same | itself | nil =>
      cases hr
      exact hs
  | clash | cycle | stop => cases hr
  | left _ _ ih => exact ih hP hs hr
  | right _ _ ih => exact ih hP.symm hs hr
  | arguments _ _ _ ih => exact ih ⟨hA _ _ hP.1, hA _ _ hP.2⟩ hs hr
  | bound hv _ ih => exact ih ⟨(hs _ _ hv).2, hP.2⟩ hs hr
  | @bind v t s hv _ _ =>
      cases hr
      intro w u hw
      by_cases hne : w = v
      · subst hne
        rw [OrderedMap.get?_insert_self] at hw
        cases hw
        exact hP
      · rw [OrderedMap.get?_insert_of_ne _ _ hne] at hw
        exact hs w u hw
  | cons _ _ ihx ihxs =>
      have hx := ihx ⟨hP.1 _ (.head _), hP.2 _ (.head _)⟩ hs rfl
      exact ihxs ⟨fun a ha => hP.1 a (.tail _ ha), fun a ha => hP.2 a (.tail _ ha)⟩ hx hr

/-- Unifying lists makes a run if unifying their members does, under every
substitution that the members before them may leave. -/
theorem of_unifyLists (hA : ArgumentClosed A) (xs ys : List Term) (hlen : xs.length = ys.length)
    (hs : s.Acyclic) (hsA : s.Within A) (hP : (Problem.equateAll xs ys).Within A)
    (hrun : ∀ x ∈ xs, ∀ y ∈ ys, ∀ s', s'.Acyclic → s'.Extends s → s'.Within A →
      Unifies (.equate x y) s' (unify x y s')) :
    Unifies (.equateAll xs ys) s (unifyLists unify xs ys s) := by
  induction xs generalizing ys s with
  | nil =>
      cases List.length_eq_zero_iff.mp hlen.symm
      exact .nil s
  | cons x xs ih =>
      cases ys with
      | nil => cases hlen
      | cons y ys =>
          have hxy := hrun x (.head _) y (.head _) s hs (.refl s) hsA
          rw [unifyLists]
          cases hr : unify x y s with
          | none =>
              rw [hr] at hxy
              exact .stop hxy
          | some s₁ =>
              rw [hr] at hxy
              obtain ⟨hs₁, hext, -⟩ := hxy.solved hs
              have hA₁ := hxy.within hA ⟨hP.1 x (.head _), hP.2 y (.head _)⟩ hsA rfl
              refine .cons hxy (ih ys (Nat.succ.inj hlen) hs₁ hA₁ ?_ ?_)
              · exact ⟨fun a ha => hP.1 a (.tail _ ha), fun a ha => hP.2 a (.tail _ ha)⟩
              · intro a ha b hb s₂ hs₂ hext₂ hA₂
                exact hrun a (.tail _ ha) b (.tail _ hb) s₂ hs₂ (hext₂.trans hext) hA₂

theorem of_unifyVariableBy
    (hrun : ∀ b, s.get? v = some b → Unifies (.equate b t) s (unify b t s)) :
    Unifies (.assign v t) s (unifyVariableBy unify v t s) := by
  rw [unifyVariableBy]
  cases hv : s.get? v with
  | some b => exact .bound hv (hrun b hv)
  | none =>
      by_cases hself : s.walk t = .var v
      · simp only [hself, if_true]
        exact .itself hv hself
      · by_cases hoccurs : (s.walk t).isCompound ∧ s.occurs v (s.walk t)
        · simp only [hself, if_false, hoccurs.1, hoccurs.2, Bool.and_self, if_true]
          exact .cycle hv hoccurs.1 hoccurs.2
        · have hfalse : ((s.walk t).isCompound && s.occurs v (s.walk t)) = false := by
            rw [Bool.eq_false_iff, ne_eq, Bool.and_eq_true]
            exact hoccurs
          simp only [hself, if_false, hfalse, Bool.false_eq_true]
          exact .bind hv hself hoccurs

/-- The invariant of the nested calls: the depth left, with the terms that lead to
the two sides, exceeds twice the set that all terms are taken from. -/
theorem of_unifyWithin (hU : ArgumentClosed (· ∈ U)) (d : Nat) (x y : Term) (s : Substitution)
    (hs : s.Acyclic) (hsU : s.Within (· ∈ U)) (hx : x ∈ U) (hy : y ∈ U)
    (hd : 2 * U.card < d + s.height U x + s.height U y) :
    Unifies (.equate x y) s (unifyWithin d x y s) := by
  induction d generalizing x y s with
  | zero =>
      have hle := height_le (s := s) (U := U) (t := x)
      have hle' := height_le (s := s) (U := U) (t := y)
      omega
  | succ d ih =>
      by_cases heq : x = y
      · subst heq
        rw [unifyWithin_self]
        exact .same x s
      have hbinding : ∀ {v b u}, .var v ∈ U → u ∈ U → s.get? v = some b →
          2 * U.card < d + 1 + s.height U (.var v) + s.height U u →
            Unifies (.equate b u) s (unifyWithin d b u s) := by
        intro v b u hv hu hb hd
        have hlt := hs.height_lt hv (.binding hb)
        exact ih b u s hs hsU (hsU v b hb).2 hu (by omega)
      by_cases hclash : x.clash y
      · rw [unifyWithin_clash hclash]
        exact .clash hclash
      cases x with
      | var v =>
          rw [unifyWithin_left heq]
          exact .left heq (of_unifyVariableBy fun b hb => hbinding hx hy hb hd)
      | const a =>
          cases y with
          | var v =>
              rw [unifyWithin_right (by simp)]
              exact .right (by simp) (of_unifyVariableBy fun b hb => hbinding hy hx hb (by omega))
          | const b | app g ys => simp_all [Term.clash]
      | app f xs =>
          cases y with
          | var v =>
              rw [unifyWithin_right (by simp)]
              exact .right (by simp) (of_unifyVariableBy fun b hb => hbinding hy hx hb (by omega))
          | const b => simp [Term.clash] at hclash
          | app g ys =>
              obtain ⟨rfl, hlen⟩ : f = g ∧ xs.length = ys.length := by
                simpa [Term.clash] using hclash
              have hargs : xs ≠ ys := fun he => heq (he ▸ rfl)
              rw [unifyWithin_arguments hargs hlen]
              refine .arguments hargs hlen (of_unifyLists hU xs ys hlen hs hsU
                ⟨hU _ _ hx, hU _ _ hy⟩ ?_)
              intro a ha b hb s' hs' hext hsU'
              refine ih a b s' hs' hsU' (hU _ _ hx a ha) (hU _ _ hy b hb) ?_
              have hxa := hs.height_lt hx (.argument ha)
              have hyb := hs.height_lt hy (.argument hb)
              have hgrow := hext.height_le (U := U) (t := a)
              have hgrow' := hext.height_le (U := U) (t := b)
              omega

end Unifies

/-- The terms that unifying `x` and `y` may meet. -/
def meetable (x y : Term) (s : Substitution) : List Term :=
  x.parts ++ y.parts ++ s.entries.flatMap fun e => .var e.1 :: e.2.parts

theorem length_meetable (x y : Term) (s : Substitution) :
    (meetable x y s).length = x.size + y.size + s.weight := by
  have hentries : ∀ entries : List (String × Term),
      (entries.flatMap fun e => Term.var e.1 :: e.2.parts).length =
        entries.foldr (fun e n => e.2.size + 1 + n) 0 := by
    intro entries
    induction entries with
    | nil => rfl
    | cons e entries ih =>
        rw [List.flatMap_cons, List.length_append, List.length_cons, Term.length_parts, ih,
          List.foldr_cons]
  simp only [meetable, List.length_append, Term.length_parts, hentries, Substitution.weight]

theorem argumentClosed_meetable (x y : Term) (s : Substitution) :
    ArgumentClosed (· ∈ (meetable x y s).toFinset) := by
  intro f args h a ha
  simp only [meetable, List.mem_toFinset, List.mem_append, List.mem_flatMap, List.mem_cons,
    reduceCtorEq, false_or] at h ⊢
  obtain (h | h) | ⟨e, he, h⟩ := h
  · exact .inl (.inl (Term.mem_parts_of_mem_args h ha))
  · exact .inl (.inr (Term.mem_parts_of_mem_args h ha))
  · exact .inr ⟨e, he, .inr (Term.mem_parts_of_mem_args h ha)⟩

theorem within_meetable (x y : Term) (s : Substitution) :
    s.Within (· ∈ (meetable x y s).toFinset) := by
  intro v t hv
  have he := OrderedMap.mem_entries_of_get? hv
  simp only [meetable, List.mem_toFinset, List.mem_append, List.mem_flatMap, List.mem_cons]
  exact ⟨.inr ⟨(v, t), he, .inl rfl⟩, .inr ⟨(v, t), he, .inr (Term.mem_parts_self t)⟩⟩

namespace Substitution.Acyclic

variable {s : Substitution}

/-- On an acyclic substitution unification does not meet its bound. -/
theorem unifies_unify (hs : s.Acyclic) (x y : Term) : Unifies (.equate x y) s (unify x y s) := by
  have hx : x ∈ (meetable x y s).toFinset := by
    simp [meetable, Term.mem_parts_self]
  have hy : y ∈ (meetable x y s).toFinset := by
    simp [meetable, Term.mem_parts_self]
  refine Unifies.of_unifyWithin (argumentClosed_meetable x y s) _ x y s hs
    (within_meetable x y s) hx hy ?_
  have hcard : (meetable x y s).toFinset.card ≤ x.size + y.size + s.weight :=
    (List.toFinset_card_le _).trans (Nat.le_of_eq (length_meetable x y s))
  have hdepth : x.size + y.size + s.weight + 2 ≤
      (x.size + y.size + s.weight + 2) * (x.size + y.size + s.weight + 2) *
        (x.size + y.size + s.weight + 2) := by
    rw [Nat.mul_assoc]
    exact Nat.le_mul_of_pos_right _ (Nat.mul_pos (Nat.succ_pos _) (Nat.succ_pos _))
  rw [unifyDepth, Nat.mul_assoc 2, Nat.mul_assoc 2]
  omega

theorem unifies_unifyVariable (hs : s.Acyclic) (v : String) (t : Term) :
    Unifies (.assign v t) s (unifyVariable v t s) :=
  .of_unifyVariableBy fun b _ => hs.unifies_unify b t

theorem unifies_unifyLists (hs : s.Acyclic) (xs ys : List Term) (hlen : xs.length = ys.length) :
    Unifies (.equateAll xs ys) s (unifyLists unify xs ys s) := by
  have hall : ArgumentClosed fun _ => True := fun _ _ _ _ _ => trivial
  exact .of_unifyLists hall xs ys hlen hs (fun _ _ _ => ⟨trivial, trivial⟩)
    ⟨fun _ _ => trivial, fun _ _ => trivial⟩
    fun x _ y _ s' hs' _ _ => hs'.unifies_unify x y

end Substitution.Acyclic
end Defeasible
