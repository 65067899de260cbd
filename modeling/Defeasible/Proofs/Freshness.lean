import Mathlib.Data.List.TakeWhile
import Defeasible.Renaming
import Defeasible.Proofs.MostGeneral

/-!
Fresh names. A fresh name determines its generation and the name it was made from,
so the names of one generation occur in nothing that is older. It is longer than the
name it was made from, so a renaming never leads back to a variable. A rule whose names
have no hash sign is renamed variable by variable, and an assignment can give the
variables of a new generation any values without changing what it makes of older
terms.
-/

namespace Defeasible

theorem hash_not_mem_toString (generation : Nat) : '#' ∉ (toString generation).toList := by
  intro h
  rw [Nat.toString_eq_repr, Nat.toList_repr] at h
  have hdigit := Nat.isDigit_of_mem_toDigits (by decide) (by decide) h
  revert hdigit
  decide

theorem toString_nat_inj {j k : Nat} (h : toString j = toString k) : j = k := by
  have hvalue := congrArg (fun digits => Nat.ofDigitChars 10 digits.toList 0) h
  simpa only [Nat.toString_eq_repr, Nat.toList_repr, Nat.ofDigitChars_ten_toDigits] using hvalue

theorem toList_freshName (generation : Nat) (v : String) :
    (freshName generation v).toList = v.toList ++ '#' :: (toString generation).toList := by
  simp [freshName]

theorem eq_nil_of_hash_cons_eq {b d between : List Char} (hb : '#' ∉ b)
    (h : '#' :: b = between ++ '#' :: d) : between = [] ∧ b = d := by
  cases between with
  | nil => exact ⟨rfl, (List.cons.inj h).2⟩
  | cons x between =>
      have htail := (List.cons.inj h).2
      exact absurd (htail ▸ List.mem_append_right _ (.head _)) hb

theorem append_hash_inj {a b c d : List Char} (hb : '#' ∉ b) (hd : '#' ∉ d)
    (h : a ++ '#' :: b = c ++ '#' :: d) : a = c ∧ b = d := by
  obtain ⟨between, rfl, htail⟩ | ⟨between, rfl, htail⟩ := List.append_eq_append_iff.mp h
  · obtain ⟨rfl, rfl⟩ := eq_nil_of_hash_cons_eq hb htail
    exact ⟨(List.append_nil a).symm, rfl⟩
  · obtain ⟨rfl, rfl⟩ := eq_nil_of_hash_cons_eq hd htail
    exact ⟨List.append_nil c, rfl⟩

/-- The last hash sign separates the name from the generation. -/
theorem freshName_inj {j k : Nat} {u v : String} (h : freshName j u = freshName k v) :
    j = k ∧ u = v := by
  have hlist := congrArg String.toList h
  rw [toList_freshName, toList_freshName] at hlist
  obtain ⟨hname, hgeneration⟩ :=
    append_hash_inj (hash_not_mem_toString j) (hash_not_mem_toString k) hlist
  exact ⟨toString_nat_inj (String.toList_inj.mp hgeneration), String.toList_inj.mp hname⟩

/-- The name has no hash sign, as every name that a text can give. -/
def Plain (v : String) : Prop := '#' ∉ v.toList

theorem not_plain_freshName (generation : Nat) (v : String) : ¬ Plain (freshName generation v) := by
  intro h
  rw [Plain, toList_freshName] at h
  exact h (List.mem_append_right _ (.head _))

def Predicate.Plain (p : Predicate) : Prop := ∀ v ∈ p.vars, Defeasible.Plain v

def Rule.Plain (r : Rule) : Prop := r.premise.Plain ∧ r.conclusion.Plain

theorem Predicate.plain_of_isGround {p : Predicate} (h : p.isGround = true) : p.Plain :=
  fun v hv => absurd hv (isGround_iff.mp h v)

instance (v : String) : Decidable (Plain v) := inferInstanceAs (Decidable ('#' ∉ v.toList))

instance (p : Predicate) : Decidable p.Plain :=
  inferInstanceAs (Decidable (∀ v ∈ p.vars, Plain v))

instance (r : Rule) : Decidable r.Plain :=
  inferInstanceAs (Decidable (r.premise.Plain ∧ r.conclusion.Plain))

/-- The name is from none of the generations after the given one. -/
def Older (generation : Nat) (v : String) : Prop := ∀ k u, generation < k → freshName k u ≠ v

section Older

variable {g k : Nat} {v : String}

theorem Older.mono (h : Older g v) (hk : g ≤ k) : Older k v :=
  fun j u hj => h j u (Nat.lt_of_le_of_lt hk hj)

theorem Plain.older (h : Plain v) (g : Nat) : Older g v := by
  rintro j u - rfl
  exact not_plain_freshName j u h

theorem older_freshName (g : Nat) (v : String) : Older g (freshName g v) := by
  intro j u hj h
  have heq := (freshName_inj h).1
  omega

end Older

/-- The variables of some predicates. -/
def allVars (ps : List Predicate) : List String := ps.flatMap Predicate.vars

section Renaming

variable {r : Rule} {p : Predicate} {ps : List Predicate} {g : Nat} {v w : String}

theorem mem_allVars (hp : p ∈ ps) (hv : v ∈ p.vars) : v ∈ allVars ps :=
  List.mem_flatMap.mpr ⟨p, hp, hv⟩

theorem get?_freshNames (g : Nat) (ps : List Predicate) (v : String) :
    (freshNames g ps).get? v = if v ∈ allVars ps then some (.var (freshName g v)) else none :=
  OrderedMap.get?_ofList_map _ _ _

theorem freshNames_of_mem (hv : v ∈ allVars ps) :
    (freshNames g ps).get? v = some (.var (freshName g v)) := by
  rw [get?_freshNames]
  exact if_pos hv

theorem freshNames_of_not_mem (hv : v ∉ allVars ps) : (freshNames g ps).get? v = none := by
  rw [get?_freshNames]
  exact if_neg hv

theorem binds_freshNames :
    (freshNames g ps).Binds v w ↔ v ∈ allVars ps ∧ w = freshName g v := by
  constructor
  · rintro ⟨t, ht, hw⟩
    by_cases hv : v ∈ allVars ps
    · rw [freshNames_of_mem hv] at ht
      cases ht
      exact ⟨hv, Term.mem_vars_var.mp hw⟩
    · rw [freshNames_of_not_mem hv] at ht
      cases ht
  · rintro ⟨hv, rfl⟩
    exact ⟨_, freshNames_of_mem hv, Term.mem_vars_var.mpr rfl⟩

theorem length_lt_length_freshName (g : Nat) (v : String) :
    v.toList.length < (freshName g v).toList.length := by
  rw [toList_freshName, List.length_append, List.length_cons]
  omega

theorem length_lt_of_path (h : Relation.TransGen (freshNames g ps).Binds v w) :
    v.toList.length < w.toList.length := by
  induction h with
  | single h =>
      obtain ⟨-, rfl⟩ := binds_freshNames.mp h
      exact length_lt_length_freshName g v
  | tail _ h ih =>
      obtain ⟨-, rfl⟩ := binds_freshNames.mp h
      exact Nat.lt_trans ih (length_lt_length_freshName g _)

theorem acyclic_freshNames (g : Nat) (ps : List Predicate) : (freshNames g ps).Acyclic :=
  fun _ h => Nat.lt_irrefl _ (length_lt_of_path h)

/-- Among plain names no fresh name is renamed again. -/
theorem apply_freshNames (hps : ∀ q ∈ ps, q.Plain) (g : Nat) (hp : p ∈ ps) :
    (freshNames g ps).apply p = p.subst fun v => .var (freshName g v) := by
  rw [Substitution.apply_eq_subst]
  refine Predicate.subst_congr fun v hv => ?_
  have hbound := freshNames_of_mem (g := g) (mem_allVars hp hv)
  have hnew : freshName g v ∉ allVars ps := by
    intro h
    obtain ⟨q, hq, hmem⟩ := List.mem_flatMap.mp h
    exact not_plain_freshName g v (hps q hq _ hmem)
  exact ((acyclic_freshNames g ps).applyTerm_of_bound hbound).trans
    (Substitution.applyTerm_of_unbound (freshNames_of_not_mem hnew))

theorem Rule.Plain.rename (h : r.Plain) (g : Nat) :
    (r.rename g).premise = r.premise.subst (fun v => .var (freshName g v)) ∧
      (r.rename g).conclusion = r.conclusion.subst fun v => .var (freshName g v) := by
  have hps : ∀ q ∈ [r.premise, r.conclusion], q.Plain := by
    intro q hq
    obtain rfl | hq := List.mem_cons.mp hq
    · exact h.1
    · obtain rfl := List.mem_singleton.mp hq
      exact h.2
  exact ⟨apply_freshNames hps g (.head _), apply_freshNames hps g (.tail _ (.head _))⟩

end Renaming

/-- The assignment with the names of one generation given the values of another. -/
noncomputable def withGeneration (θ : String → Term) (g : Nat) (σ : String → Term) (v : String) :
    Term :=
  open Classical in if h : ∃ u, freshName g u = v then σ h.choose else θ v

section WithGeneration

variable {θ σ : String → Term} {g : Nat}

theorem withGeneration_freshName (θ : String → Term) (g : Nat) (σ : String → Term) (v : String) :
    withGeneration θ g σ (freshName g v) = σ v := by
  have h : ∃ u, freshName g u = freshName g v := ⟨v, rfl⟩
  rw [withGeneration, dif_pos h, (freshName_inj h.choose_spec).2]

theorem withGeneration_older {v : String} (hv : Older g v) :
    withGeneration θ (g + 1) σ v = θ v := by
  rw [withGeneration, dif_neg]
  rintro ⟨u, hu⟩
  exact hv (g + 1) u (Nat.lt_succ_self g) hu

end WithGeneration

/-- Every variable of the term is older than the next generation. -/
def Term.Older (g : Nat) (t : Term) : Prop := ∀ v ∈ t.vars, Defeasible.Older g v

theorem argumentClosed_older (g : Nat) : ArgumentClosed (Term.Older g) :=
  fun _ _ h a ha v hv => h v (Term.mem_vars_app.mpr ⟨a, ha, hv⟩)

theorem older_resolve {g : Nat} {s : Substitution} (hs : s.Within (Term.Older g)) (d : Nat)
    {v : String} (hv : Older g v) : (s.resolve d v).Older g := by
  have hvar : ∀ w, Older g w → (Term.var w).Older g := by
    intro w hw u hu
    obtain rfl := Term.mem_vars_var.mp hu
    exact hw
  induction d generalizing v with
  | zero => exact hvar v hv
  | succ d ih =>
      cases hbound : s.get? v with
      | none =>
          rw [Substitution.resolve_of_unbound hbound]
          exact hvar v hv
      | some t =>
          rw [Substitution.resolve_succ_of_bound hbound]
          intro w hw
          obtain ⟨u, hu, hwu⟩ := Term.mem_vars_subst.mp hw
          exact ih ((hs v t hbound).2 u hu) w hwu

theorem older_apply {g : Nat} {s : Substitution} {p : Predicate} (hs : s.Within (Term.Older g))
    (hp : ∀ v ∈ p.vars, Older g v) : ∀ v ∈ (s.apply p).vars, Older g v := by
  intro v hv
  rw [Substitution.apply_eq_subst] at hv
  obtain ⟨u, hu, hvu⟩ := Predicate.mem_vars_subst.mp hv
  exact older_resolve hs _ (hp u hu) v hvu

theorem older_subst_freshName {g : Nat} {p : Predicate} {w : String}
    (hw : w ∈ (p.subst fun v => .var (freshName g v)).vars) : Older g w := by
  obtain ⟨v, -, hv⟩ := Predicate.mem_vars_subst.mp hw
  obtain rfl := Term.mem_vars_var.mp hv
  exact older_freshName g v

theorem Substitution.Within.older_mono {g k : Nat} {s : Substitution}
    (hs : s.Within (Term.Older g)) (hk : g ≤ k) : s.Within (Term.Older k) :=
  fun v t hv =>
    ⟨fun w hw => ((hs v t hv).1 w hw).mono hk, fun w hw => ((hs v t hv).2 w hw).mono hk⟩

/-- Goal and bindings mention no generation after the given one. -/
structure Scoped (g : Nat) (goal : Predicate) (s : Substitution) : Prop where
  goal : ∀ v ∈ goal.vars, Older g v
  bindings : s.Within (Term.Older g)

section Scoped

variable {g k : Nat} {goal : Predicate} {s : Substitution} {θ : String → Term}

theorem Scoped.mono (h : Scoped g goal s) (hk : g ≤ k) : Scoped k goal s where
  goal v hv := (h.goal v hv).mono hk
  bindings := h.bindings.older_mono hk

theorem Predicate.Plain.scoped (h : goal.Plain) (g : Nat) : Scoped g goal ∅ where
  goal v hv := (h v hv).older g
  bindings := nofun

theorem Scoped.subst_withGeneration (h : Scoped g goal s) (θ σ : String → Term) :
    goal.subst (withGeneration θ (g + 1) σ) = goal.subst θ :=
  Predicate.subst_congr fun v hv => withGeneration_older (h.goal v hv)

theorem Scoped.respects_withGeneration (h : Scoped g goal s) (hθ : s.Respects θ)
    (σ : String → Term) : s.Respects (withGeneration θ (g + 1) σ) := by
  intro v t hv
  obtain ⟨hvar, hterm⟩ := h.bindings v t hv
  rw [withGeneration_older (hvar v (Term.mem_vars_var.mpr rfl)), hθ v t hv]
  exact Term.subst_congr fun w hw => (withGeneration_older (hterm w hw)).symm

/-- Whatever values make a rule conclude an instance of the goal, the renamed rule
concludes the same instance under one assignment of both sets of variables, which
changes the value of no older variable. -/
theorem Scoped.lift {r : Rule} {σ : String → Term} (h : Scoped g goal s) (hr : r.Plain)
    (hθ : s.Respects θ) (hmatch : r.conclusion.subst σ = goal.subst θ) :
    ∃ τ, s.Respects τ ∧ (r.rename (g + 1)).conclusion.subst τ = goal.subst τ ∧
      (r.rename (g + 1)).premise.subst τ = r.premise.subst σ ∧ ∀ v, Older g v → τ v = θ v := by
  obtain ⟨hpremise, hconclusion⟩ := hr.rename (g + 1)
  have hfresh : ∀ p : Predicate, (p.subst fun v => .var (freshName (g + 1) v)).subst
      (withGeneration θ (g + 1) σ) = p.subst σ := by
    intro p
    rw [Predicate.subst_subst]
    exact Predicate.subst_congr fun v _ => withGeneration_freshName θ (g + 1) σ v
  refine ⟨withGeneration θ (g + 1) σ, h.respects_withGeneration hθ σ, ?_, ?_, ?_⟩
  · rw [hconclusion, hfresh, hmatch, h.subst_withGeneration]
  · rw [hpremise, hfresh]
  · exact fun v hv => withGeneration_older hv

/-- What is left to prove after the use of a rule is in the scope of its generation. -/
theorem Scoped.chain {r : Rule} {bound : Substitution} (h : Scoped g goal s) (hr : r.Plain)
    (hs : s.Acyclic)
    (hunify : unifyPredicates (r.rename (g + 1)).conclusion goal s = some bound) :
    Scoped (g + 1) (bound.apply (r.rename (g + 1)).premise) bound := by
  obtain ⟨hpremise, hconclusion⟩ := hr.rename (g + 1)
  have hscope := h.mono (Nat.le_succ g)
  have hbound : bound.Within (Term.Older (g + 1)) := by
    refine hs.unifyPredicates_within (argumentClosed_older _) hscope.bindings ?_ ?_ hunify
    · rw [hconclusion]
      exact fun a ha v hv => older_subst_freshName (Predicate.mem_vars_of_mem_args ha hv)
    · exact fun a ha v hv => hscope.goal v (Predicate.mem_vars_of_mem_args ha hv)
  refine ⟨older_apply hbound fun v hv => ?_, hbound⟩
  rw [hpremise] at hv
  exact older_subst_freshName hv

end Scoped
end Defeasible
