import Mathlib.Data.Set.Function
import Mathlib.Logic.Relation
import Defeasible.Proofs.Freshness

/-!
Copies of rules. A variable of a rule is bound to its fresh name, and bindings are
followed: where the fresh name is a variable of the rule too, it is replaced in turn. So
every variable ends at a fresh name that the rule does not have, and two variables end at
the same name exactly if one of them is reached from the other by taking fresh names. A
copy is a variant of the rule exactly if no variable stands beside its own fresh name.

The generation is the last part of every name in a copy. Copies that one renamer makes
therefore share no variable, whatever the names in the rules are.
-/

namespace Defeasible

/-- The second predicates are the first with their variables replaced one to one by
variables that the first do not have. -/
def IsVariant (ps qs : List Predicate) : Prop :=
  ∃ ρ : String → String, Set.InjOn ρ {v | v ∈ allVars ps} ∧ (∀ v ∈ allVars ps, ρ v ∉ allVars ps) ∧
    qs = ps.map (Predicate.subst fun v => .var (ρ v))

/-- Taking fresh names leads from the first variable to the second, through variables
of the predicates. -/
def Leads (g : Nat) (ps : List Predicate) : String → String → Prop :=
  Relation.ReflTransGen fun v w => v ∈ allVars ps ∧ w = freshName g v

section Renaming

variable {g : Nat} {ps : List Predicate} {p : Predicate} {u v w : String}

theorem applyTerm_freshNames (hv : v ∈ allVars ps) :
    (freshNames g ps).applyTerm (.var v) = (freshNames g ps).applyTerm (.var (freshName g v)) :=
  (acyclic_freshNames g ps).applyTerm_of_bound (freshNames_of_mem hv)

theorem Leads.applyTerm (h : Leads g ps u v) :
    (freshNames g ps).applyTerm (.var u) = (freshNames g ps).applyTerm (.var v) := by
  induction h with
  | refl => rfl
  | tail _ h ih =>
      obtain ⟨hmem, rfl⟩ := h
      rw [ih, applyTerm_freshNames hmem]

/-- Every variable ends at a fresh name that is none of the variables. -/
theorem exists_lastName (g : Nat) (hv : v ∈ allVars ps) :
    ∃ w, freshName g w ∉ allVars ps ∧ Leads g ps v (freshName g w) := by
  induction v using (acyclic_freshNames g ps).induction with
  | step v ih =>
      have hstep : Leads g ps v (freshName g v) := .single ⟨hv, rfl⟩
      by_cases hnext : freshName g v ∈ allVars ps
      · obtain ⟨w, hw, hleads⟩ := ih _ (binds_freshNames.mpr ⟨hv, rfl⟩) hnext
        exact ⟨w, hw, hstep.trans hleads⟩
      · exact ⟨v, hnext, hstep⟩

theorem applyTerm_of_leads (hleads : Leads g ps v w) (hw : w ∉ allVars ps) :
    (freshNames g ps).applyTerm (.var v) = .var w := by
  rw [hleads.applyTerm, Substitution.applyTerm_of_unbound (freshNames_of_not_mem hw)]

/-- Two variables end at the same name only if one of them leads to the other: a fresh name
is the fresh name of one variable. -/
theorem leads_or_leads (hu : Leads g ps u w) (hv : Leads g ps v w) :
    Leads g ps u v ∨ Leads g ps v u := by
  have hunique : Relator.RightUnique
      (Function.swap fun v w => v ∈ allVars ps ∧ w = freshName g v) := by
    rintro a b c ⟨-, rfl⟩ ⟨-, h⟩
    exact (freshName_inj h).2
  obtain h | h := Relation.ReflTransGen.total_of_right_unique hunique
    (Relation.reflTransGen_swap.mpr hu) (Relation.reflTransGen_swap.mpr hv)
  · exact .inr (Relation.reflTransGen_swap.mp h)
  · exact .inl (Relation.reflTransGen_swap.mp h)

/-- A copy replaces variables by variables, always by new ones, and makes two of them one
exactly if one leads to the other. -/
theorem exists_renaming (g : Nat) (ps : List Predicate) :
    ∃ ρ : String → String,
      ps.map (freshNames g ps).apply = ps.map (Predicate.subst fun v => .var (ρ v)) ∧
      (∀ v ∈ allVars ps, ρ v ∉ allVars ps ∧ ∃ w, ρ v = freshName g w) ∧
      ∀ u ∈ allVars ps, ∀ v ∈ allVars ps, ρ u = ρ v ↔ Leads g ps u v ∨ Leads g ps v u := by
  have hlast : ∀ v, ∃ w, v ∈ allVars ps →
      w ∉ allVars ps ∧ (∃ u, w = freshName g u) ∧ Leads g ps v w := by
    intro v
    by_cases hv : v ∈ allVars ps
    · obtain ⟨u, hu, hleads⟩ := exists_lastName g hv
      exact ⟨_, fun _ => ⟨hu, ⟨u, rfl⟩, hleads⟩⟩
    · exact ⟨v, fun h => absurd h hv⟩
  choose ρ hρ using hlast
  have hend : ∀ v ∈ allVars ps, (freshNames g ps).applyTerm (.var v) = .var (ρ v) :=
    fun v hv => applyTerm_of_leads (hρ v hv).2.2 (hρ v hv).1
  refine ⟨ρ, List.map_congr_left fun p hp => ?_, fun v hv => ⟨(hρ v hv).1, (hρ v hv).2.1⟩, ?_⟩
  · rw [Substitution.apply_eq_subst]
    exact Predicate.subst_congr fun v hv => hend v (mem_allVars hp hv)
  · intro u hu v hv
    constructor
    · intro h
      exact leads_or_leads (hρ u hu).2.2 (h ▸ (hρ v hv).2.2)
    · intro h
      have hsame : (freshNames g ps).applyTerm (.var u) = (freshNames g ps).applyTerm (.var v) :=
        h.elim Leads.applyTerm fun h => h.applyTerm.symm
      rw [hend u hu, hend v hv] at hsame
      exact Term.var.inj hsame

/-- Where no variable stands beside its own fresh name, none leads to another. -/
theorem Leads.eq (hfree : ∀ v ∈ allVars ps, freshName g v ∉ allVars ps) (hv : v ∈ allVars ps)
    (h : Leads g ps u v) : u = v := by
  cases h with
  | refl => rfl
  | tail _ h =>
      obtain ⟨hmem, rfl⟩ := h
      exact absurd hv (hfree _ hmem)

theorem isVariant_apply_freshNames_iff (g : Nat) (ps : List Predicate) :
    IsVariant ps (ps.map (freshNames g ps).apply) ↔
      ∀ v ∈ allVars ps, freshName g v ∉ allVars ps := by
  obtain ⟨ρ, hcopy, hnew, hsame⟩ := exists_renaming g ps
  constructor
  · rintro ⟨ρ', hinj, -, hcopy'⟩ v hv hfresh
    have heq : ∀ w ∈ allVars ps, ρ w = ρ' w := by
      intro w hw
      obtain ⟨p, hp, hwp⟩ := List.mem_flatMap.mp hw
      have hp' := List.map_inj_left.mp (hcopy.symm.trans hcopy') p hp
      exact Term.var.inj (Predicate.eq_of_subst_eq hp' w hwp)
    have hmerged : ρ v = ρ (freshName g v) :=
      (hsame v hv _ hfresh).mpr (.inl (.single ⟨hv, rfl⟩))
    rw [heq v hv, heq _ hfresh] at hmerged
    have hlt := length_lt_length_freshName g v
    rw [← hinj hv hfresh hmerged] at hlt
    exact Nat.lt_irrefl _ hlt
  · intro hfree
    refine ⟨ρ, fun u hu v hv h => ?_, fun v hv => (hnew v hv).1, hcopy⟩
    obtain h | h := (hsame u hu v hv).mp h
    · exact h.eq hfree hv
    · exact (h.eq hfree hu).symm

/-- Every variable of a copy carries the generation of the copy. -/
theorem exists_freshName_of_mem_copy (h : v ∈ allVars (ps.map (freshNames g ps).apply)) :
    ∃ w, v = freshName g w := by
  obtain ⟨ρ, hcopy, hnew, -⟩ := exists_renaming g ps
  rw [hcopy] at h
  obtain ⟨q, hq, hv⟩ := List.mem_flatMap.mp h
  obtain ⟨p, hp, rfl⟩ := List.mem_map.mp hq
  obtain ⟨u, hu, hv⟩ := Predicate.mem_vars_subst.mp hv
  obtain rfl := Term.mem_vars_var.mp hv
  exact (hnew u (mem_allVars hp hu)).2

end Renaming

/-- The parts of a rule in which its variables occur. -/
def Rule.parts (r : Rule) : List Predicate := [r.premise, r.conclusion]

def DefaultRule.parts (r : DefaultRule) : List Predicate := [r.premise, r.conclusion]

theorem Rule.parts_rename (g : Nat) (r : Rule) :
    (r.rename g).parts = r.parts.map (freshNames g r.parts).apply := rfl

theorem DefaultRule.parts_rename (g : Nat) (r : DefaultRule) :
    (r.rename g).parts = r.parts.map (freshNames g r.parts).apply := rfl

/-- A rule of either kind is copied to a variant of itself exactly if it has no variable
together with the fresh name of that variable. The priority is kept always. -/
theorem rename_isVariant_iff (g : Nat) :
    (∀ r : Rule, IsVariant r.parts (r.rename g).parts ↔
      ∀ v ∈ allVars r.parts, freshName g v ∉ allVars r.parts) ∧
    ∀ r : DefaultRule, (r.rename g).priority = r.priority ∧
      (IsVariant r.parts (r.rename g).parts ↔
        ∀ v ∈ allVars r.parts, freshName g v ∉ allVars r.parts) := by
  refine ⟨fun r => ?_, fun r => ⟨rfl, ?_⟩⟩
  · rw [r.parts_rename]
    exact isVariant_apply_freshNames_iff g r.parts
  · rw [r.parts_rename]
    exact isVariant_apply_freshNames_iff g r.parts

/-- Beside its own fresh name, a variable becomes one with another variable. -/
theorem rename_merges_variables :
    let r : Rule := ⟨⟨"P", [.var "x", .var "x#1"]⟩, ⟨"Q", [.var "x", .var "x#1"]⟩⟩
    r.rename 1 = ⟨⟨"P", [.var "x#1#1", .var "x#1#1"]⟩, ⟨"Q", [.var "x#1#1", .var "x#1#1"]⟩⟩ ∧
      ¬ IsVariant r.parts (r.rename 1).parts := by
  intro r
  refine ⟨by decide, fun h => ?_⟩
  rw [r.parts_rename, isVariant_apply_freshNames_iff] at h
  exact h "x" (by decide) (by decide)

/-- A rule of either kind. -/
inductive AnyRule where
  | strict (rule : Rule)
  | normal (rule : DefaultRule)
deriving DecidableEq

namespace AnyRule

def parts : AnyRule → List Predicate
  | strict r => r.parts
  | normal r => r.parts

def rename (generation : Nat) : AnyRule → AnyRule
  | strict r => strict (r.rename generation)
  | normal r => normal (r.rename generation)

/-- The copies of the rules that are made one after the other when the given number of
generations has been handed out before. -/
def copies : (issued : Nat) → List AnyRule → List AnyRule
  | _, [] => []
  | issued, r :: rs => r.rename (issued + 1) :: copies (issued + 1) rs

variable {g issued : Nat} {r c : AnyRule} {rs : List AnyRule} {v : String}

theorem exists_freshName_of_mem_rename (h : v ∈ allVars (r.rename g).parts) :
    ∃ w, v = freshName g w := by
  cases r with
  | strict r | normal r =>
      have hcopy : v ∈ allVars (r.parts.map (freshNames g r.parts).apply) := h
      exact exists_freshName_of_mem_copy hcopy

/-- Each copy has a generation of its own, handed out after the start. -/
theorem exists_freshName_of_mem_copies (hc : c ∈ copies issued rs) :
    ∃ k, issued < k ∧ ∀ v ∈ allVars c.parts, ∃ w, v = freshName k w := by
  induction rs generalizing issued with
  | nil => cases hc
  | cons r rs ih =>
      obtain rfl | hc := List.mem_cons.mp hc
      · exact ⟨issued + 1, Nat.lt_succ_self _, fun v hv => exists_freshName_of_mem_rename hv⟩
      · obtain ⟨k, hk, hnames⟩ := ih hc
        exact ⟨k, Nat.lt_of_succ_lt hk, hnames⟩

theorem pairwise_disjoint_copies (issued : Nat) (rs : List AnyRule) :
    (copies issued rs).Pairwise fun c d => List.Disjoint (allVars c.parts) (allVars d.parts) := by
  induction rs generalizing issued with
  | nil => exact .nil
  | cons r rs ih =>
      refine .cons (fun d hd v hv hd' => ?_) (ih (issued + 1))
      obtain ⟨k, hk, hnames⟩ := exists_freshName_of_mem_copies hd
      obtain ⟨u, rfl⟩ := exists_freshName_of_mem_rename hv
      obtain ⟨w, hw⟩ := hnames _ hd'
      exact Nat.ne_of_lt hk (freshName_inj hw).1

theorem getElem?_copies (issued i : Nat) (rs : List AnyRule) :
    (copies issued rs)[i]? = rs[i]?.map (rename (issued + i + 1)) := by
  induction rs generalizing issued i with
  | nil => rfl
  | cons r rs ih =>
      cases i with
      | zero => rfl
      | succ i =>
          rw [copies, List.getElem?_cons_succ, List.getElem?_cons_succ, ih,
            Nat.add_right_comm issued, Nat.add_assoc issued]

theorem disjoint_of_plain (hr : ∀ v ∈ allVars r.parts, Plain v) (hc : c ∈ copies issued rs) :
    List.Disjoint (allVars r.parts) (allVars c.parts) := by
  intro v hv hcopy
  obtain ⟨k, -, hnames⟩ := exists_freshName_of_mem_copies hc
  obtain ⟨w, rfl⟩ := hnames v hcopy
  exact not_plain_freshName k w (hr _ hv)

/-- One renamer gives each call a copy that shares no variable with the copy of another call,
nor with any rule whose names have no hash sign. -/
theorem copies_apart (issued : Nat) (rs : List AnyRule) :
    (∀ i, (copies issued rs)[i]? = rs[i]?.map (rename (issued + i + 1))) ∧
    (copies issued rs).Pairwise (fun c d => List.Disjoint (allVars c.parts) (allVars d.parts)) ∧
    ∀ r : AnyRule, (∀ v ∈ allVars r.parts, Plain v) →
      ∀ c ∈ copies issued rs, List.Disjoint (allVars r.parts) (allVars c.parts) :=
  ⟨fun i => getElem?_copies issued i rs, pairwise_disjoint_copies issued rs,
    fun _ hr _ hc => disjoint_of_plain hr hc⟩

/-- Names that look like those of the generations handed out, in two uses of one rule. -/
theorem copies_apart_lookalikes :
    let r : AnyRule := .strict ⟨⟨"P", [.var "x", .var "x#8"]⟩, ⟨"Q", [.var "x#9"]⟩⟩
    let d : AnyRule := .normal ⟨⟨"Bird", [.var "x"]⟩, ⟨"Flies", [.var "x"]⟩, .full⟩
    let first : AnyRule := .strict ⟨⟨"P", [.var "x#8#8", .var "x#8#8"]⟩, ⟨"Q", [.var "x#9#8"]⟩⟩
    let second : AnyRule := .strict ⟨⟨"P", [.var "x#9#9", .var "x#8#9"]⟩, ⟨"Q", [.var "x#9#9"]⟩⟩
    copies 7 [r, r, d] = [first, second, d.rename 10] ∧
      List.Disjoint (allVars first.parts) (allVars second.parts) ∧
      (∀ v ∈ allVars d.parts, Plain v) ∧ List.Disjoint (allVars d.parts) (allVars first.parts) := by
  intro r d first second
  have hcopies : copies 7 [r, r, d] = [first, second, d.rename 10] := by decide
  have hplain : ∀ v ∈ allVars d.parts, Plain v := by decide
  obtain ⟨-, hapart, hold⟩ := copies_apart 7 [r, r, d]
  rw [hcopies] at hapart hold
  exact ⟨hcopies, (List.pairwise_cons.mp hapart).1 second (.head _), hplain,
    hold d hplain first (.head _)⟩

end AnyRule
end Defeasible
