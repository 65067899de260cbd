import Mathlib.Data.Set.Function
import Defeasible.Proofs.Shift

/-!
Answers do not depend on what was asked before. Earlier questions leave two traces in a
reasoner: generations that are used up, and facts noted as derived. No search reads the
notes, and a search from another generation differs only in the names it makes. So a list
of questions gets the same answers in every order and from every generation, and leaves the
same notes.
-/

namespace Defeasible

variable {Time : Type}

namespace Answer

variable {a a' : Answer}

/-- The plain names, and those that the bindings mention. -/
def names (a : Answer) : Set String :=
  {w | Plain w ∨ ∃ v t, a.bindings.get? v = some t ∧ w ∈ t.vars}

/-- The answers are equal up to an exchange of the generated names in the bindings. No plain
name takes part in the exchange, and no two names become one. -/
def Agrees (a a' : Answer) : Prop :=
  ∃ ρ : String → String, (∀ v, Plain v → ρ v = v) ∧ a.names.InjOn ρ ∧ a.Follows ρ a'

theorem Agrees.refl (a : Answer) : a.Agrees a := by
  have hid : Term.mapNames id = id := funext fun t => Term.mapNames_of_fixed fun _ _ => rfl
  refine ⟨id, fun _ _ => rfl, Set.injOn_id _, rfl, rfl, rfl, rfl, fun v => ?_⟩
  rw [hid, Option.map_id, id]

theorem Follows.names_subset {ρ : String → String} (hplain : ∀ v, Plain v → ρ v = v)
    (h : a.Follows ρ a') : a'.names ⊆ ρ '' a.names := by
  rintro w (hw | ⟨v, t, ht, hw⟩)
  · exact ⟨w, .inl hw, hplain w hw⟩
  · rw [h.bindings] at ht
    obtain ⟨u, hu, rfl⟩ := Option.map_eq_some_iff.mp ht
    obtain ⟨x, hx, rfl⟩ := Term.mem_vars_mapNames.mp hw
    exact ⟨x, .inr ⟨v, u, hu, hx⟩, rfl⟩

theorem Agrees.symm (h : a.Agrees a') : a'.Agrees a := by
  obtain ⟨ρ, hplain, hinj, hfollows⟩ := h
  have hback : Set.LeftInvOn (Function.invFunOn ρ a.names) ρ a.names := hinj.leftInvOn_invFunOn
  refine ⟨Function.invFunOn ρ a.names, fun v hv => ?_, ?_, hfollows.outcome.symm,
    hfollows.reasoning.symm, hfollows.derived.symm, hfollows.steps.symm, fun v => ?_⟩
  · have hself := hback (.inl hv)
    rwa [hplain v hv] at hself
  · exact hback.rightInvOn_image.injOn.mono (hfollows.names_subset hplain)
  · rw [hfollows.bindings, Option.map_map]
    cases ht : a.bindings.get? v with
    | none => rfl
    | some t =>
        refine congrArg some (Eq.symm ?_)
        rw [Function.comp_apply, Term.mapNames_mapNames]
        exact Term.mapNames_of_fixed fun w hw => hback (.inr ⟨v, t, ht, hw⟩)

end Answer

namespace Snapshot

variable {kb : Snapshot Time}

theorem Plain.withDerived (h : kb.Plain) (derived : List Predicate) :
    ({ kb with derived } : Snapshot Time).Plain :=
  ⟨h.facts, h.rules, h.defaultRules, h.exceptions⟩

theorem prove_agrees_of_le (hkb : kb.Plain) (derived : List Predicate) (limits : Limits)
    (useDefaults : Bool) {generation generation' : Nat} (hle : generation ≤ generation')
    {goal : Predicate} (hgoal : goal.Plain) :
    (kb.prove limits useDefaults generation goal).1.Agrees
      (prove { kb with derived } limits useDefaults generation' goal).1 := by
  obtain ⟨d, rfl⟩ := Nat.exists_eq_add_of_le hle
  obtain ⟨ρ, hρ⟩ := exists_shift generation d
  exact ⟨ρ, hρ.plain, hρ.injective.injOn, prove_shift hρ hkb derived limits useDefaults hgoal⟩

theorem prove_agrees (hkb : kb.Plain) (derived : List Predicate) (limits : Limits)
    (useDefaults : Bool) (generation generation' : Nat) {goal : Predicate} (hgoal : goal.Plain) :
    (kb.prove limits useDefaults generation goal).1.Agrees
      (prove { kb with derived } limits useDefaults generation' goal).1 := by
  obtain hle | hle := Nat.le_total generation generation'
  · exact prove_agrees_of_le hkb derived limits useDefaults hle hgoal
  · exact (prove_agrees_of_le (hkb.withDerived derived) kb.derived limits useDefaults hle
      hgoal).symm

end Snapshot

namespace KnowledgeBase

theorem mem_derived_recordOne {kb : KnowledgeBase Time} {p q : Predicate} :
    q ∈ (kb.recordOne p).2.derived.toList ↔
      q ∈ kb.derived.toList ∨ q = p ∧ q.isGround = true := by
  have hinsert : q ∈ OrderedSet.toList (kb.derived.insert p ()) ↔ q = p ∨ q ∈ kb.derived.toList :=
    OrderedMap.mem_keys_insert
  rw [recordOne]
  split
  next h =>
    rw [Bool.and_eq_true] at h
    rw [hinsert, or_comm, and_iff_left_of_imp]
    rintro rfl
    exact h.1
  next h =>
    refine (or_iff_left_of_imp ?_).symm
    rintro ⟨rfl, hground⟩
    rw [hground, Bool.true_and, Bool.not_eq_true', Bool.not_eq_false] at h
    exact OrderedMap.mem_keys_iff.mpr (Option.isSome_iff_exists.mp h)

theorem mem_derived_recordDerived {kb : KnowledgeBase Time} {ps : List Predicate} {q : Predicate} :
    q ∈ (kb.recordDerived ps).2.derived.toList ↔
      q ∈ kb.derived.toList ∨ q ∈ ps ∧ q.isGround = true := by
  induction ps generalizing kb with
  | nil => simp [recordDerived]
  | cons p ps ih =>
      have hstep : q ∈ (kb.recordDerived (p :: ps)).2.derived.toList ↔
          q ∈ (kb.recordOne p).2.derived.toList ∨ q ∈ ps ∧ q.isGround = true := ih
      rw [hstep, mem_derived_recordOne, List.mem_cons, or_and_right, or_assoc]

end KnowledgeBase

/-- What can be asked of a reasoner. -/
inductive Question where
  | prove (goal : Predicate)
  | proveMonotonic (goal : Predicate)
  | time (query : TimeQuery)
deriving DecidableEq

/-- The goal, if there is one, has no generated variable. -/
def Question.Plain : Question → Prop
  | .prove goal | .proveMonotonic goal => goal.Plain
  | .time _ => True

instance (q : Question) : Decidable q.Plain :=
  match q with
  | .prove goal | .proveMonotonic goal => inferInstanceAs (Decidable goal.Plain)
  | .time _ => inferInstanceAs (Decidable True)

namespace Reasoner

variable {r r' r'' : Reasoner Time} {q : Question} {qs : List Question}

def answer (r : Reasoner Time) : Question → Answer × Reasoner Time
  | .prove goal => r.prove goal
  | .proveMonotonic goal => r.proveMonotonic goal
  | .time query => r.query (.time query)

/-- Answers the questions one after the other. -/
def answerAll (r : Reasoner Time) : List Question → List (Question × Answer) × Reasoner Time
  | [] => ([], r)
  | q :: qs =>
      let (answer, r) := r.answer q
      let (answers, r) := r.answerAll qs
      ((q, answer) :: answers, r)

/-- The reasoners differ at most in the facts they noted as derived, in the generation and in
the past. -/
def Alike (r r' : Reasoner Time) : Prop :=
  r'.config = r.config ∧ ∃ derived, r'.kb = { r.kb with derived }

theorem Alike.refl (r : Reasoner Time) : r.Alike r := ⟨rfl, _, rfl⟩

theorem Alike.symm (h : r.Alike r') : r'.Alike r := by
  obtain ⟨hconfig, derived, hkb⟩ := h
  exact ⟨hconfig.symm, r.kb.derived, by rw [hkb]⟩

theorem Alike.trans (h : r.Alike r') (h' : r'.Alike r'') : r.Alike r'' := by
  obtain ⟨hconfig, derived, hkb⟩ := h
  obtain ⟨hconfig', derived', hkb'⟩ := h'
  exact ⟨hconfig'.trans hconfig, derived', by rw [hkb', hkb]⟩

theorem Alike.kb_eq (h : r.Alike r') (h' : r.Alike r'')
    (hderived : r'.kb.derived = r''.kb.derived) : r'.kb = r''.kb := by
  obtain ⟨-, derived, hkb⟩ := h
  obtain ⟨-, derived', hkb'⟩ := h'
  rw [hkb, hkb'] at hderived ⊢
  exact congrArg (fun derived => { r.kb with derived }) hderived

theorem alike_answer (r : Reasoner Time) (q : Question) : r.Alike (r.answer q).2 := by
  cases q with
  | prove | proveMonotonic => exact ⟨rfl, r.kb.recordDerived_eq _⟩
  | time => exact .refl r

theorem answer_agrees (hkb : r.kb.snapshot.Plain) (hq : q.Plain) (h : r.Alike r') :
    (r.answer q).1.Agrees (r'.answer q).1 := by
  obtain ⟨hconfig, derived, hkb'⟩ := h
  have hgoal : ∀ (useDefaults : Bool) (goal : Predicate), goal.Plain →
      (r.proveWith useDefaults goal).1.Agrees (r'.proveWith useDefaults goal).1 := by
    intro useDefaults goal hgoal
    rw [proveWith, proveWith, hconfig, hkb']
    exact Snapshot.prove_agrees hkb derived.toList _ _ _ _ hgoal
  cases q with
  | prove goal => exact hgoal true goal hq
  | proveMonotonic goal => exact hgoal false goal hq
  | time query =>
      have hsame : (r'.answer (.time query)).1 = (r.answer (.time query)).1 := by
        simp only [answer, Reasoner.query, hkb']
        rfl
      exact hsame ▸ .refl _

theorem mem_derived_answer {p : Predicate} : p ∈ (r.answer q).2.kb.derived.toList ↔
    p ∈ r.kb.derived.toList ∨ p ∈ (r.answer q).1.derived.toList ∧ p.isGround = true := by
  cases q with
  | prove | proveMonotonic => exact KnowledgeBase.mem_derived_recordDerived
  | time query =>
      have hnone : (r.kb.snapshot.decideTime query).derived = ∅ := by
        rw [Snapshot.decideTime]
        split <;> rfl
      refine (or_iff_left ?_).symm
      rintro ⟨hp, -⟩
      cases hnone ▸ hp

theorem map_fst_answerAll (r : Reasoner Time) (qs : List Question) :
    (r.answerAll qs).1.map Prod.fst = qs := by
  induction qs generalizing r with
  | nil => rfl
  | cons q qs ih => exact congrArg (q :: ·) (ih _)

theorem alike_answerAll (r : Reasoner Time) (qs : List Question) : r.Alike (r.answerAll qs).2 := by
  induction qs generalizing r with
  | nil => exact .refl r
  | cons q qs ih => exact (r.alike_answer q).trans (ih _)

/-- Each answer is one that the reasoner gives at the start, but for its past. -/
theorem alike_of_mem_answerAll {a : Answer} (h : (q, a) ∈ (r.answerAll qs).1) :
    ∃ r', r.Alike r' ∧ (r'.answer q).1 = a := by
  induction qs generalizing r with
  | nil => cases h
  | cons first qs ih =>
      obtain h | h := List.mem_cons.mp h
      · cases h
        exact ⟨r, .refl r, rfl⟩
      · obtain ⟨r', halike, hanswer⟩ := ih h
        exact ⟨r', (r.alike_answer first).trans halike, hanswer⟩

theorem mem_derived_answerAll {p : Predicate} : p ∈ (r.answerAll qs).2.kb.derived.toList ↔
    p ∈ r.kb.derived.toList ∨
      ∃ x ∈ (r.answerAll qs).1, p ∈ x.2.derived.toList ∧ p.isGround = true := by
  induction qs generalizing r with
  | nil => simp [answerAll]
  | cons q qs ih =>
      have hstep : p ∈ (r.answerAll (q :: qs)).2.kb.derived.toList ↔
          p ∈ (r.answer q).2.kb.derived.toList ∨
            ∃ x ∈ ((r.answer q).2.answerAll qs).1, p ∈ x.2.derived.toList ∧ p.isGround = true := ih
      rw [hstep, mem_derived_answer, or_assoc]
      simp [answerAll]

theorem mem_of_mem_answerAll {a : Answer} (h : (q, a) ∈ (r.answerAll qs).1) : q ∈ qs := by
  rw [← r.map_fst_answerAll qs]
  exact List.mem_map_of_mem h

variable {qs' : List Question}

theorem answerAll_agree (hkb : r.kb.snapshot.Plain) (hr' : r.Alike r') (hr'' : r.Alike r'')
    (hq : q.Plain) {a a' : Answer} (ha : (q, a) ∈ (r'.answerAll qs).1)
    (ha' : (q, a') ∈ (r''.answerAll qs').1) : a.Agrees a' := by
  obtain ⟨r₁, h₁, rfl⟩ := alike_of_mem_answerAll ha
  obtain ⟨r₂, h₂, rfl⟩ := alike_of_mem_answerAll ha'
  have hplain : r₁.kb.snapshot.Plain := by
    obtain ⟨-, derived, hsame⟩ := hr'.trans h₁
    rw [hsame]
    exact hkb.withDerived derived.toList
  exact answer_agrees hplain hq ((hr'.trans h₁).symm.trans (hr''.trans h₂))

theorem derived_answerAll_subset (hkb : r.kb.snapshot.Plain) (hr' : r.Alike r')
    (hr'' : r.Alike r'') (hderived : r'.kb.derived = r''.kb.derived) (hqs : ∀ q ∈ qs, q.Plain)
    (hsubset : qs ⊆ qs') :
    (r'.answerAll qs).2.kb.derived.toList ⊆ (r''.answerAll qs').2.kb.derived.toList := by
  intro p hp
  rw [mem_derived_answerAll] at hp ⊢
  rw [← hderived]
  refine hp.imp_right ?_
  rintro ⟨⟨q, a⟩, ha, hp, hground⟩
  have hq : q ∈ (r''.answerAll qs').1.map Prod.fst := by
    rw [map_fst_answerAll]
    exact hsubset (mem_of_mem_answerAll ha)
  obtain ⟨⟨q, a'⟩, ha', rfl⟩ := List.mem_map.mp hq
  obtain ⟨ρ, -, -, hfollows⟩ :=
    answerAll_agree hkb hr' hr'' (hqs q (mem_of_mem_answerAll ha)) ha ha'
  exact ⟨(q, a'), ha', hfollows.derived.symm ▸ hp, hground⟩

/-- Questions without generated variables, asked in any order and from any generation, get
answers that are the same up to the names generated for them, and leave the same knowledge
base. -/
theorem answerAll_independent (r : Reasoner Time) (hr : r.kb.Reachable)
    (hrules : ∀ rule ∈ r.kb.rules, rule.Plain)
    (hdefaults : ∀ rule ∈ r.kb.defaultRules, rule.Plain)
    (hexceptions : ∀ e ∈ r.kb.exceptions, e.excluded.Plain) {qs qs' : List Question}
    (hperm : qs.Perm qs') (hqs : ∀ q ∈ qs, q.Plain) (generation generation' : Nat) :
    let out := { r with generation := generation }.answerAll qs
    let out' := { r with generation := generation' }.answerAll qs'
    out.1.map Prod.fst = qs ∧ out'.1.map Prod.fst = qs' ∧
      (∀ q a a', (q, a) ∈ out.1 → (q, a') ∈ out'.1 → a.Agrees a') ∧ out.2.kb = out'.2.kb := by
  intro out out'
  have hkb : r.kb.snapshot.Plain := ⟨hr.placed.factsGround, hrules, hdefaults, hexceptions⟩
  have hstart : r.Alike { r with generation := generation } := ⟨rfl, _, rfl⟩
  have hstart' : r.Alike { r with generation := generation' } := ⟨rfl, _, rfl⟩
  refine ⟨map_fst_answerAll _ qs, map_fst_answerAll _ qs', fun q a a' ha ha' => ?_, ?_⟩
  · exact answerAll_agree hkb hstart hstart' (hqs q (mem_of_mem_answerAll ha)) ha ha'
  · have hqs' : ∀ q ∈ qs', q.Plain := fun q hq => hqs q (hperm.mem_iff.mpr hq)
    have hsubset := derived_answerAll_subset hkb hstart hstart' rfl hqs hperm.subset
    have hsubset' := derived_answerAll_subset hkb hstart' hstart rfl hqs' hperm.symm.subset
    have halike := hstart.trans (alike_answerAll _ qs)
    have halike' := hstart'.trans (alike_answerAll _ qs')
    exact halike.kb_eq halike' (OrderedSet.ext_mem fun p => ⟨@hsubset p, @hsubset' p⟩)

/-- An heir stays open, and bears a name of a later generation in the second run. -/
theorem answerAll_independent_on_heirs :
    let busy : DefaultRule := ⟨⟨"Wrote", [.var "x", .var "y"]⟩, ⟨"Busy", [.var "x"]⟩, .full⟩
    let memo : Predicate := ⟨"Wrote", [.const "Ann", .const "Memo"]⟩
    let poem : Predicate := ⟨"Wrote", [.const "Bob", .const "Poem"]⟩
    let r : Reasoner Nat := [.addFact memo, .addFact poem, .addFact (.happensAt memo 3),
      .addFact (.happensAt poem 5), .addDefaultRule busy, .addException ⟨busy, memo⟩,
      .addRule ⟨⟨"Wrote", [.var "x", .var "y"]⟩, ⟨"Owns", [.app "heir" [.var "z"], .var "y"]⟩⟩
      ].foldl serve {}
    let qs : List Question := [.proveMonotonic ⟨"Owns", [.var "x", .var "y"]⟩,
      .prove ⟨"Busy", [.var "x"]⟩, .time ⟨.before, memo, poem⟩]
    let out := { r with generation := 0 }.answerAll qs
    let out' := { r with generation := 7 }.answerAll qs.reverse
    out.1.map (fun x => x.2.bindings.get? "x") =
        [some (.app "heir" [.var "z#1"]), some (.const "Bob"), none] ∧
      out'.1.map (fun x => x.2.bindings.get? "x") =
        [none, some (.const "Bob"), some (.app "heir" [.var "z#13"])] ∧
      (∀ q a a', (q, a) ∈ out.1 → (q, a') ∈ out'.1 → a.Agrees a') ∧ out.2.kb = out'.2.kb := by
  intro busy memo poem r qs out out'
  have hr : r.kb.Reachable := KnowledgeBase.Reachable.empty.foldl_serve _
  obtain ⟨-, -, hagree, hkb⟩ := r.answerAll_independent hr (by decide +kernel) (by decide +kernel)
    (by decide +kernel) qs.reverse_perm.symm (by decide +kernel) 0 7
  refine ⟨by decide +kernel, by decide +kernel, hagree, ?_⟩
  -- unfolded first, since a comparison through the names would run the questions
  unfold out out'
  exact hkb

end Reasoner

end Defeasible
