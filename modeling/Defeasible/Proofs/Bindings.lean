import Defeasible.Proofs.Termination
import Defeasible.Proofs.Defaults

/-!
The substitutions in answers. What a search proves a goal with is built by unification, so
no variable reaches itself in it. An answer shows what the proof makes of each variable of
the goal, a variable that the proof leaves open being bound to itself. Answers are therefore
safe to follow exactly if the proof leaves no variable of the goal open.
-/

namespace Defeasible

variable {Time : Type}

open Substitution

namespace Search

variable {kb : Snapshot Time} {limits : Limits} {goal : Predicate} {s bound proof : Substitution}
  {st st' : SearchState}

def ReachedResult (result : SearchResult) : Prop := ∀ proof, result = .proved proof → Reached proof

/-- What is proved under a substitution built by unification is built by unification. -/
def ReachingProver (prove : Prover) : Prop :=
  ∀ goal s st, Reached s → ReachedResult (prove goal s st).1

def ReachingSolver (solve : Solver) : Prop :=
  ∀ goal s st, Reached s → ∀ proof ∈ (solve goal s st).1.found, Reached proof

theorem FactRun.reached {facts : List Predicate} {result : SearchResult}
    (hrun : FactRun limits goal s facts st result st') (hs : Reached s) :
    ReachedResult result := by
  induction hrun with
  | nil | limit => exact nofun
  | mismatch _ _ _ ih => exact ih
  | matched _ hunify =>
      intro proof heq
      cases heq
      exact hs.unifyPredicates hunify

theorem RuleRun.reached {prove : Prover} {rules : List Rule} {cutOff : Bool}
    {result : SearchResult} (hrun : RuleRun limits prove goal s rules cutOff st result st')
    (hprove : ReachingProver prove) (hs : Reached s) : ReachedResult result := by
  induction hrun with
  | done | cut | limit => exact nofun
  | mismatch _ _ _ ih | failed _ _ _ _ ih | exhausted _ _ _ _ ih => exact ih
  | @proved rule _ _ st _ bound _ _ hunify hcall =>
      have hpremise : ReachedResult (premiseSearch prove rule bound st).1 :=
        hprove _ _ _ (hs.unifyPredicates hunify)
      rwa [hcall] at hpremise

theorem factsThen_reached {next : Prover} (hnext : ReachingProver next) :
    ReachingProver (factsThen kb limits next) := by
  intro goal s st hs
  obtain ⟨st₁, -, heq⟩ | ⟨result, st', hrun, -, heq⟩ := factsThen_cases kb limits next goal s st
  · rw [heq]
    exact hnext goal s st₁ hs
  · rw [heq]
    exact hrun.reached hs

theorem byRules_reached (kb : Snapshot Time) (limits : Limits) (depth : Nat) :
    ReachingProver (byRules kb limits depth) := by
  induction depth with
  | zero => exact fun _ _ _ _ => nofun
  | succ depth ih =>
      exact fun goal s st hs =>
        (ruleRun_chainRules _ kb.rules false st).reached (factsThen_reached ih) hs

theorem ask_reached (kb : Snapshot Time) (limits : Limits) (depth : Nat) :
    ReachingProver (ask kb limits depth) :=
  factsThen_reached (byRules_reached kb limits depth)

theorem FactCollection.reached {facts : List Predicate} {out : Solutions}
    (hrun : FactCollection limits goal s facts st out st') (hs : Reached s) :
    ∀ proof ∈ out.found, Reached proof := by
  induction hrun with
  | nil | limit => exact List.forall_mem_nil _
  | mismatch _ _ _ ih => exact ih
  | matched _ hunify _ ih => exact List.forall_mem_cons.mpr ⟨hs.unifyPredicates hunify, ih⟩

theorem RuleCollection.reached {solve : Solver} {rules : List Rule} {out : Solutions}
    (hrun : RuleCollection limits solve goal s rules st out st') (hsolve : ReachingSolver solve)
    (hs : Reached s) : ∀ proof ∈ out.found, Reached proof := by
  induction hrun with
  | nil | limit => exact List.forall_mem_nil _
  | mismatch _ _ _ ih => exact ih
  | @solved rule _ st _ _ bound _ _ _ hunify hcall _ ih =>
      have hpremise : ∀ proof ∈ (premiseSolutions solve rule bound st).1.found, Reached proof :=
        hsolve _ _ _ (hs.unifyPredicates hunify)
      rw [hcall] at hpremise
      exact List.forall_mem_append.mpr ⟨hpremise, ih⟩

theorem factsAnd_reached {next : Solver} (hnext : ReachingSolver next) :
    ReachingSolver (factsAnd kb limits next) := by
  intro goal s st hs
  obtain ⟨found, st', hrun, heq⟩ | ⟨found, st₁, hrun, heq⟩ :=
    factsAnd_cases kb limits next goal s st
  · rw [heq]
    exact hrun.reached hs
  · rw [heq]
    exact List.forall_mem_append.mpr ⟨hrun.reached hs, hnext goal s st₁ hs⟩

theorem solveByRules_reached (kb : Snapshot Time) (limits : Limits) (depth : Nat) :
    ReachingSolver (solveByRules kb limits depth) := by
  induction depth with
  | zero => exact fun _ _ _ _ => List.forall_mem_nil _
  | succ depth ih =>
      exact fun goal s st hs =>
        (ruleCollection_chainAll _ kb.rules st).reached (factsAnd_reached ih) hs

theorem solve_reached (kb : Snapshot Time) (limits : Limits) (depth : Nat) :
    ReachingSolver (solve kb limits depth) :=
  factsAnd_reached (solveByRules_reached kb limits depth)

theorem mem_of_firstUnhindered {r renamed : DefaultRule} {proofs : List Substitution}
    {cutOff cutOff' : Bool}
    (h : firstUnhindered kb limits r renamed proofs cutOff st = (some proof, cutOff', st')) :
    proof ∈ proofs := by
  induction proofs generalizing cutOff st with
  | nil => cases h
  | cons first proofs ih =>
      obtain ⟨rfl, -⟩ | ⟨cutOff₁, st₁, -, hrest⟩ := firstUnhindered_cons_some h
      · exact .head _
      · exact .tail _ (ih hrest)

theorem byDefaults_reached {rules : List DefaultRule} {cutOff : Bool}
    (h : byDefaults kb limits goal rules cutOff st = (.proved proof, st')) : Reached proof := by
  induction rules generalizing cutOff st with
  | nil => cases cutOff <;> cases h
  | cons r rules ih =>
      rw [byDefaults_cons] at h
      cases hunify : unifyPredicates (r.rename (st.generation + 1)).conclusion goal ∅ with
      | none =>
          rw [hunify] at h
          exact ih h
      | some bound =>
          simp only [hunify] at h
          cases hchoice : defaultChoice kb limits r bound cutOff st with
          | mk chosen after =>
              simp only [hchoice] at h
              cases chosen with
              | none => exact ih h
              | some proof =>
                  cases h
                  exact solve_reached kb limits _ _ _ _ (Reached.empty.unifyPredicates hunify) _
                    (mem_of_firstUnhindered hchoice)

/-- Every kind of proof is built by unification. -/
theorem run_reached {useDefaults : Bool} {reasoning : Reasoning}
    (h : run kb limits useDefaults goal st = (reasoning, .proved proof, st')) :
    Reached proof := by
  obtain ⟨-, hask⟩ | ⟨-, st₁, hdefaults⟩ := run_proved h
  · exact ask_reached kb limits _ _ _ _ .empty proof (congrArg Prod.fst hask)
  · exact byDefaults_reached hdefaults

end Search

namespace Substitution

variable {s : Substitution} {v : String} {t : Term}

theorem Acyclic.not_self (hs : s.Acyclic) (v : String) : s.get? v ≠ some (.var v) :=
  fun hv => hs v (.single ⟨_, hv, Term.mem_vars_var.mpr rfl⟩)

/-- A variable bound to itself is followed forever. -/
theorem not_walks_of_self (hv : s.get? v = some (.var v)) (u : Term) : ¬ Walks s (.var v) u := by
  intro h
  generalize ht : Term.var v = t at h
  induction h with
  | constant | compound => cases ht
  | unbound hw =>
      cases ht
      cases hv.symm.trans hw
  | bound hw _ ih =>
      cases ht
      cases hv.symm.trans hw
      exact ih rfl

/-- No path of bindings is longer than one if all bound terms are resolved. -/
theorem acyclic_of_resolved
    (h : ∀ v t, s.get? v = some t → ∀ w ∈ t.vars, s.get? w = none) : s.Acyclic := by
  intro v hcycle
  obtain ⟨w, ⟨t, ht, hw⟩, hrest⟩ := Relation.TransGen.head'_iff.mp hcycle
  have hopen := h v t ht w hw
  obtain rfl | ⟨u, ⟨t', ht', -⟩, -⟩ := Relation.ReflTransGen.cases_head hrest
  · cases hopen.symm.trans ht
  · cases hopen.symm.trans ht'

end Substitution

section Answers

variable {goal : Predicate} {proof : Substitution} {v : String} {t : Term}

theorem get?_answerBindings_eq_some :
    (answerBindings goal proof).get? v = some t ↔
      v ∈ goal.vars ∧ proof.applyTerm (.var v) = t := by
  rw [answerBindings, OrderedMap.get?_ofList_map]
  split
  next hv => simp [hv]
  next hv => simp [hv]

/-- A variable in a resolved term is open in the proof. If the answer binds no variable of the
goal to itself, it is no variable of the goal. -/
theorem get?_answerBindings_eq_none (hproof : proof.Acyclic)
    (h : ∀ v ∈ goal.vars, (answerBindings goal proof).get? v ≠ some (.var v)) {w : String}
    (hw : w ∈ (proof.applyTerm t).vars) : (answerBindings goal proof).get? w = none := by
  have hopen := applyTerm_of_unbound (hproof.unbound_of_mem_vars hw)
  cases hbound : (answerBindings goal proof).get? w with
  | none => rfl
  | some t =>
      obtain ⟨hgoal, rfl⟩ := get?_answerBindings_eq_some.mp hbound
      rw [hopen] at hbound
      exact absurd hbound (h w hgoal)

/-- An answer is acyclic exactly if it binds no variable of the goal to itself. -/
theorem acyclic_answerBindings (hproof : proof.Acyclic) : (answerBindings goal proof).Acyclic ↔
    ∀ v ∈ goal.vars, (answerBindings goal proof).get? v ≠ some (.var v) := by
  refine ⟨fun h v _ => h.not_self v, fun h => acyclic_of_resolved fun v t hv w hw => ?_⟩
  obtain ⟨-, rfl⟩ := get?_answerBindings_eq_some.mp hv
  exact get?_answerBindings_eq_none hproof h hw

theorem apply_answerBindings (hproof : proof.Acyclic)
    (h : (answerBindings goal proof).Acyclic) :
    (answerBindings goal proof).apply goal = proof.apply goal := by
  rw [apply_eq_subst, apply_eq_subst]
  refine Predicate.subst_congr fun v hv => ?_
  change (answerBindings goal proof).applyTerm (.var v) = proof.applyTerm (.var v)
  rw [h.applyTerm_of_bound (get?_answerBindings hv proof), applyTerm]
  have hresolved : ∀ w ∈ (proof.applyTerm (.var v)).vars,
      (answerBindings goal proof).resolve (answerBindings goal proof).size w = .var w :=
    fun w hw => resolve_of_unbound
      (get?_answerBindings_eq_none hproof ((acyclic_answerBindings hproof).mp h) hw) _
  rw [Term.subst_congr hresolved, Term.subst_id]

theorem Snapshot.bindings_prove {kb : Snapshot Time} {limits : Limits} {useDefaults : Bool}
    {generation : Nat} {reasoning : Reasoning} {st : SearchState}
    (h : Search.run kb limits useDefaults goal { generation := generation } =
      (reasoning, .proved proof, st)) :
    (kb.prove limits useDefaults generation goal).1.bindings = answerBindings goal proof := by
  simp only [prove, h]

end Answers

namespace Reasoner

/-- The ways to have a goal answered, with whether they try default rules. -/
inductive Answers (r : Reasoner Time) (goal : Predicate) : Bool → Answer → Prop where
  | prove : Answers r goal true (r.prove goal).1
  | proveMonotonic : Answers r goal false (r.proveMonotonic goal).1
  | query : Answers r goal true (r.query (.goal goal)).1

theorem Answers.eq_proveWith {r : Reasoner Time} {goal : Predicate} {useDefaults : Bool}
    {answer : Answer} (h : r.Answers goal useDefaults answer) :
    answer = (r.kb.snapshot.prove r.config.limits useDefaults r.generation goal).1 := by
  cases h <;> rfl

/-- An answer shows the goal as the proof does when each variable is replaced once. It is safe
to follow exactly if it binds no variable of the goal to itself, and then shows the same when
it is followed to the end. -/
theorem bindings_of_proved (r : Reasoner Time) (goal : Predicate) {useDefaults : Bool}
    {answer : Answer} (hanswer : r.Answers goal useDefaults answer)
    (hproved : answer.outcome = .proved) :
    ∃ proof st, Search.run r.kb.snapshot r.config.limits useDefaults goal
        { generation := r.generation } = (answer.reasoning, .proved proof, st) ∧
      proof.Acyclic ∧ goal.subst answer.bindings.once = proof.apply goal ∧
      (answer.bindings.Acyclic ↔ ∀ v ∈ goal.vars, answer.bindings.get? v ≠ some (.var v)) ∧
      (∀ v ∈ goal.vars, answer.bindings.get? v = some (.var v) →
        ∀ t, ¬ Walks answer.bindings (.var v) t) ∧
      (answer.bindings.Acyclic →
        (∀ t, Walks answer.bindings t (answer.bindings.walk t) ∧
          Applies answer.bindings t (answer.bindings.applyTerm t)) ∧
        answer.bindings.apply goal = proof.apply goal) := by
  obtain rfl := hanswer.eq_proveWith
  obtain ⟨proof, st, hrun, honce⟩ := Snapshot.prove_proved hproved
  have hproof := (Search.run_reached hrun).acyclic
  refine ⟨proof, st, hrun, hproof, honce, ?_⟩
  rw [Snapshot.bindings_prove hrun]
  exact ⟨acyclic_answerBindings hproof, fun v _ => not_walks_of_self,
    fun h => ⟨fun t => ⟨h.walks t, h.applies t⟩, apply_answerBindings hproof h⟩⟩

/-- Asked who is mortal, the reasoner names Socrates, and the answer is safe to follow. -/
theorem bindings_of_proved_mortal :
    let r : Reasoner Nat := List.foldl serve {} [
      .addRule ⟨⟨"Human", [.var "x"]⟩, ⟨"Mortal", [.var "x"]⟩⟩,
      .addFact ⟨"Human", [.const "Socrates"]⟩]
    let goal : Predicate := ⟨"Mortal", [.var "who"]⟩
    let answer := (r.query (.goal goal)).1
    answer.outcome = .proved ∧ answer.bindings.Acyclic ∧
      Walks answer.bindings (.var "who") (.const "Socrates") ∧
      answer.bindings.apply goal = ⟨"Mortal", [.const "Socrates"]⟩ := by
  intro r goal answer
  have hproved : answer.outcome = .proved := by decide +kernel
  have hwho : answer.bindings.get? "who" = some (.const "Socrates") := by decide +kernel
  obtain ⟨proof, st, -, -, -, hsafe, -, hfollow⟩ := bindings_of_proved r goal .query hproved
  have hacyclic : answer.bindings.Acyclic := by
    refine hsafe.mpr fun v hv => ?_
    have hvars : goal.vars = ["who"] := by decide +kernel
    rw [hvars, List.mem_singleton] at hv
    subst hv
    rw [hwho]
    decide
  refine ⟨hproved, hacyclic, ?_, by decide +kernel⟩
  have hwalk : answer.bindings.walk (.var "who") = .const "Socrates" := by decide +kernel
  exact hwalk ▸ ((hfollow hacyclic).1 (.var "who")).1

/-- The rule leaves the second argument open, and the answer binds it to itself. -/
theorem bindings_of_open_variable :
    let r : Reasoner Nat := List.foldl serve {} [
      .addRule ⟨⟨"Human", [.var "x"]⟩, ⟨"Knows", [.var "x", .var "y"]⟩⟩,
      .addFact ⟨"Human", [.const "Socrates"]⟩]
    let answer := (r.proveMonotonic ⟨"Knows", [.const "Socrates", .var "z"]⟩).1
    answer.outcome = .proved ∧ ¬ answer.bindings.Acyclic ∧
      ∀ t, ¬ Walks answer.bindings (.var "z") t := by
  intro r answer
  have hself : answer.bindings.get? "z" = some (.var "z") := by decide +kernel
  exact ⟨by decide +kernel, fun h => h.not_self "z" hself, not_walks_of_self hself⟩

end Reasoner

end Defeasible
