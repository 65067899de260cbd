import Defeasible.Timeline
import Defeasible.Proofs.Upkeep
import Defeasible.Proofs.Consistency
import Defeasible.Proofs.Bindings

/-!
Asking when an event happened. The time of an event is looked up among the timed facts by
unifying the event alone; a goal with an open time is proved by unifying the whole fact. Both
scans stop at the same fact, because a stored timed fact pairs a ground event with a constant
that reads as a time, and the open time of the goal takes that constant whatever the event is
unified with.
-/

namespace Defeasible

variable {Time : Type}

open Substitution KnowledgeBase

namespace Predicate

/-- The goal that asks at which time `t` the event happens. -/
def happensWhen (event : Predicate) (t : String) : Predicate :=
  ⟨timedName, [event.toTerm, .var t]⟩

@[simp] theorem isTimed_happensWhen (event : Predicate) (t : String) :
    (event.happensWhen t).isTimed = true := by
  simp [happensWhen, isTimed]

theorem mem_vars_happensWhen (event : Predicate) (t : String) :
    t ∈ (event.happensWhen t).vars :=
  mem_vars_of_mem_args (.tail _ (.head _)) (Term.mem_vars_var.mpr rfl)

/-- An instance of the goal is the timed fact if the event and the time both agree. -/
theorem subst_eq_subst_happensWhen {event pattern : Predicate} {t time : String}
    {θ : String → Term} :
    (⟨timedName, [event.toTerm, .const time]⟩ : Predicate).subst θ =
        (pattern.happensWhen t).subst θ ↔
      event.subst θ = pattern.subst θ ∧ θ t = .const time := by
  change (⟨timedName, [(event.subst θ).toTerm, .const time]⟩ : Predicate) =
    ⟨timedName, [(pattern.subst θ).toTerm, θ t]⟩ ↔ _
  simp only [mk.injEq, List.cons.injEq, toTerm_inj, true_and, and_true]
  exact and_congr_right fun _ => eq_comm

end Predicate

theorem unifyPredicates_eq_none_iff {p q : Predicate} :
    unifyPredicates p q ∅ = none ↔ ∀ θ, p.subst θ ≠ q.subst θ := by
  constructor
  · exact fun h θ => acyclic_empty.unifyPredicates_none h (respects_empty θ)
  · intro hapart
    cases hunify : unifyPredicates p q ∅ with
    | none => rfl
    | some proof =>
        obtain ⟨hproof, -, hresp⟩ := acyclic_empty.unifyPredicates_some hunify
        exact absurd ((hresp _).mp hproof.respects_resolve).2 (hapart _)

section Match

variable {event pattern : Predicate} {t time : String}

/-- The open time of the goal does not stand in the way: it is nowhere else in the goal. -/
theorem unify_happensWhen_eq_none (hevent : event.isGround = true) (ht : t ∉ pattern.vars) :
    unifyPredicates ⟨timedName, [event.toTerm, .const time]⟩ (pattern.happensWhen t) ∅ = none ↔
      unifyPredicates event pattern ∅ = none := by
  rw [unifyPredicates_eq_none_iff, unifyPredicates_eq_none_iff]
  constructor
  · intro hapart θ hmatch
    refine hapart (Function.update θ t (.const time)) ?_
    have hpattern : pattern.subst (Function.update θ t (.const time)) = pattern.subst θ :=
      Predicate.subst_congr fun v hv => Function.update_of_ne (ne_of_mem_of_not_mem hv ht) _ _
    rw [Predicate.subst_eq_subst_happensWhen, hpattern, ← hmatch,
      Predicate.subst_of_isGround hevent, Predicate.subst_of_isGround hevent]
    exact ⟨rfl, Function.update_self ..⟩
  · exact fun hapart θ hmatch => hapart θ (Predicate.subst_eq_subst_happensWhen.mp hmatch).1

theorem applyTerm_of_unify_happensWhen {proof : Substitution}
    (h : unifyPredicates ⟨timedName, [event.toTerm, .const time]⟩ (pattern.happensWhen t) ∅ =
      some proof) : proof.applyTerm (.var t) = .const time := by
  obtain ⟨hproof, -, hresp⟩ := acyclic_empty.unifyPredicates_some h
  exact (Predicate.subst_eq_subst_happensWhen.mp ((hresp _).mp hproof.respects_resolve).2).2

end Match

theorem timestampOf_cons {event pattern : Predicate} {time : String} {n : Int}
    (htime : wordOfText? time = some n) (timed : List Predicate) :
    timestampOf (⟨timedName, [event.toTerm, .const time]⟩ :: timed) pattern =
      if unifyPredicates event pattern ∅ = none then timestampOf timed pattern else some n := by
  cases hunify : unifyPredicates event pattern ∅ with
  | none => simp [timestampOf, Predicate.toTerm, hunify]
  | some proof => simp [timestampOf, Predicate.toTerm, hunify, htime]

theorem ground_event {event : Predicate} {time : String}
    (hvalid : validateFact ⟨timedName, [event.toTerm, .const time]⟩ = .ok ()) :
    event.isGround = true := by
  have hground : (event.isGround && (true && true)) = true := isGround_of_validateFact hvalid
  simpa using hground

namespace Search

/-- What a scan of the timed facts finds for the goal when the lookup gives the time. -/
def Finds (t : String) : Option Int → SearchResult → Prop
  | none, result => result = .failed
  | some n, result => ∃ proof time, result = .proved proof ∧
      proof.applyTerm (.var t) = .const time ∧ wordOfText? time = some n

/-- With a step for every fact the two scans go through the facts side by side. -/
theorem matchFacts_finds {limits : Limits} {pattern : Predicate} {t : String}
    (ht : t ∉ pattern.vars) (timed : List Predicate)
    (htimed : ∀ p ∈ timed, validateFact p = .ok () ∧ p.isTimed = true) (st : SearchState)
    (hroom : st.steps + timed.length ≤ limits.maxSteps) :
    Finds t (timestampOf timed pattern)
      (matchFacts limits (pattern.happensWhen t) ∅ timed st).1 := by
  induction timed generalizing st with
  | nil => rfl
  | cons fact timed ih =>
      rw [List.length_cons] at hroom
      obtain ⟨hfact, hrest⟩ := List.forall_mem_cons.mp htimed
      obtain ⟨f, args, time, n, rfl, htime⟩ := timed_shape hfact.1 hfact.2
      change Finds t (timestampOf
        (⟨timedName, [(Predicate.mk f args).toTerm, .const time]⟩ :: timed) pattern) _
      have hevent : (Predicate.mk f args).isGround = true := ground_event hfact.1
      rw [timestampOf_cons htime, matchFacts, SearchState.tick?_of_lt (by omega)]
      cases hunify : unifyPredicates ⟨timedName, [.app f args, .const time]⟩
          (pattern.happensWhen t) ∅ with
      | none =>
          rw [if_pos ((unify_happensWhen_eq_none hevent ht).mp hunify)]
          refine ih hrest st.tried ?_
          change st.steps + 1 + timed.length ≤ limits.maxSteps
          omega
      | some proof =>
          have hmatch : unifyPredicates (Predicate.mk f args) pattern ∅ ≠ none := by
            intro hnone
            rw [← unify_happensWhen_eq_none hevent ht, Predicate.toTerm, hunify] at hnone
            cases hnone
          rw [if_neg hmatch]
          have hbound : proof.applyTerm (.var t) = .const time :=
            @applyTerm_of_unify_happensWhen ⟨f, args⟩ _ _ _ _ hunify
          exact ⟨proof, time, rfl, hbound, htime⟩

end Search

/-- A fact proves the goal, and the answer binds the variable to a constant that reads as the
time. -/
def Answer.Dates (answer : Answer) (t : String) (n : Int) : Prop :=
  answer.ProvedBy .fact ∧
    ∃ time, answer.bindings.get? t = some (.const time) ∧ wordOfText? time = some n

theorem Answer.Dates.unique {answer : Answer} {t : String} {m n : Int} (h : answer.Dates t m)
    (h' : answer.Dates t n) : m = n := by
  obtain ⟨-, time, htime, hm⟩ := h
  obtain ⟨-, time', htime', hn⟩ := h'
  cases htime.symm.trans htime'
  exact Option.some.inj (hm.symm.trans hn)

namespace Snapshot

variable {kb : Snapshot Time} {limits : Limits} {useDefaults : Bool} {generation : Nat}
  {goal : Predicate} {st : SearchState}

theorem prove_of_matched {proof : Substitution}
    (h : Search.matchFacts limits goal ∅ (Search.candidates kb goal) { generation := generation } =
      (.proved proof, st)) :
    (kb.prove limits useDefaults generation goal).1.ProvedBy .fact ∧
      (kb.prove limits useDefaults generation goal).1.bindings = answerBindings goal proof := by
  simp only [prove, Search.run, h, and_true]
  exact ⟨rfl, rfl⟩

theorem not_provedBy_fact
    (h : Search.matchFacts limits goal ∅ (Search.candidates kb goal) { generation := generation } =
      (.failed, st)) : ¬ (kb.prove limits false generation goal).1.ProvedBy .fact := by
  simp only [prove, Search.run, h]
  cases Search.byRules kb limits limits.maxDepth goal ∅ st with
  | mk result st' =>
      rintro ⟨-, hreasoning⟩
      cases result <;> cases hreasoning

end Snapshot

namespace Reasoner

variable {r : Reasoner Time} {event : Predicate} {t : String}

/-- The answer without defaults shows what the lookup gives. -/
theorem proveMonotonic_happensWhen (hr : r.kb.Placed)
    (hroom : r.kb.timed.length ≤ r.config.limits.maxSteps) (ht : t ∉ event.vars) :
    match timestampOf r.kb.timed event with
    | none => ¬ (r.proveMonotonic (event.happensWhen t)).1.ProvedBy .fact
    | some n => (r.proveMonotonic (event.happensWhen t)).1.Dates t n := by
  have hcandidates : Search.candidates r.kb.snapshot (event.happensWhen t) = r.kb.timed :=
    if_pos (Predicate.isTimed_happensWhen event t)
  have hfinds : Search.Finds t (timestampOf r.kb.timed event)
      (Search.matchFacts r.config.limits (event.happensWhen t) ∅ r.kb.timed
        { generation := r.generation }).1 :=
    Search.matchFacts_finds ht r.kb.timed hr.timed _ (by simpa using hroom)
  rw [← hcandidates] at hfinds
  cases hfacts : Search.matchFacts r.config.limits (event.happensWhen t) ∅
      (Search.candidates r.kb.snapshot (event.happensWhen t)) { generation := r.generation } with
  | mk result st =>
      rw [hfacts, hcandidates] at hfinds
      cases hlookup : timestampOf r.kb.timed event with
      | none =>
          rw [hlookup] at hfinds
          obtain rfl : result = .failed := hfinds
          exact Snapshot.not_provedBy_fact hfacts
      | some n =>
          rw [hlookup] at hfinds
          obtain ⟨proof, time, rfl, hbound, htime⟩ := hfinds
          have hget : (answerBindings (event.happensWhen t) proof).get? t = some (.const time) :=
            get?_answerBindings_eq_some.mpr ⟨Predicate.mem_vars_happensWhen event t, hbound⟩
          obtain ⟨hproved, hbindings⟩ := Snapshot.prove_of_matched hfacts
          exact ⟨hproved, time, hbindings ▸ hget, htime⟩

theorem timestampOf_eq_some_iff (hr : r.kb.Placed)
    (hroom : r.kb.timed.length ≤ r.config.limits.maxSteps) (ht : t ∉ event.vars) {n : Int} :
    timestampOf r.kb.timed event = some n ↔
      (r.proveMonotonic (event.happensWhen t)).1.Dates t n := by
  have hanswer := proveMonotonic_happensWhen hr hroom ht
  cases hlookup : timestampOf r.kb.timed event with
  | none =>
      rw [hlookup] at hanswer
      exact iff_of_false nofun fun hdates => hanswer hdates.1
  | some m =>
      rw [hlookup] at hanswer
      rw [Option.some.injEq]
      exact ⟨fun heq => heq ▸ hanswer, hanswer.unique⟩

theorem exists_timestampOf_iff (hr : r.kb.Placed)
    (hroom : r.kb.timed.length ≤ r.config.limits.maxSteps) (ht : t ∉ event.vars) :
    (∃ n, timestampOf r.kb.timed event = some n) ↔
      (r.proveMonotonic (event.happensWhen t)).1.ProvedBy .fact := by
  have hanswer := proveMonotonic_happensWhen hr hroom ht
  cases hlookup : timestampOf r.kb.timed event with
  | none =>
      rw [hlookup] at hanswer
      exact iff_of_false nofun hanswer
  | some n =>
      rw [hlookup] at hanswer
      exact iff_of_true ⟨n, rfl⟩ hanswer.1

/-- A question about time is answered by the two lookups. -/
theorem query_time_proved (r : Reasoner Time) (q : TimeQuery) :
    (r.query (.time q)).1.outcome = .proved ↔
      ∃ m n, timestampOf r.kb.timed q.first = some m ∧ timestampOf r.kb.timed q.second = some n ∧
        q.order.holds m n = true := by
  have hholds : (r.query (.time q)).1.outcome = .proved ↔ q.holds r.kb.timed = true := by
    change (r.kb.snapshot.decideTime q).outcome = .proved ↔ q.holds r.kb.snapshot.timed = true
    rw [Snapshot.decideTime]
    split
    next h => exact iff_of_true rfl h
    next h => exact iff_of_false nofun h
  rw [hholds, TimeQuery.holds]
  cases timestampOf r.kb.timed q.first <;> cases timestampOf r.kb.timed q.second <;> simp

/-- With at least as many steps as timed facts, looking up when an event happened and proving
the goal that asks for it come to the same. Questions about the order of two events compare
what the two goals are answered with. -/
theorem timestampOf_iff_proveMonotonic (r : Reasoner Time) (hr : r.kb.Reachable)
    (hroom : r.kb.timed.length ≤ r.config.limits.maxSteps) :
    (∀ event t, t ∉ event.vars →
      ((∃ n, timestampOf r.kb.timed event = some n) ↔
        (r.proveMonotonic (event.happensWhen t)).1.ProvedBy .fact) ∧
      ∀ n, timestampOf r.kb.timed event = some n ↔
        (r.proveMonotonic (event.happensWhen t)).1.Dates t n) ∧
    ∀ a b t u, t ∉ a.vars → u ∉ b.vars →
      ((r.query (.time ⟨.before, a, b⟩)).1.outcome = .proved ↔
        ∃ m n, (r.proveMonotonic (a.happensWhen t)).1.Dates t m ∧
          (r.proveMonotonic (b.happensWhen u)).1.Dates u n ∧ m < n) ∧
      ((r.query (.time ⟨.after, a, b⟩)).1.outcome = .proved ↔
        ∃ m n, (r.proveMonotonic (a.happensWhen t)).1.Dates t m ∧
          (r.proveMonotonic (b.happensWhen u)).1.Dates u n ∧ n < m) := by
  refine ⟨fun event t ht => ⟨exists_timestampOf_iff hr.placed hroom ht,
    fun n => timestampOf_eq_some_iff hr.placed hroom ht⟩, fun a b t u ht hu => ?_⟩
  have hfirst : ∀ m, timestampOf r.kb.timed a = some m ↔ _ :=
    fun m => timestampOf_eq_some_iff hr.placed hroom ht
  have hsecond : ∀ n, timestampOf r.kb.timed b = some n ↔ _ :=
    fun n => timestampOf_eq_some_iff hr.placed hroom hu
  constructor
  · simp only [query_time_proved, hfirst, hsecond, TimeOrder.holds, decide_eq_true_eq]
  · simp only [query_time_proved, hfirst, hsecond, TimeOrder.holds, decide_eq_true_eq]

/-- Ann woke and fell asleep once; the pattern of the second event is open. -/
theorem timestampOf_iff_proveMonotonic_wake :
    let r : Reasoner Nat := List.foldl serve {} [
      .addFact (Predicate.happensAt ⟨"Wake", [.const "Ann"]⟩ 7),
      .addFact (Predicate.happensAt ⟨"Sleep", [.const "Ann"]⟩ 22)]
    r.kb.timed.length ≤ r.config.limits.maxSteps ∧
      (r.proveMonotonic (Predicate.happensWhen ⟨"Sleep", [.var "who"]⟩ "t")).1.Dates "t" 22 ∧
      (r.query (.time ⟨.before, ⟨"Wake", [.const "Ann"]⟩, ⟨"Sleep", [.var "who"]⟩⟩)).1.outcome =
        .proved := by
  intro r
  have hr : r.kb.Reachable := Reachable.empty.foldl_serve _
  have hroom : r.kb.timed.length ≤ r.config.limits.maxSteps := by decide +kernel
  obtain ⟨hdates, horder⟩ := timestampOf_iff_proveMonotonic r hr hroom
  have hwake := (hdates ⟨"Wake", [.const "Ann"]⟩ "t" (by decide +kernel)).2 7
  have hsleep := (hdates ⟨"Sleep", [.var "who"]⟩ "t" (by decide +kernel)).2 22
  have hsleepAt := hsleep.mp (by decide +kernel)
  have hbefore := (horder ⟨"Wake", [.const "Ann"]⟩ ⟨"Sleep", [.var "who"]⟩ "t" "t"
    (by decide +kernel) (by decide +kernel)).1
  exact ⟨hroom, hsleepAt, hbefore.mpr ⟨7, 22, hwake.mp (by decide +kernel), hsleepAt, by decide⟩⟩

end Reasoner

end Defeasible
