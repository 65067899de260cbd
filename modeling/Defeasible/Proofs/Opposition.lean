import Defeasible.Proofs.Admission
import Defeasible.Proofs.Agreement
import Defeasible.Proofs.RoundTrip

/-!
Opposites. Negation puts a mark before a name or takes one off, and the mark is seen only
before an uppercase letter. So negating twice leads back exactly where negation changes
whether the mark is seen. Detection looks for the negation of the candidate, and among ordinary
facts it is symmetric as far as negation leads back. A sweep reports a stored pair of a fact and
its negation for the side without the mark, and therefore not at all if both sides carry one.
-/

namespace Defeasible

variable {Time : Type}

theorem mark_append_mark_ne (name : String) : "Not" ++ ("Not" ++ name) ≠ name := by
  intro h
  have hlength := congrArg String.length h
  rw [String.length_append, String.length_append] at hlength
  have hmark : 0 < "Not".length := by decide
  omega

/-- A mark is seen if an uppercase letter follows it. -/
theorem negatedName?_mark (name : String) : negatedName? ("Not" ++ name) =
    if name.toList.head?.any Text.isUppercase then some name else none := by
  have hstrip : Text.stripStart? ['N', 'o', 't'] ("Not" ++ name).toList = some name.toList :=
    Text.stripStart?_eq_some.mpr (by simp)
  rw [negatedName?, hstrip]
  cases hname : name.toList with
  | nil => rfl
  | cons c cs =>
      have hback : String.ofList (c :: cs) = name := by rw [← hname, String.ofList_toList]
      by_cases hupper : Text.isUppercase c = true <;> simp [hback, hupper]

namespace Predicate

variable {p q : Predicate}

/-- The name carries one mark of negation, or it carries none and starts with the uppercase
letter that makes a mark visible. -/
def isReversible (p : Predicate) : Bool :=
  match negatedName? p.name with
  | some rest => (negatedName? rest).isNone
  | none => p.name.toList.head?.any Text.isUppercase

theorem isReversible_iff : p.isReversible = true ↔ p.negated.isNegated = !p.isNegated := by
  rw [isReversible, isNegated, isNegated, negated]
  cases hname : negatedName? p.name with
  | none =>
      rw [Option.getD_none, negatedName?_mark]
      by_cases hupper : p.name.toList.head?.any Text.isUppercase = true <;> simp [hupper]
  | some rest => cases hrest : negatedName? rest <;> simp [hrest]

/-- Negating twice leads back or changes the length of the name. -/
theorem negated_negated_iff : p.negated.negated = p ↔ p.isReversible = true := by
  obtain ⟨name, args⟩ := p
  simp only [negated, isReversible, mk.injEq, and_true]
  cases hname : negatedName? name with
  | none =>
      rw [Option.getD_none, negatedName?_mark]
      split
      next hupper => simp [hupper]
      next hupper =>
        exact iff_of_false (mark_append_mark_ne name) hupper
  | some rest =>
      obtain rfl := eq_append_of_negatedName? hname
      rw [Option.getD_some]
      cases hrest : negatedName? rest with
      | none => simp [hrest]
      | some inner =>
          obtain rfl := eq_append_of_negatedName? hrest
          exact iff_of_false (fun h => mark_append_mark_ne inner h.symm) (by simp [hrest])

/-- Negation changes whether a mark is seen. -/
theorem negated_negated_iff_marks :
    p.negated.negated = p ↔ p.negated.isNegated = !p.isNegated :=
  negated_negated_iff.trans isReversible_iff

theorem isReversible_negated (h : p.isReversible = true) : p.negated.isReversible = true := by
  rw [← negated_negated_iff, negated_negated_iff.mpr h]

theorem isNegated_positive (p : Predicate) :
    p.positive.isNegated = (p.isNegated && p.negated.isNegated) := by
  rw [positive]
  cases hmark : p.isNegated <;> simp [hmark]

end Predicate

namespace Conflict

variable {d : Conflict} {p q : Predicate}

theorem isContradiction_iff :
    d.isContradiction = true ↔ ∃ existing e, d.kind = .contradiction existing e := by
  obtain ⟨candidate, certainty, kind⟩ := d
  cases kind <;> simp [isContradiction]

/-- The conflict is a contradiction of the two facts, whichever of them is the candidate. -/
def isBetween (p q : Predicate) (d : Conflict) : Bool :=
  match d.kind with
  | .contradiction existing _ =>
      decide (d.candidate = p ∧ existing = q ∨ d.candidate = q ∧ existing = p)
  | .violation .. => false

theorem isContradiction_of_isBetween (h : d.isBetween p q = true) : d.isContradiction = true := by
  obtain ⟨candidate, certainty, kind⟩ := d
  cases kind with
  | contradiction => rfl
  | violation => cases h

end Conflict

/-- Detection reports a contradiction for the candidate. -/
def Snapshot.contradicts (kb : Snapshot Time) (c : Predicate) (k : Certainty) : Bool :=
  (kb.detect c k).any Conflict.isContradiction

namespace KnowledgeBase

variable {kb : KnowledgeBase Time} {c p q : Predicate} {k : Certainty}

theorem contradicts_iff : kb.snapshot.contradicts c k = true ↔ c.negated ∈ kb.facts.keys := by
  rw [Snapshot.contradicts, List.any_eq_true, mem_keys_iff_certainty?]
  have hdetect : (∃ d ∈ kb.snapshot.detect c k, ∃ existing e,
      d.kind = .contradiction existing e ∧ True) ↔ _ := exists_contradiction_detect
  simpa [Conflict.isContradiction_iff] using hdetect

theorem contradiction?_isBetween :
    ((kb.snapshot.contradiction? c k).map (Conflict.isBetween p q)).getD false = true ↔
      c.negated ∈ kb.facts.keys ∧ (c = p ∧ c.negated = q ∨ c = q ∧ c.negated = p) := by
  rw [contradiction?_snapshot, mem_keys_iff_certainty?]
  cases kb.certainty? c.negated <;> simp [Conflict.isBetween]

theorem isContradiction_of_mem_filterMap {fs : List (StoredFact Time)} {d : Conflict}
    (h : d ∈ fs.filterMap fun f => kb.snapshot.contradiction? f.predicate f.certainty) :
    d.isContradiction = true := by
  obtain ⟨f, -, hd⟩ := List.mem_filterMap.mp h
  rw [contradiction?_snapshot] at hd
  obtain ⟨e, -, rfl⟩ := Option.map_eq_some_iff.mp hd
  rfl

theorem isContradiction_of_mem_flatMap {fs : List (StoredFact Time)} {d : Conflict}
    (h : d ∈ fs.flatMap fun f => kb.snapshot.violations f.predicate f.certainty) :
    d.isContradiction = false := by
  obtain ⟨f, -, hd⟩ := List.mem_flatMap.mp h
  obtain ⟨rule, premise, expected, rfl, -⟩ := kind_of_mem_violations hd
  rfl

/-- The knowledge base holds the one fact, in the place for its kind, and no other. -/
structure StoresOnly (kb : KnowledgeBase Time) (p : Predicate) : Prop where
  facts : kb.facts.keys = if p.isTimed then [] else [p]
  timed : kb.timed = if p.isTimed then [p] else []

theorem StoresOnly.contradicts_iff (h : kb.StoresOnly p) :
    kb.snapshot.contradicts c k = true ↔ c.negated = p ∧ p.isTimed = false := by
  rw [KnowledgeBase.contradicts_iff, h.facts]
  cases p.isTimed <;> simp

/-- Detection in one direction and in the other agree, unless one of two facts is the negation
of the other and is not led back to. -/
theorem StoresOnly.contradicts_comm_iff {ka : KnowledgeBase Time} {a b : Predicate}
    {l : Certainty} (ha : ka.StoresOnly a) (hb : kb.StoresOnly b)
    (huntimed : a.negated = b ∨ b.negated = a → a.isTimed = false ∧ b.isTimed = false) :
    ka.snapshot.contradicts b k = kb.snapshot.contradicts a l ↔
      (a.negated = b ∨ b.negated = a → a.isReversible = true ∧ b.isReversible = true) := by
  rw [Bool.eq_iff_iff, ha.contradicts_iff, hb.contradicts_iff]
  constructor
  · rintro hagree (rfl | rfl)
    · obtain ⟨hback, -⟩ := hagree.mpr ⟨rfl, (huntimed (.inl rfl)).2⟩
      have hreversible := Predicate.negated_negated_iff.mp hback
      exact ⟨hreversible, Predicate.isReversible_negated hreversible⟩
    · obtain ⟨hback, -⟩ := hagree.mp ⟨rfl, (huntimed (.inr rfl)).1⟩
      have hreversible := Predicate.negated_negated_iff.mp hback
      exact ⟨Predicate.isReversible_negated hreversible, hreversible⟩
  · intro hboth
    constructor
    · rintro ⟨rfl, -⟩
      exact ⟨Predicate.negated_negated_iff.mpr (hboth (.inr rfl)).2, (huntimed (.inr rfl)).2⟩
    · rintro ⟨rfl, -⟩
      exact ⟨Predicate.negated_negated_iff.mpr (hboth (.inl rfl)).1, (huntimed (.inl rfl)).1⟩

theorem storesOnly_insertFact (p : Predicate) (provenance : Option (Provenance Time)) :
    (KnowledgeBase.insertFact {} p provenance).1 = true ∧
      (KnowledgeBase.insertFact {} p provenance).2.StoresOnly p := by
  rw [insertFact]
  cases hp : p.isTimed <;> exact ⟨rfl, by rw [hp]; rfl, by rw [hp]; rfl⟩

/-- The contradictions between two facts are counted at the stored facts without the mark. -/
theorem countP_detectAll (kb : KnowledgeBase Time) (p q : Predicate) :
    kb.snapshot.detectAll.countP (Conflict.isBetween p q) = kb.facts.keys.countP fun c =>
      decide (c.isNegated = false ∧ c.negated ∈ kb.facts.keys ∧
        (c = p ∧ c.negated = q ∨ c = q ∧ c.negated = p)) := by
  have hviolations : (kb.snapshot.facts.flatMap fun f =>
      kb.snapshot.violations f.predicate f.certainty).countP (Conflict.isBetween p q) = 0 := by
    refine List.countP_eq_zero.mpr fun d hd hbetween => ?_
    rw [← Bool.false_eq_true, ← isContradiction_of_mem_flatMap hd]
    exact Conflict.isContradiction_of_isBetween hbetween
  rw [Snapshot.detectAll, List.countP_append, hviolations, Nat.add_zero, List.countP_filterMap,
    List.countP_filter, ← snapshot_predicates, Snapshot.predicates, List.countP_map]
  refine List.countP_congr fun f _ => ?_
  rw [Bool.and_eq_true, contradiction?_isBetween, ← snapshot_predicates, and_comm]
  simp [Snapshot.predicates]

/-- The side of a stored pair that reports it is the positive one, if it carries no mark. -/
theorem reports_iff (hp : p ∈ kb.facts.keys) (hn : p.negated ∈ kb.facts.keys) :
    (c.isNegated = false ∧ c.negated ∈ kb.facts.keys ∧
      (c = p ∧ c.negated = p.negated ∨ c = p.negated ∧ c.negated = p)) ↔
    c = p.positive ∧ p.positive.isNegated = false := by
  rw [Predicate.positive]
  cases hmark : p.isNegated with
  | false =>
      rw [if_neg Bool.false_ne_true, hmark]
      constructor
      · rintro ⟨hc, -, ⟨rfl, -⟩ | ⟨rfl, hback⟩⟩
        · exact ⟨rfl, rfl⟩
        · rw [Predicate.negated_negated_iff_marks.mp hback, hmark] at hc
          cases hc
      · rintro ⟨rfl, -⟩
        exact ⟨hmark, hn, .inl ⟨rfl, rfl⟩⟩
  | true =>
      rw [if_pos rfl]
      constructor
      · rintro ⟨hc, -, ⟨rfl, -⟩ | ⟨rfl, -⟩⟩
        · rw [hmark] at hc
          cases hc
        · exact ⟨rfl, hc⟩
      · rintro ⟨rfl, hc⟩
        have hback : p.negated.negated = p :=
          Predicate.negated_negated_iff_marks.mpr (by rw [hc, hmark, Bool.not_true])
        exact ⟨hc, hback.symm ▸ hp, .inr ⟨rfl, hback⟩⟩

/-- A stored pair is reported once, from its positive side, or not at all. -/
theorem countP_between_detectAll (hp : p ∈ kb.facts.keys) (hn : p.negated ∈ kb.facts.keys) :
    kb.snapshot.detectAll.countP (Conflict.isBetween p p.negated) =
      if p.positive.isNegated then 0 else 1 := by
  have hpositive : p.positive ∈ kb.facts.keys := by
    rw [Predicate.positive]
    split
    · exact hn
    · exact hp
  rw [countP_detectAll]
  simp only [reports_iff hp hn]
  cases hmark : p.positive.isNegated with
  | false =>
      rw [if_neg Bool.false_ne_true, ← List.count_eq_one_of_mem kb.facts.nodup_keys hpositive]
      exact List.countP_congr fun c _ => by simp
  | true => exact List.countP_eq_zero.mpr fun c _ hc => by simp at hc

/-- No contradiction comes after a violation. -/
theorem pairwise_detectAll (kb : KnowledgeBase Time) : kb.snapshot.detectAll.Pairwise fun d d' =>
    d'.isContradiction = true → d.isContradiction = true := by
  refine List.pairwise_append.mpr ⟨?_, ?_, fun d hd _ _ _ => isContradiction_of_mem_filterMap hd⟩
  · exact List.pairwise_of_forall_mem_list fun d hd _ _ _ => isContradiction_of_mem_filterMap hd
  · refine List.pairwise_of_forall_mem_list fun _ _ d' hd' hcontradiction => ?_
    rw [isContradiction_of_mem_flatMap hd'] at hcontradiction
    cases hcontradiction

/-- A sweep reports a fact and its negation, both stored as ordinary facts, exactly once unless
both carry the mark, and it reports all contradictions before the violations. -/
theorem detectAll_reports_pair (kb : KnowledgeBase Time) :
    (∀ p ∈ kb.facts.keys, p.negated ∈ kb.facts.keys →
      kb.snapshot.detectAll.countP (Conflict.isBetween p p.negated) =
        if p.isNegated && p.negated.isNegated then 0 else 1) ∧
    kb.snapshot.detectAll.Pairwise fun d d' =>
      d'.isContradiction = true → d.isContradiction = true :=
  ⟨fun p hp hn => by rw [countP_between_detectAll hp hn, p.isNegated_positive],
    pairwise_detectAll kb⟩

/-- The pair is reported also where the fact that is asked about is the denial. -/
theorem detectAll_reports_pair_flies :
    let kb : KnowledgeBase Nat := (List.foldl Reasoner.serve {} [.addFact ⟨"Flies", [.const "Tux"]⟩,
      .addFact ⟨"NotFlies", [.const "Tux"]⟩, .addFact ⟨"Bird", [.const "Tux"]⟩,
      .addDefaultRule ⟨⟨"Bird", [.var "x"]⟩, ⟨"Flies", [.var "x"]⟩, .full⟩]).kb
    kb.snapshot.detectAll.length = 2 ∧ kb.snapshot.detectAll.countP
      (Conflict.isBetween ⟨"NotFlies", [.const "Tux"]⟩ ⟨"Flies", [.const "Tux"]⟩) = 1 := by
  intro kb
  exact ⟨by decide +kernel, (detectAll_reports_pair kb).1 ⟨"NotFlies", [.const "Tux"]⟩
    (by decide +kernel) (by decide +kernel)⟩

/-- Both sides carry a mark. The gate sees the contradiction, and the sweep does not. -/
theorem detectAll_misses_denied_denial :
    let kb : KnowledgeBase Nat := (List.foldl Reasoner.serve {} [
      .addFact ⟨"NotFlies", [.const "Tux"]⟩,
      .addFact ⟨"NotNotFlies", [.const "Tux"]⟩]).kb
    let p : Predicate := ⟨"NotNotFlies", [.const "Tux"]⟩
    kb.Reachable ∧ p ∈ kb.facts.keys ∧ p.negated ∈ kb.facts.keys ∧
      kb.snapshot.contradicts p .full = true ∧
      kb.snapshot.detectAll.countP (Conflict.isBetween p p.negated) = 0 := by
  intro kb p
  exact ⟨Reachable.empty.foldl_serve (r := {}) _, by decide +kernel, by decide +kernel,
    by decide +kernel, by decide +kernel⟩

end KnowledgeBase

namespace Reasoner

/-- What can be read and has no variables can be stored alone, unless it is a malformed timed
fact and is refused. -/
theorem exists_storesOnly (text : List Char) {p : Predicate} (h : Parse.predicate text = .ok p)
    (hground : p.isGround = true) :
    (∃ r, ({} : Reasoner Time).addFact p = .ok (true, r) ∧ r.kb.StoresOnly p) ∨
      p.isTimed = true ∧ ∃ e, ({} : Reasoner Time).addFact p = .error e := by
  cases hvalid : validateFact p with
  | ok =>
      obtain ⟨hnew, halone⟩ := KnowledgeBase.storesOnly_insertFact p none
      exact .inl ⟨_, bind_eq_ok.mpr ⟨(), hvalid, by rw [← hnew]; rfl⟩, halone⟩
  | error e =>
      refine .inr ⟨eq_true_of_ne_false fun hordinary => ?_, e, by rw [addFact, hvalid]; rfl⟩
      rw [validateFact_of_untimed (Parse.hasUnnamed_of_predicate h) hground hordinary] at hvalid
      cases hvalid

/-- Negating twice leads back for the reversible predicates and for no other. For two facts
each stored alone, other than a timed fact and its denial, detection in one direction and in
the other agree, unless one is the negation of the other and either is not reversible. -/
theorem negated_negated_and_contradicts_comm_iff :
    (∀ p : Predicate, p.negated.negated = p ↔ p.isReversible = true) ∧
    (∀ (ka kb : KnowledgeBase Time) (a b : Predicate) (k l : Certainty),
      ka.StoresOnly a → kb.StoresOnly b →
      (a.negated = b ∨ b.negated = a → a.isTimed = false ∧ b.isTimed = false) →
      (ka.snapshot.contradicts b k = kb.snapshot.contradicts a l ↔
        (a.negated = b ∨ b.negated = a → a.isReversible = true ∧ b.isReversible = true))) ∧
    ∀ (text : List Char) (p : Predicate), Parse.predicate text = .ok p → p.isGround = true →
      (∃ r, ({} : Reasoner Time).addFact p = .ok (true, r) ∧ r.kb.StoresOnly p) ∨
        p.isTimed = true ∧ ∃ e, ({} : Reasoner Time).addFact p = .error e :=
  ⟨fun _ => Predicate.negated_negated_iff, fun _ _ _ _ _ _ ha hb => ha.contradicts_comm_iff hb,
    fun text _ => exists_storesOnly text⟩

/-- A report that a bird flies and a report that it does not contradict each other whichever
is stored. -/
theorem negated_negated_and_contradicts_comm_iff_flies :
    let a : Predicate := ⟨"Flies", [.const "Tux"]⟩
    let b : Predicate := ⟨"NotFlies", [.const "Tux"]⟩
    ∃ ra rb, ({} : Reasoner Nat).addFact a = .ok (true, ra) ∧
      ({} : Reasoner Nat).addFact b = .ok (true, rb) ∧
      ra.kb.snapshot.contradicts b .full = rb.kb.snapshot.contradicts a .full ∧
      b.negated.negated = b := by
  intro a b
  obtain ⟨hback, hcomm, halone⟩ := negated_negated_and_contradicts_comm_iff
  obtain ⟨ra, hra, ha⟩ := (halone "Flies(Tux)".toList a (by rfl) rfl).resolve_right
    fun h => by cases h.1
  obtain ⟨rb, hrb, hb⟩ := (halone "NotFlies(Tux)".toList b (by rfl) rfl).resolve_right
    fun h => by cases h.1
  refine ⟨ra, rb, hra, hrb, (hcomm _ _ a b _ _ ha hb fun _ => ?_).mpr fun _ => ?_, ?_⟩
  · exact ⟨rfl, rfl⟩
  · decide +kernel
  · exact (hback b).mpr (by decide +kernel)

/-- A mark before a lowercase letter is not seen, and of two marks both are taken off. So the
first fact denies the second, and the second does not deny the first. -/
theorem negation_not_involutive :
    let flies : Predicate := ⟨"flies", [.const "Tux"]⟩
    let denial : Predicate := ⟨"Notflies", [.const "Tux"]⟩
    let twice : Predicate := ⟨"NotNotFlies", [.const "Tux"]⟩
    Parse.predicate "flies(Tux)".toList = .ok flies ∧
      Parse.predicate "Notflies(Tux)".toList = .ok denial ∧
      Parse.predicate "NotNotFlies(Tux)".toList = .ok twice ∧
      flies.negated.negated ≠ flies ∧ twice.negated.negated ≠ twice ∧
      ∃ ra rb, ({} : Reasoner Nat).addFact flies = .ok (true, ra) ∧ ra.kb.StoresOnly flies ∧
        ({} : Reasoner Nat).addFact denial = .ok (true, rb) ∧ rb.kb.StoresOnly denial ∧
        rb.kb.snapshot.contradicts flies .full = true ∧
        ra.kb.snapshot.contradicts denial .full = false := by
  intro flies denial twice
  have hflies : Parse.predicate "flies(Tux)".toList = .ok flies := by rfl
  have hdenial : Parse.predicate "Notflies(Tux)".toList = .ok denial := by rfl
  refine ⟨hflies, hdenial, by rfl, by decide +kernel, by decide +kernel, ?_⟩
  obtain ⟨ra, hra, ha⟩ := (exists_storesOnly _ hflies rfl).resolve_right fun h => by cases h.1
  obtain ⟨rb, hrb, hb⟩ := (exists_storesOnly _ hdenial rfl).resolve_right fun h => by cases h.1
  refine ⟨ra, rb, hra, ha, hrb, hb, hb.contradicts_iff.mpr (by decide +kernel), ?_⟩
  rw [← Bool.not_eq_true, ha.contradicts_iff]
  decide +kernel

end Reasoner

end Defeasible
