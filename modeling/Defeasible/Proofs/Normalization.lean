import Defeasible.Proofs.Restoring
import Defeasible.Proofs.Gate

/-!
Loading any snapshot. A snapshot need not be one that a knowledge base lists: its facts may
come in any order, several times, and in the list of the other kind. Loading refuses it at
the first predicate that is no valid fact, and otherwise sorts it out. What is listed after
that is a normal form: it describes the same facts, and loading it again changes nothing.
-/

namespace Defeasible

variable {Time : Type}

/-- The predicate is the first of the list that may not be stored, with this error. -/
def FirstFault (ps : List Predicate) (e : Error) : Prop :=
  ∃ before p after, ps = before ++ p :: after ∧ (∀ q ∈ before, validateFact q = .ok ()) ∧
    validateFact p = .error e

theorem not_firstFault_nil (e : Error) : ¬ FirstFault [] e := by
  rintro ⟨before, p, after, heq, -⟩
  cases before <;> cases heq

theorem firstFault_cons {p : Predicate} {ps : List Predicate} {e : Error} :
    FirstFault (p :: ps) e ↔
      validateFact p = .error e ∨ validateFact p = .ok () ∧ FirstFault ps e := by
  constructor
  · rintro ⟨before, q, after, heq, hbefore, hfault⟩
    cases before with
    | nil =>
        cases heq
        exact .inl hfault
    | cons first before =>
        cases heq
        obtain ⟨hfirst, hbefore⟩ := List.forall_mem_cons.mp hbefore
        exact .inr ⟨hfirst, before, q, after, rfl, hbefore, hfault⟩
  · rintro (hfault | ⟨hvalid, before, q, after, rfl, hbefore, hfault⟩)
    · exact ⟨[], p, ps, rfl, nofun, hfault⟩
    · exact ⟨p :: before, q, after, rfl, List.forall_mem_cons.mpr ⟨hvalid, hbefore⟩, hfault⟩

/-- Checks all the predicates in turn, up to the first fault. -/
def validateAll (ps : List Predicate) : Except Error Unit := ps.forM validateFact

theorem validateAll_cons (p : Predicate) (ps : List Predicate) :
    validateAll (p :: ps) = validateFact p >>= fun _ => validateAll ps := rfl

theorem validateAll_append (ps qs : List Predicate) :
    validateAll (ps ++ qs) = validateAll ps >>= fun _ => validateAll qs := List.forM_append

theorem validateAll_eq_error {ps : List Predicate} {e : Error} :
    validateAll ps = .error e ↔ FirstFault ps e := by
  induction ps with
  | nil => exact iff_of_false nofun (not_firstFault_nil e)
  | cons p ps ih =>
      rw [validateAll_cons, firstFault_cons, ← ih]
      cases hvalid : validateFact p with
      | ok => simp [bind, Except.bind]
      | error => simp [bind, Except.bind]

theorem validateAll_eq_ok {ps : List Predicate} :
    validateAll ps = .ok () ↔ ∀ p ∈ ps, validateFact p = .ok () := by
  induction ps with
  | nil => exact iff_of_true rfl nofun
  | cons p ps ih =>
      rw [validateAll_cons, List.forall_mem_cons, ← ih]
      cases hvalid : validateFact p with
      | ok => simp [bind, Except.bind]
      | error => simp [bind, Except.bind]

/-- The last provenance that the entries give for the predicate. -/
def lastProvenance (fs : List (StoredFact Time)) (p : Predicate) : Option (Provenance Time) :=
  (fs.filterMap fun f => if f.predicate = p then f.provenance else none).getLast?

section LastProvenance

variable {fs gs : List (StoredFact Time)} {f : StoredFact Time} {p : Predicate}

theorem lastProvenance_append_self (fs : List (StoredFact Time)) (f : StoredFact Time) :
    lastProvenance (fs ++ [f]) f.predicate =
      (f.provenance <|> lastProvenance fs f.predicate) := by
  cases hf : f.provenance with
  | none => simp [lastProvenance, hf]
  | some provenance => simp [lastProvenance, hf]

theorem lastProvenance_append_unannotated (hgs : ∀ g ∈ gs, g.provenance = none) :
    lastProvenance (fs ++ gs) p = lastProvenance fs p := by
  have hnone : gs.filterMap (fun f => if f.predicate = p then f.provenance else none) = [] :=
    List.filterMap_eq_nil_iff.mpr fun g hg => by simp [hgs g hg]
  rw [lastProvenance, List.filterMap_append, hnone, List.append_nil, lastProvenance]

theorem lastProvenance_append_of_ne (h : p ≠ f.predicate) :
    lastProvenance (fs ++ [f]) p = lastProvenance fs p := by
  simp [lastProvenance, h.symm]

theorem lastProvenance_of_not_mem (h : p ∉ fs.map StoredFact.predicate) :
    lastProvenance fs p = none := by
  have hnone : fs.filterMap (fun f => if f.predicate = p then f.provenance else none) = [] :=
    List.filterMap_eq_nil_iff.mpr fun f hf =>
      if_neg fun heq : f.predicate = p => h (heq ▸ List.mem_map_of_mem hf)
  rw [lastProvenance, hnone, List.getLast?_nil]

end LastProvenance

namespace Snapshot

/-- The snapshot `n` lists once and in order what the snapshot `s` describes. -/
structure NormalFormOf (n s : Snapshot Time) : Prop where
  facts : ∀ f, f ∈ n.facts ↔ f.predicate ∈ s.predicates ++ s.timed ∧
    f.predicate.isTimed = false ∧ f.provenance = lastProvenance s.facts f.predicate
  facts_ascending : n.facts.Pairwise fun f g => compare f.predicate g.predicate = .lt
  timed : n.timed = ((s.predicates ++ s.timed).filter Predicate.isTimed).eraseDups
  timed_once : n.timed.Nodup
  derived : ∀ p, p ∈ n.derived ↔ p ∈ s.derived
  derived_ascending : n.derived.Pairwise fun p q => compare p q = .lt
  rules : n.rules = s.rules
  defaultRules : n.defaultRules = s.defaultRules
  exceptions : n.exceptions = s.exceptions

end Snapshot

namespace KnowledgeBase

variable {kb kb' : KnowledgeBase Time} {fs gs : List (StoredFact Time)} {p : Predicate}

/-- The knowledge base holds what a list of entries says, in normal form. -/
structure Holds (kb : KnowledgeBase Time) (fs : List (StoredFact Time)) : Prop where
  facts : ∀ p, kb.facts.get? p =
    if p.isTimed = false ∧ p ∈ fs.map StoredFact.predicate then some (lastProvenance fs p) else none
  timed : kb.timed = ((fs.map StoredFact.predicate).filter Predicate.isTimed).eraseDups

theorem holds_nil : Holds ({} : KnowledgeBase Time) [] := ⟨fun _ => (if_neg nofun).symm, rfl⟩

theorem Holds.provenance (h : kb.Holds fs) (hp : p.isTimed = false) :
    (kb.facts.get? p).join = lastProvenance fs p := by
  rw [h.facts]
  split
  next => rfl
  next hnot => exact (lastProvenance_of_not_mem fun hmem => hnot ⟨hp, hmem⟩).symm

/-- A timed fact is dropped if it stands in the sequence, and goes to its end otherwise. -/
theorem eraseDups_append_singleton (ps : List Predicate) (p : Predicate) :
    (ps ++ [p]).eraseDups = if p ∈ ps then ps.eraseDups else ps.eraseDups ++ [p] := by
  rw [List.eraseDups_append]
  split
  next hmem => simp [List.removeAll, hmem]
  next hmem => simp [List.removeAll, hmem, List.eraseDups_cons]

/-- Each insertion adds its entry to what is held. -/
theorem Holds.insertFact (h : kb.Holds fs) (f : StoredFact Time) :
    (kb.insertFact f.predicate f.provenance).2.Holds (fs ++ [f]) := by
  rw [insertFact_snd]
  cases hkind : f.predicate.isTimed with
  | true =>
      refine ⟨fun p => ?_, ?_⟩
      · simp only [if_true, h.facts, List.map_append, List.map_singleton, List.mem_append,
          List.mem_singleton]
        by_cases hp : p = f.predicate
        · simp [hp, hkind]
        · simp [hp, lastProvenance_append_of_ne hp]
      · simp only [List.map_append, List.map_singleton, List.filter_append, Bool.true_and]
        rw [List.filter_singleton, hkind, cond_true, eraseDups_append_singleton, ← h.timed]
        by_cases hmem : f.predicate ∈ fs.map StoredFact.predicate
        · simp [h.timed, hmem, hkind]
        · simp [h.timed, hmem]
  | false =>
      refine ⟨fun p => ?_, ?_⟩
      · simp only [Bool.false_eq_true, if_false, h.provenance hkind]
        simp only [OrderedMap.get?_insert, h.facts, List.map_append, List.map_singleton,
          List.mem_append, List.mem_singleton]
        by_cases hp : p = f.predicate
        · simp [hp, hkind, lastProvenance_append_self]
        · simp [hp, lastProvenance_append_of_ne hp]
      · simp only [List.map_append, List.map_singleton, List.filter_append]
        simp [hkind, h.timed]

theorem Holds.insertAll (h : kb.Holds fs) (hload : kb.insertAll gs = .ok kb') :
    kb'.Holds (fs ++ gs) := by
  induction gs generalizing kb fs with
  | nil =>
      cases hload
      rwa [List.append_nil]
  | cons f gs ih =>
      obtain ⟨⟨⟩, -, hrest⟩ := bind_eq_ok.mp hload
      have hload := ih (h.insertFact f) hrest
      rwa [List.append_assoc, List.singleton_append] at hload

/-- Only the facts are loaded here. -/
theorem derived_insertAll (hload : kb.insertAll gs = .ok kb') : kb'.derived = kb.derived := by
  induction gs generalizing kb with
  | nil =>
      cases hload
      rfl
  | cons f gs ih =>
      obtain ⟨⟨⟩, -, hrest⟩ := bind_eq_ok.mp hload
      rw [ih hrest, insertFact_snd]

theorem deriveAll_ok {ps : List Predicate} (hload : kb.deriveAll ps = .ok kb') :
    kb' = { kb with derived := ps.foldl (fun s p => s.insert p ()) kb.derived } := by
  induction ps generalizing kb with
  | nil =>
      cases hload
      rfl
  | cons p ps ih =>
      obtain ⟨⟨⟩, -, hrest⟩ := bind_eq_ok.mp hload
      exact ih hrest

/-- Whether loading facts goes through depends on their predicates only. -/
theorem map_insertAll (kb : KnowledgeBase Time) (fs : List (StoredFact Time)) :
    (kb.insertAll fs).map (fun _ => ()) = validateAll (fs.map StoredFact.predicate) := by
  induction fs generalizing kb with
  | nil => rfl
  | cons f fs ih =>
      rw [List.map_cons, validateAll_cons]
      cases hvalid : validateFact f.predicate with
      | ok => rw [insertAll_cons hvalid, ih]; rfl
      | error => rw [insertAll, hvalid]; rfl

theorem map_deriveAll (kb : KnowledgeBase Time) (ps : List Predicate) :
    (kb.deriveAll ps).map (fun _ => ()) = validateAll ps := by
  induction ps generalizing kb with
  | nil => rfl
  | cons p ps ih =>
      rw [validateAll_cons]
      cases hvalid : validateFact p with
      | ok => rw [deriveAll_cons hvalid, ih]; rfl
      | error => rw [deriveAll, hvalid]; rfl

theorem map_bind_unit {α β : Type} (x : Except Error α) (f : α → Except Error β)
    {y : Except Error Unit} (hf : ∀ a, (f a).map (fun _ => ()) = y) :
    (x >>= f).map (fun _ => ()) = x.map (fun _ => ()) >>= fun _ => y := by
  cases x with
  | ok a => exact hf a
  | error => rfl

/-- Whether a snapshot loads is decided by the predicates of its three lists in turn. -/
theorem map_ofSnapshot (s : Snapshot Time) :
    (ofSnapshot s).map (fun _ => ()) = validateAll (s.predicates ++ s.timed ++ s.derived) := by
  have htimed : ∀ kb : KnowledgeBase Time,
      (kb.insertAll (s.timed.map fun p => ⟨p, none⟩)).map (fun _ => ()) = validateAll s.timed := by
    intro kb
    rw [map_insertAll, List.map_map]
    exact congrArg validateAll (List.map_id _)
  rw [ofSnapshot, List.append_assoc, validateAll_append, Snapshot.predicates,
    ← map_insertAll {} s.facts]
  refine map_bind_unit _ _ fun kb => ?_
  rw [validateAll_append, ← htimed kb]
  refine map_bind_unit _ _ fun kb => ?_
  rw [← map_deriveAll kb]
  cases kb.deriveAll s.derived <;> rfl

theorem ofSnapshot_eq_error {s : Snapshot Time} {e : Error} :
    ofSnapshot s = .error e ↔ FirstFault (s.predicates ++ s.timed ++ s.derived) e := by
  rw [← validateAll_eq_error, ← map_ofSnapshot]
  cases ofSnapshot s with
  | ok => exact iff_of_false nofun nofun
  | error => simp [Except.map]

theorem valid_of_ofSnapshot {s : Snapshot Time} (h : ofSnapshot s = .ok kb) :
    ∀ p ∈ s.predicates ++ s.timed ++ s.derived, validateFact p = .ok () := by
  rw [← validateAll_eq_ok, ← map_ofSnapshot, h]
  rfl

/-- What a snapshot becomes by being loaded. -/
theorem ofSnapshot_ok {s : Snapshot Time} (h : ofSnapshot s = .ok kb) :
    ∃ stored : KnowledgeBase Time, stored.Holds (s.facts ++ s.timed.map fun p => ⟨p, none⟩) ∧
      kb = { facts := stored.facts
             timed := stored.timed
             rules := s.rules
             defaultRules := s.defaultRules
             derived := OrderedSet.ofList s.derived
             exceptions := s.exceptions } := by
  obtain ⟨kb₁, hfacts, hrest⟩ := bind_eq_ok.mp h
  obtain ⟨kb₂, htimed, hrest⟩ := bind_eq_ok.mp hrest
  obtain ⟨kb₃, hderived, hrest⟩ := bind_eq_ok.mp hrest
  cases hrest
  refine ⟨kb₂, (holds_nil.insertAll hfacts).insertAll htimed, ?_⟩
  rw [deriveAll_ok hderived, derived_insertAll htimed, derived_insertAll hfacts]
  rfl

theorem reachable_ofSnapshot {s : Snapshot Time} (h : ofSnapshot s = .ok kb) : kb.Reachable := by
  have hserve := Reachable.serve {} (.restore s) .empty
  rw [Reasoner.serve, Reasoner.restore, h] at hserve
  exact hserve

theorem mem_facts_snapshot {f : StoredFact Time} :
    f ∈ kb.snapshot.facts ↔ kb.facts.get? f.predicate = some f.provenance := by
  rw [OrderedMap.get?_eq_some_iff, snapshot, List.mem_map]
  constructor
  · rintro ⟨e, he, rfl⟩
    exact he
  · exact fun he => ⟨_, he, rfl⟩

theorem Holds.mem_facts (h : kb.Holds fs) {f : StoredFact Time} :
    f ∈ kb.snapshot.facts ↔ f.predicate ∈ fs.map StoredFact.predicate ∧
      f.predicate.isTimed = false ∧ f.provenance = lastProvenance fs f.predicate := by
  rw [mem_facts_snapshot, h.facts]
  split
  next hmem => simp [hmem.1, hmem.2, eq_comm]
  next hnot => exact iff_of_false nofun fun hmem => hnot ⟨hmem.2.1, hmem.1⟩

theorem normalFormOf_snapshot {s : Snapshot Time} (h : ofSnapshot s = .ok kb) :
    kb.snapshot.NormalFormOf s := by
  have hnodup := (reachable_ofSnapshot h).nodup_timed
  obtain ⟨stored, hstored, rfl⟩ := ofSnapshot_ok h
  have hpredicates : (s.facts ++ s.timed.map fun p => (⟨p, none⟩ : StoredFact Time)).map
      StoredFact.predicate = s.predicates ++ s.timed := by
    simp [Snapshot.predicates, Function.comp_def]
  refine ⟨fun f => ?_, ?_, ?_, hnodup, fun p => OrderedSet.mem_toList_ofList, ?_, rfl, rfl, rfl⟩
  · have hmem : f ∈ stored.snapshot.facts ↔ _ := hstored.mem_facts
    rwa [hpredicates, lastProvenance_append_unannotated (by simp)] at hmem
  · exact List.pairwise_map.mpr stored.facts.ascending
  · rw [← hpredicates]
    exact hstored.timed
  · exact List.pairwise_map.mpr (OrderedSet.ofList s.derived).ascending

/-- Loading a snapshot fails at the first predicate of its lists that is no valid fact. If
there is none, what is listed after it is a normal form of the snapshot, and loading that
lists the same again. -/
theorem ofSnapshot_normalizes (s : Snapshot Time) :
    (∀ e, ofSnapshot s = .error e ↔ FirstFault (s.predicates ++ s.timed ++ s.derived) e) ∧
      ((∃ e, ofSnapshot s = .error e) ↔
        ∃ p ∈ s.predicates ++ s.timed ++ s.derived, ∃ e, validateFact p = .error e) ∧
      ∀ kb, ofSnapshot s = .ok kb → kb.snapshot.NormalFormOf s ∧
        ∃ kb', ofSnapshot kb.snapshot = .ok kb' ∧ kb'.snapshot = kb.snapshot := by
  refine ⟨fun e => ofSnapshot_eq_error, ⟨?_, ?_⟩,
    fun kb h => ⟨normalFormOf_snapshot h, kb, ?_, rfl⟩⟩
  · rintro ⟨e, h⟩
    obtain ⟨before, p, after, heq, -, hfault⟩ := ofSnapshot_eq_error.mp h
    exact ⟨p, heq ▸ List.mem_append_right _ (.head _), e, hfault⟩
  · rintro ⟨p, hp, e, hfault⟩
    cases hload : ofSnapshot s with
    | error e' => exact ⟨e', rfl⟩
    | ok kb => cases hfault.symm.trans (valid_of_ofSnapshot hload p hp)
  · have hkb := reachable_ofSnapshot h
    refine hkb.placed.ofSnapshot_snapshot hkb.nodup_timed fun p hp => ?_
    have hlisted : p ∈ s.derived := ((normalFormOf_snapshot h).derived p).mp hp
    exact valid_of_ofSnapshot h p (List.mem_append_right _ hlisted)

/-- A timed fact among the ordinary ones, an ordinary fact among the timed ones, and several
entries twice, one of them with a provenance that the later entry does not give. -/
theorem ofSnapshot_normalizes_disorder :
    let login : Predicate := ⟨"HappensAt", [.app "Login" [.const "Ann"], .const "300"]⟩
    let logout : Predicate := ⟨"HappensAt", [.app "Logout" [.const "Ann"], .const "100"]⟩
    let tux : Predicate := ⟨"Bird", [.const "Tux"]⟩
    let s : Snapshot Nat := {
      facts := [⟨login, none⟩, ⟨tux, some ⟨.full, "observer", 0⟩⟩, ⟨tux, none⟩]
      timed := [logout, ⟨"Bird", [.const "Ada"]⟩, login]
      derived := [tux, ⟨"Bird", [.const "Ada"]⟩, tux] }
    ∃ kb, ofSnapshot s = .ok kb ∧ kb.snapshot.timed = [login, logout] ∧
      ⟨tux, some ⟨.full, "observer", 0⟩⟩ ∈ kb.snapshot.facts ∧
      ∃ kb', ofSnapshot kb.snapshot = .ok kb' ∧ kb'.snapshot = kb.snapshot := by
  intro login logout tux s
  obtain ⟨-, hfails, hloads⟩ := ofSnapshot_normalizes s
  cases hload : ofSnapshot s with
  | error e =>
      obtain ⟨p, hp, e, hfault⟩ := hfails.mp ⟨e, hload⟩
      have hvalid : ∀ p ∈ s.predicates ++ s.timed ++ s.derived, validateFact p = .ok () := by
        decide +kernel
      cases hfault.symm.trans (hvalid p hp)
  | ok kb =>
      obtain ⟨hnormal, hagain⟩ := hloads kb hload
      refine ⟨kb, rfl, ?_, (hnormal.facts _).mpr (by decide +kernel), hagain⟩
      rw [hnormal.timed]
      decide +kernel

end KnowledgeBase

end Defeasible
