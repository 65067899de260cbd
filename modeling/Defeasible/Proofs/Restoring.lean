import Mathlib.Data.List.Nodup
import Defeasible.Proofs.Storage

/-!
Restoring from a snapshot. Loading what a knowledge base lists puts every entry at the end
of what is loaded already, because the listing ascends and lists no timed fact twice. A
knowledge base therefore comes back from its own snapshot as it was, provided that the
check for facts, which loading applies to the derived facts as well, lets all of them pass.
-/

namespace Defeasible

variable {Time : Type}

namespace OrderedMap

variable {κ ν : Type} [Ord κ] [Std.TransOrd κ]

/-- A key above all others goes to the end. -/
theorem insertEntry_of_lt {entries : List (κ × ν)} {k : κ} {v : ν}
    (h : ∀ e ∈ entries, compare e.1 k = .lt) : insertEntry k v entries = entries ++ [(k, v)] := by
  induction entries with
  | nil => rfl
  | cons head rest ih =>
      have hgt : compare k head.1 = .gt := Std.OrientedCmp.gt_of_lt (h head (.head _))
      simp only [insertEntry, hgt, ih fun e he => h e (.tail _ he), List.cons_append]

theorem entries_insert_of_prefix {m m' : OrderedMap κ ν} {e : κ × ν} {rest : List (κ × ν)}
    (h : m'.entries = m.entries ++ e :: rest) : (m.insert e.1 e.2).entries = m.entries ++ [e] := by
  have hascending := m'.ascending
  rw [h, List.pairwise_append] at hascending
  exact insertEntry_of_lt fun d hd => hascending.2.2 d hd e (.head _)

theorem get?_eq_none_of_prefix {m m' : OrderedMap κ ν} {e : κ × ν} {rest : List (κ × ν)}
    (h : m'.entries = m.entries ++ e :: rest) : m.get? e.1 = none := by
  have hascending := m'.ascending
  rw [h, List.pairwise_append] at hascending
  rw [get?, Option.map_eq_none_iff, List.find?_eq_none]
  intro d hd heq
  have hlt := hascending.2.2 d hd e (.head _)
  rw [Std.OrientedCmp.gt_of_lt hlt] at heq
  cases heq

end OrderedMap

namespace KnowledgeBase

variable {kb kb' : KnowledgeBase Time} {p : Predicate}

theorem nodup_timed_change (hchange : Change kb kb') (h : kb.timed.Nodup) : kb'.timed.Nodup := by
  cases hchange with
  | @store p _ _ =>
      rw [insertFact]
      split
      · split
        next => exact h
        next hnew =>
          refine h.append (List.nodup_singleton p) fun q hq hp => hnew ?_
          rw [List.contains_iff_mem, ← List.mem_singleton.mp hp]
          exact hq
      · split <;> exact h
  | remove p =>
      rw [removeFact]
      split
      · exact h.filter _
      · exact h
  | derive | amend => exact h
  | clear => exact List.nodup_nil

theorem Reachable.nodup_timed (h : kb.Reachable) : kb.timed.Nodup :=
  h.invariant List.nodup_nil nodup_timed_change

theorem insertAll_cons {f : StoredFact Time} {fs : List (StoredFact Time)}
    (h : validateFact f.predicate = .ok ()) :
    kb.insertAll (f :: fs) = (kb.insertFact f.predicate f.provenance).2.insertAll fs := by
  rw [insertAll, h]
  rfl

theorem deriveAll_cons {ps : List Predicate} (h : validateFact p = .ok ()) :
    kb.deriveAll (p :: ps) = { kb with derived := kb.derived.insert p () }.deriveAll ps := by
  rw [deriveAll, h]
  rfl

/-- Loading ordinary facts in ascending order appends them. -/
theorem insertAll_entries (kb : KnowledgeBase Time)
    {es : List (Predicate × Option (Provenance Time))}
    (hes : ∀ e ∈ es, validateFact e.1 = .ok () ∧ e.1.isTimed = false)
    {m m' : OrderedMap Predicate (Option (Provenance Time))} (hm : m'.entries = m.entries ++ es) :
    insertAll { kb with facts := m } (es.map fun e => ⟨e.1, e.2⟩) =
      .ok { kb with facts := m' } := by
  induction es generalizing m with
  | nil => rw [OrderedMap.eq_of_entries (hm.trans (List.append_nil _))]; rfl
  | cons e es ih =>
      obtain ⟨hvalid, htimed⟩ := hes e (.head _)
      have hinsert : ({ kb with facts := m }.insertFact e.1 e.2).2 =
          { kb with facts := m.insert e.1 e.2 } := by
        simp [insertFact, htimed, OrderedMap.get?_eq_none_of_prefix hm]
      rw [List.map_cons, insertAll_cons hvalid, hinsert]
      refine ih (fun d hd => hes d (.tail _ hd)) ?_
      rw [OrderedMap.entries_insert_of_prefix hm, hm, List.append_assoc]
      rfl

/-- Loading new timed facts appends them. -/
theorem insertAll_timed (kb : KnowledgeBase Time) {ps : List Predicate}
    (hps : ∀ p ∈ ps, validateFact p = .ok () ∧ p.isTimed = true) (hnew : (kb.timed ++ ps).Nodup) :
    kb.insertAll (ps.map fun p => ⟨p, none⟩) = .ok { kb with timed := kb.timed ++ ps } := by
  induction ps generalizing kb with
  | nil => rw [List.append_nil]; rfl
  | cons p ps ih =>
      obtain ⟨hvalid, htimed⟩ := hps p (.head _)
      have hp : p ∉ kb.timed := fun hmem => (List.nodup_append.mp hnew).2.2 p hmem p (.head _) rfl
      have hinsert : (kb.insertFact p none).2 = { kb with timed := kb.timed ++ [p] } := by
        simp [insertFact, htimed, hp]
      have happend : kb.timed ++ p :: ps = (kb.timed ++ [p]) ++ ps := by simp
      rw [happend] at hnew ⊢
      rw [List.map_cons, insertAll_cons hvalid, hinsert]
      exact ih _ (fun q hq => hps q (.tail _ hq)) hnew

/-- Loading derived facts in ascending order appends them. -/
theorem deriveAll_entries (kb : KnowledgeBase Time) {ps : List Predicate}
    (hps : ∀ p ∈ ps, validateFact p = .ok ()) {m m' : OrderedSet Predicate}
    (hm : m'.entries = m.entries ++ ps.map (·, ())) :
    { kb with derived := m }.deriveAll ps = .ok { kb with derived := m' } := by
  induction ps generalizing m with
  | nil => rw [OrderedMap.eq_of_entries (hm.trans (List.append_nil _))]; rfl
  | cons p ps ih =>
      rw [deriveAll_cons (hps p (.head _))]
      refine ih (fun q hq => hps q (.tail _ hq)) ?_
      rw [OrderedMap.entries_insert_of_prefix hm, hm, List.append_assoc]
      rfl

theorem validateFact_of_deriveAll {ps : List Predicate} (h : kb.deriveAll ps = .ok kb') :
    ∀ p ∈ ps, validateFact p = .ok () := by
  induction ps generalizing kb with
  | nil => nofun
  | cons p ps ih =>
      obtain ⟨⟨⟩, hvalid, hrest⟩ := bind_eq_ok.mp h
      exact List.forall_mem_cons.mpr ⟨hvalid, ih hrest⟩

theorem Placed.ofSnapshot_snapshot (h : kb.Placed) (htimed : kb.timed.Nodup)
    (hderived : ∀ p ∈ kb.derived.toList, validateFact p = .ok ()) :
    KnowledgeBase.ofSnapshot kb.snapshot = .ok kb := by
  have hfacts : insertAll {} (kb.facts.entries.map fun e => ⟨e.1, e.2⟩) =
      .ok { facts := kb.facts } :=
    insertAll_entries {} (fun e he => h.facts e.1 (List.mem_map_of_mem he)) rfl
  have htimed := insertAll_timed { facts := kb.facts } h.timed htimed
  have hentries : kb.derived.entries = [] ++ kb.derived.toList.map (·, ()) := by
    simp [OrderedSet.toList, OrderedMap.keys, Function.comp_def]
  have hderived : deriveAll { facts := kb.facts, timed := kb.timed } kb.derived.toList =
      .ok { facts := kb.facts, timed := kb.timed, derived := kb.derived } :=
    deriveAll_entries { facts := kb.facts, timed := kb.timed } hderived hentries
  refine bind_eq_ok.mpr ⟨_, hfacts, bind_eq_ok.mpr ⟨_, htimed, bind_eq_ok.mpr ⟨_, hderived, ?_⟩⟩⟩
  rfl

/-- A knowledge base comes back from its own snapshot exactly if all its derived facts
would pass as facts. -/
theorem ofSnapshot_snapshot_iff (kb : KnowledgeBase Time) (hkb : kb.Reachable) :
    (∃ kb', ofSnapshot kb.snapshot = .ok kb' ∧ kb'.snapshot = kb.snapshot) ↔
      ∀ p ∈ kb.derived.toList, validateFact p = .ok () := by
  constructor
  · rintro ⟨kb', hkb', -⟩
    obtain ⟨kb₁, -, hrest⟩ := bind_eq_ok.mp hkb'
    obtain ⟨kb₂, -, hrest⟩ := bind_eq_ok.mp hrest
    obtain ⟨kb₃, hderived, -⟩ := bind_eq_ok.mp hrest
    exact validateFact_of_deriveAll hderived
  · intro hderived
    exact ⟨kb, hkb.placed.ofSnapshot_snapshot hkb.nodup_timed hderived, rfl⟩

/-- Facts of both kinds, a provenance, an exception, and facts derived by saturation and
by a query all come back. -/
theorem ofSnapshot_snapshot_iff_on_timeline :
    let bird : DefaultRule := ⟨⟨"Bird", [.var "x"]⟩, ⟨"Flies", [.var "x"]⟩, .full⟩
    let kb : KnowledgeBase Nat := (List.foldl Reasoner.serve {}
      [.addFact ⟨"HappensAt", [.app "Login" [.const "UserB"], .const "300"]⟩,
        .addFact ⟨"HappensAt", [.app "Login" [.const "UserA"], .const "100"]⟩,
        .addSourcedFact ⟨"Bird", [.const "Tux"]⟩ ⟨.full, "observer", 0⟩,
        .addRule ⟨⟨"HappensAt", [.app "Login" [.var "u"], .var "t"]⟩, ⟨"Active", [.var "u"]⟩⟩,
        .addDefaultRule bird, .addException ⟨bird, ⟨"Bird", [.const "Tux"]⟩⟩,
        .saturate, .addFact ⟨"Bird", [.const "Tweety"]⟩,
        .prove ⟨"Flies", [.const "Tweety"]⟩]).kb
    kb.derived.toList = [⟨"Active", [.const "UserA"]⟩, ⟨"Active", [.const "UserB"]⟩,
        ⟨"Flies", [.const "Tweety"]⟩] ∧
      ∃ kb', ofSnapshot kb.snapshot = .ok kb' ∧ kb'.snapshot = kb.snapshot := by
  intro bird kb
  have hkb : kb.Reachable := Reachable.empty.foldl_serve (r := {}) _
  have hderived : kb.derived.toList = [⟨"Active", [.const "UserA"]⟩,
      ⟨"Active", [.const "UserB"]⟩, ⟨"Flies", [.const "Tweety"]⟩] := by decide +kernel
  refine ⟨hderived, (ofSnapshot_snapshot_iff kb hkb).mpr ?_⟩
  rw [hderived]
  decide +kernel

/-- A query records what a rule concludes without the check for facts, and loading then
refuses the listing. -/
theorem ofSnapshot_refuses_own_snapshot :
    let kb : KnowledgeBase Nat := (List.foldl Reasoner.serve {}
      [.addRule ⟨⟨"Meeting", [.var "x"]⟩, ⟨"HappensAt", [.var "x", .const "Noon"]⟩⟩,
        .addFact ⟨"Meeting", [.const "Standup"]⟩,
        .prove ⟨"HappensAt", [.const "Standup", .const "Noon"]⟩]).kb
    kb.Reachable ∧ ¬ ∃ kb', ofSnapshot kb.snapshot = .ok kb' := by
  intro kb
  have hfails : (ofSnapshot kb.snapshot).toBool = false := by decide +kernel
  refine ⟨Reachable.empty.foldl_serve (r := {}) _, ?_⟩
  rintro ⟨kb', hkb'⟩
  rw [hkb'] at hfails
  cases hfails

end KnowledgeBase

end Defeasible
