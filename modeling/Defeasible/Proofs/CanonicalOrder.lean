import Defeasible.Proofs.ByteOrder
import Defeasible.Proofs.Gate
import Defeasible.Proofs.Independence

/-!
The canonical order as a relation, and the collections that are kept in it. The relation
says which of two terms comes first: variables before constants before applications, names
by their bytes, arguments lexicographically. Comparing decides it, and it is a linear order.
Whatever is stored, recorded and removed, a collection lists the predicates that a set with
the same insertions and removals has, each once and in this order.
-/

namespace Defeasible

variable {Time : Type}

/-- The comparison orders the type linearly, and calls equal what is equal. -/
structure LinearComparison {α : Type} (cmp : α → α → Ordering) : Prop where
  total : ∀ a b, (cmp a b).isLE ∨ (cmp b a).isLE
  antisymm : ∀ a b, (cmp a b).isLE → (cmp b a).isLE → a = b
  trans : ∀ a b c, (cmp a b).isLE → (cmp b c).isLE → (cmp a c).isLE
  swap : ∀ a b, cmp b a = (cmp a b).swap
  eq_iff : ∀ a b, cmp a b = .eq ↔ a = b

theorem linearComparison_compare {α : Type} [Ord α] [Std.TransOrd α] [Std.LawfulEqOrd α] :
    LinearComparison (compare : α → α → Ordering) where
  total a b := by
    rw [Std.OrientedOrd.eq_swap (a := b) (b := a)]
    cases compare a b with
    | lt | eq => exact .inl rfl
    | gt => exact .inr rfl
  antisymm _ _ hab hba := Std.LawfulEqOrd.eq_of_compare (Std.OrientedCmp.isLE_antisymm hab hba)
  trans _ _ _ := Std.TransOrd.isLE_trans
  swap _ _ := Std.OrientedOrd.eq_swap
  eq_iff _ _ := Std.LawfulEqOrd.compare_eq_iff_eq

namespace Term

/-- The first term comes before the second in the canonical order. -/
inductive Precedes : Term → Term → Prop where
  | var {v w : String} : utf8Bytes v < utf8Bytes w → Precedes (.var v) (.var w)
  | const {c d : String} : utf8Bytes c < utf8Bytes d → Precedes (.const c) (.const d)
  | var_const (v c : String) : Precedes (.var v) (.const c)
  | var_app (v f : String) (args : List Term) : Precedes (.var v) (.app f args)
  | const_app (c f : String) (args : List Term) : Precedes (.const c) (.app f args)
  | name {f g : String} (xs ys : List Term) : utf8Bytes f < utf8Bytes g →
      Precedes (.app f xs) (.app g ys)
  | args (f : String) {xs ys : List Term} : List.Lex Precedes xs ys →
      Precedes (.app f xs) (.app f ys)

mutual

theorem compare_eq_lt_iff_precedes (s t : Term) : compare s t = .lt ↔ s.Precedes t := by
  match s, t with
  | .var v, .var w =>
      refine (compare_eq_lt_iff_utf8Bytes_lt v w).trans ⟨.var, fun h => ?_⟩
      cases h with
      | var h => exact h
  | .const c, .const d =>
      refine (compare_eq_lt_iff_utf8Bytes_lt c d).trans ⟨.const, fun h => ?_⟩
      cases h with
      | const h => exact h
  | .app f xs, .app g ys =>
      rw [compare, Ordering.then_eq_lt, compare_eq_lt_iff_utf8Bytes_lt,
        Std.LawfulEqOrd.compare_eq_iff_eq, compareList_eq_lt_iff_lex xs ys]
      constructor
      · rintro (h | ⟨rfl, h⟩)
        · exact .name xs ys h
        · exact .args f h
      · intro h
        cases h with
        | name _ _ h => exact .inl h
        | args _ h => exact .inr ⟨rfl, h⟩
  | .var v, .const c => exact iff_of_true rfl (.var_const v c)
  | .var v, .app f args => exact iff_of_true rfl (.var_app v f args)
  | .const c, .app f args => exact iff_of_true rfl (.const_app c f args)
  | .const _, .var _ | .app .., .var _ | .app .., .const _ => exact iff_of_false nofun nofun

theorem compareList_eq_lt_iff_lex (xs ys : List Term) :
    compareList xs ys = .lt ↔ List.Lex Precedes xs ys := by
  match xs, ys with
  | [], [] | _ :: _, [] => exact iff_of_false nofun nofun
  | [], _ :: _ => exact iff_of_true rfl .nil
  | x :: xs, y :: ys =>
      have heq : compare x y = .eq ↔ x = y :=
        ⟨eq_of_compare x y, fun h => h ▸ compare_self x⟩
      rw [compareList, Ordering.then_eq_lt, compare_eq_lt_iff_precedes x y, heq,
        compareList_eq_lt_iff_lex xs ys, List.cons_lex_cons_iff]

end

end Term

namespace Predicate

/-- The first predicate comes before the second in the canonical order. -/
def Precedes (p q : Predicate) : Prop :=
  utf8Bytes p.name < utf8Bytes q.name ∨ p.name = q.name ∧ List.Lex Term.Precedes p.args q.args

theorem compare_eq_lt_iff_precedes (p q : Predicate) : compare p q = .lt ↔ p.Precedes q := by
  rw [compare, Ordering.then_eq_lt, compare_eq_lt_iff_utf8Bytes_lt,
    Std.LawfulEqOrd.compare_eq_iff_eq, Term.compareList_eq_lt_iff_lex, Precedes]

end Predicate

/-- The listing has the predicates of the set, each once and in ascending order. -/
structure Lists (ps : List Predicate) (S : Set Predicate) : Prop where
  ascending : ps.Pairwise Predicate.Precedes
  once : ps.Nodup
  mem_iff : ∀ p, p ∈ ps ↔ p ∈ S

section Collections

variable {ν : Type} {m : OrderedMap Predicate ν} {S : Set Predicate}

theorem lists_keys (h : ∀ p, p ∈ m.keys ↔ p ∈ S) : Lists m.keys S where
  ascending := List.pairwise_map.mpr
    (m.ascending.imp fun hlt => (Predicate.compare_eq_lt_iff_precedes _ _).mp hlt)
  once := m.nodup_keys
  mem_iff := h

theorem lists_empty : Lists (∅ : OrderedMap Predicate ν).keys ∅ :=
  lists_keys fun p => iff_of_false List.not_mem_nil (Set.notMem_empty p)

theorem Lists.insert (h : Lists m.keys S) (p : Predicate) (v : ν) :
    Lists (m.insert p v).keys (Insert.insert p S) :=
  lists_keys fun q => by rw [OrderedMap.mem_keys_insert, h.mem_iff, Set.mem_insert_iff]

theorem Lists.erase (h : Lists m.keys S) (p : Predicate) : Lists (m.erase p).keys (S \ {p}) := by
  refine lists_keys fun q => ?_
  rw [Set.mem_sdiff, Set.mem_singleton_iff, ← h.mem_iff, OrderedMap.mem_keys_iff,
    OrderedMap.mem_keys_iff, OrderedMap.get?_erase]
  by_cases hq : q = p <;> simp [hq]

end Collections

/-- A change to the ordered collections of a knowledge base. -/
inductive Update (Time : Type) where
  | store (p : Predicate) (provenance : Option (Provenance Time))
  | remove (p : Predicate)
  | record (p : Predicate)
  | derive (p : Predicate)
  | clear

namespace Update

def apply (kb : KnowledgeBase Time) : Update Time → KnowledgeBase Time
  | .store p provenance => (kb.insertFact p provenance).2
  | .remove p => (kb.removeFact p).2
  | .record p => (kb.recordOne p).2
  | .derive p => { kb with derived := kb.derived.insert p () }
  | .clear => {}

/-- What becomes of the set of ordinary facts. Timed facts are kept elsewhere. -/
def facts (S : Set Predicate) : Update Time → Set Predicate
  | .store p _ => if p.isTimed then S else insert p S
  | .remove p => if p.isTimed then S else S \ {p}
  | .record _ | .derive _ => S
  | .clear => ∅

/-- What becomes of the set of derived facts. Nothing with variables is recorded. -/
def derived (S : Set Predicate) : Update Time → Set Predicate
  | .store .. => S
  | .remove p => S \ {p}
  | .record p => if p.isGround then insert p S else S
  | .derive p => insert p S
  | .clear => ∅

variable {kb : KnowledgeBase Time} {S D : Set Predicate}

theorem lists_facts (h : Lists kb.facts.keys S) (update : Update Time) :
    Lists (apply kb update).facts.keys (facts S update) := by
  cases update with
  | store p provenance =>
      rw [apply, KnowledgeBase.insertFact_snd, facts]
      cases p.isTimed with
      | true => exact h
      | false => exact h.insert p _
  | remove p =>
      rw [apply, KnowledgeBase.removeFact_snd, facts]
      cases p.isTimed with
      | true => exact h
      | false => exact h.erase p
  | record p =>
      rw [apply, KnowledgeBase.recordOne]
      split
      · exact h
      · exact h
  | derive => exact h
  | clear => exact lists_empty

theorem lists_derived (h : Lists kb.derived.toList D) (update : Update Time) :
    Lists (apply kb update).derived.toList (derived D update) := by
  cases update with
  | store p provenance =>
      rw [apply, KnowledgeBase.insertFact_snd]
      exact h
  | remove p =>
      rw [apply, KnowledgeBase.removeFact_snd]
      exact h.erase p
  | record p =>
      refine lists_keys fun q => KnowledgeBase.mem_derived_recordOne.trans ?_
      rw [h.mem_iff, derived]
      by_cases hp : p.isGround = true
      · rw [if_pos hp, Set.mem_insert_iff, or_comm, and_iff_left_of_imp]
        rintro rfl
        exact hp
      · rw [if_neg hp, or_iff_left]
        rintro ⟨rfl, hq⟩
        exact hp hq
  | derive p => exact h.insert p ()
  | clear => exact lists_empty

/-- A run of updates is followed by the sets. -/
theorem lists_foldl (hfacts : Lists kb.facts.keys S) (hderived : Lists kb.derived.toList D)
    (updates : List (Update Time)) :
    Lists (updates.foldl apply kb).facts.keys (updates.foldl facts S) ∧
      Lists (updates.foldl apply kb).derived.toList (updates.foldl derived D) := by
  induction updates generalizing kb S D with
  | nil => exact ⟨hfacts, hderived⟩
  | cons update updates ih => exact ih (lists_facts hfacts update) (lists_derived hderived update)

end Update

namespace KnowledgeBase

variable {kb kb' : KnowledgeBase Time}

/-- Updates lead from the empty knowledge base to the same ordered collections. -/
def Collected (kb : KnowledgeBase Time) : Prop :=
  ∃ updates : List (Update Time), kb.facts = (updates.foldl Update.apply {}).facts ∧
    kb.derived = (updates.foldl Update.apply {}).derived

theorem collected_empty : Collected ({} : KnowledgeBase Time) := ⟨[], rfl, rfl⟩

/-- An update of the collections depends on nothing else in the knowledge base. -/
theorem Collected.apply (h : kb.Collected) (update : Update Time) :
    (update.apply kb).Collected := by
  obtain ⟨updates, hfacts, hderived⟩ := h
  refine ⟨updates ++ [update], ?_⟩
  rw [List.foldl_append, List.foldl_cons, List.foldl_nil]
  generalize updates.foldl Update.apply {} = kb' at hfacts hderived ⊢
  cases update with
  | store p provenance =>
      simp only [Update.apply, insertFact_snd, hfacts, hderived, and_self]
  | remove p => simp only [Update.apply, removeFact_snd, hfacts, hderived, and_self]
  | record p =>
      simp only [Update.apply, recordOne, hderived]
      split
      · exact ⟨hfacts, rfl⟩
      · exact ⟨hfacts, hderived⟩
  | derive p => exact ⟨hfacts, congrArg (OrderedMap.insert · p ()) hderived⟩
  | clear => exact ⟨rfl, rfl⟩

theorem Collected.change (hchange : Change kb kb') (h : kb.Collected) : kb'.Collected := by
  cases hchange with
  | @store p provenance _ => exact h.apply (.store p provenance)
  | remove p => exact h.apply (.remove p)
  | @derive p _ => exact h.apply (.derive p)
  | amend => exact h
  | clear => exact collected_empty

theorem Reachable.collected (h : kb.Reachable) : kb.Collected :=
  h.invariant collected_empty Collected.change

end KnowledgeBase

/-- Comparing terms, and predicates, is linear and decides the canonical order. From any
knowledge base on, a run of updates leaves the ordinary and the derived facts listed in
that order, each predicate once, and what is listed is what the same insertions and removals
leave of a set. Requests change the collections by such updates only. -/
theorem compare_linear_and_keeps_listings :
    (LinearComparison Term.compare ∧ ∀ s t, Term.compare s t = .lt ↔ s.Precedes t) ∧
    (LinearComparison Predicate.compare ∧
      ∀ p q, Predicate.compare p q = .lt ↔ p.Precedes q) ∧
    (∀ (kb : KnowledgeBase Time) (updates : List (Update Time)),
      Lists (updates.foldl Update.apply kb).facts.keys
        (updates.foldl Update.facts {p | p ∈ kb.facts.keys}) ∧
      Lists (updates.foldl Update.apply kb).derived.toList
        (updates.foldl Update.derived {p | p ∈ kb.derived.toList})) ∧
    ∀ kb : KnowledgeBase Time, kb.Reachable → kb.Collected :=
  ⟨⟨linearComparison_compare, Term.compare_eq_lt_iff_precedes⟩,
    ⟨linearComparison_compare, Predicate.compare_eq_lt_iff_precedes⟩,
    fun _ => Update.lists_foldl (lists_keys fun _ => .rfl) (lists_keys fun _ => .rfl),
    fun _ => KnowledgeBase.Reachable.collected⟩

/-- The longer argument list comes later, and so does the character whose encoding begins
with the greater byte. -/
theorem compare_linear_and_keeps_listings_after_retraction :
    let told : KnowledgeBase Nat := (List.foldl Reasoner.serve {} [
      .addFact ⟨"Q", [.const "A"]⟩, .addFact ⟨"P", [.const "A", .const "B"]⟩,
      .addFact ⟨"P", [.const "A"]⟩, .addFact ⟨"P", [.const "A"]⟩,
      .retract ⟨"Q", [.const "A"]⟩]).kb
    let updates : List (Update Nat) := [.store ⟨"P", []⟩ none, .remove ⟨"P", [.const "A"]⟩]
    told.facts.keys = [⟨"P", [.const "A"]⟩, ⟨"P", [.const "A", .const "B"]⟩] ∧
      told.Reachable ∧ told.Collected ∧
      (updates.foldl Update.apply told).facts.keys =
        [⟨"P", []⟩, ⟨"P", [.const "A", .const "B"]⟩] ∧
      Lists [⟨"P", []⟩, ⟨"P", [.const "A", .const "B"]⟩]
        (updates.foldl Update.facts {p | p ∈ told.facts.keys}) ∧
      Term.Precedes (.const "\uffff") (.const "😀") := by
  intro told updates
  obtain ⟨⟨-, hprecedes⟩, -, hlists, hcollected⟩ := compare_linear_and_keeps_listings
  have hreachable : told.Reachable := KnowledgeBase.Reachable.empty.foldl_serve (r := {}) _
  have hkeys : (updates.foldl Update.apply told).facts.keys =
      [⟨"P", []⟩, ⟨"P", [.const "A", .const "B"]⟩] := by decide +kernel
  have hlisted := (hlists told updates).1
  rw [hkeys] at hlisted
  exact ⟨by decide +kernel, hreachable, hcollected told hreachable, hkeys, hlisted,
    (hprecedes _ _).mp (by decide)⟩

end Defeasible
