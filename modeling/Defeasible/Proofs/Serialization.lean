import Defeasible.Json.Decode
import Defeasible.Proofs.Instance
import Defeasible.Proofs.Lookup
import Defeasible.Proofs.Magnitude

/-!
The JSON form of values. It is read back as the value it came from, provided that the
certainties and times in the value are read back from what they are written by. Its text is
read back unless arrays and objects are nested too deeply in it. Conversely a certainty in a
decoded value is the number that the JSON holds in its place, so a number outside the range
from 0 to 1 is never let in, and never replaced by one within it.
-/

namespace Defeasible

variable {Time : Type}

section Arrays

variable {α β : Type} {encode : α → β} {decode : β → Option α} {xs : List α} {ys : List β}

theorem mapM_map_eq_some (h : ∀ x ∈ xs, decode (encode x) = some x) :
    (xs.map encode).mapM decode = some xs := by
  induction xs with
  | nil => rfl
  | cons x xs ih =>
      obtain ⟨hx, hxs⟩ := List.forall_mem_cons.mp h
      simp [hx, ih hxs]

theorem exists_mem_of_mapM_eq_some (h : ys.mapM decode = some xs) {x : α} (hx : x ∈ xs) :
    ∃ y ∈ ys, decode y = some x := by
  induction ys generalizing xs with
  | nil =>
    cases h
    cases hx
  | cons y ys ih =>
      simp only [List.mapM_cons, Option.bind_eq_bind, Option.bind_eq_some_iff, Option.pure_def,
        Option.some_inj] at h
      obtain ⟨z, hz, zs, hzs, rfl⟩ := h
      rcases List.mem_cons.mp hx with rfl | hx
      · exact ⟨y, .head _, hz⟩
      · obtain ⟨w, hw, hdecode⟩ := ih hzs hx
        exact ⟨w, .tail _ hw, hdecode⟩

theorem Json.list?_list {encode : α → Json} {decode : Json → Option α}
    (h : ∀ x ∈ xs, decode (encode x) = some x) : (Json.list encode xs).list? decode = some xs :=
  mapM_map_eq_some h

theorem Json.depthItems_le_iff {items : List Json} {n : Nat} :
    Json.depthItems items ≤ n ↔ ∀ j ∈ items, j.depth ≤ n := by
  induction items with
  | nil => simp [Json.depthItems]
  | cons j items ih => rw [Json.depthItems, Nat.max_le, ih, List.forall_mem_cons]

theorem Json.depth_list_le {encode : α → Json} {n : Nat}
    (h : ∀ x ∈ xs, (encode x).depth ≤ n) : (Json.list encode xs).depth ≤ n + 1 :=
  Nat.succ_le_succ (Json.depthItems_le_iff.mpr (List.forall_mem_map.mpr h))

end Arrays

namespace Json

section Members

variable {fields : List String} {name : String} {members : List (String × Json)}

@[simp] theorem memberOnce?_of_nodup (h : (members.map Prod.fst).Nodup) :
    memberOnce? fields name members = members.lookup name := if_pos (h.filter _)

@[simp] theorem field?_object :
    (object members).field? fields name = memberOnce? fields name members := rfl

@[simp] theorem string?_string : (string name).string? = some name := rfl

@[simp] theorem kinded?_object {reading : Reading} {kinds : List String} {content : Json} :
    kinded? reading kinds (object [("kind", string name), ("value", content)]) =
      some (name, reading, content) := by
  simp [kinded?, List.lookup_cons, tag?, contentReading]

@[simp] theorem typed?_object {type : String}
    (h : ((("type", string type) :: members).map Prod.fst).Nodup) :
    typed? (object (("type", string type) :: members)) =
      some (type, object (("type", string type) :: members)) := by
  simp [typed?, memberOnce?_of_nodup h]

end Members

section Texts

variable {α : Type} {encode : α → Json} {decode : Json → Option α} {x : α}

/-- The value comes back from its JSON form, and from the text of that form unless the text
is nested too deeply to be read. -/
structure Restores (encode : α → Json) (decode : Json → Option α) (x : α) : Prop where
  form : decode (encode x) = some x
  text : throughText? encode decode x = if (encode x).isReadable then some x else none

theorem restores_of_form (h : decode (encode x) = some x) : Restores encode decode x :=
  ⟨h, by rw [throughText?, h]⟩

end Texts

end Json

namespace Term

theorem toJsonList_eq_map (ts : List Term) : toJsonList ts = ts.map toJson := by
  induction ts with
  | nil => rfl
  | cons t ts ih => rw [toJsonList, ih, List.map_cons]

theorem depth_toJson_le {t : Term} {ts : List Term} (h : t ∈ ts) :
    t.toJson.depth ≤ Json.depthItems (toJsonList ts) :=
  Json.depthItems_le_iff.mp (Nat.le_refl _) _ (toJsonList_eq_map ts ▸ List.mem_map_of_mem h)

mutual

/-- The number of applications around the innermost name. -/
def nesting : Term → Nat
  | .var _ | .const _ => 0
  | .app _ args => nestingList args + 1

def nestingList : List Term → Nat
  | [] => 0
  | t :: ts => max t.nesting (nestingList ts)

end

theorem depthItems_toJsonList_bounds {ts : List Term}
    (h : ∀ t ∈ ts, 3 * t.nesting ≤ t.toJson.depth ∧ t.toJson.depth ≤ 3 * t.nesting + 1) :
    3 * nestingList ts ≤ Json.depthItems (toJsonList ts) ∧
      Json.depthItems (toJsonList ts) ≤ 3 * nestingList ts + 1 := by
  induction ts with
  | nil => simp [nestingList, toJsonList, Json.depthItems]
  | cons t ts ih =>
      obtain ⟨ht, hts⟩ := List.forall_mem_cons.mp h
      have hrest := ih hts
      simp only [nestingList, toJsonList, Json.depthItems]
      omega

/-- Each application brings three arrays and objects, and a name one more. -/
theorem depth_toJson_bounds (t : Term) :
    3 * t.nesting ≤ t.toJson.depth ∧ t.toJson.depth ≤ 3 * t.nesting + 1 := by
  induction t with
  | var v | const v => simp [nesting, toJson, Json.depth, Json.depthMembers]
  | app f args ih =>
      have hargs := depthItems_toJsonList_bounds ih
      simp only [nesting, toJson, Json.depth, Json.depthMembers]
      omega

theorem isReadable_toJson_iff {t : Term} : t.toJson.isReadable = true ↔ t.nesting ≤ 42 := by
  have hbounds := t.depth_toJson_bounds
  rw [Json.isReadable, decide_eq_true_iff]
  omega

end Term

theorem Predicate.depth_toJson_le (p : Predicate) : p.toJson.depth ≤ 3 * p.toTerm.nesting := by
  have hbounds := p.toTerm.depth_toJson_bounds
  simp only [toTerm, Term.toJson, Json.depth, Json.depthMembers] at hbounds
  simp only [toTerm, toJson, Json.depth, Json.depthMembers]
  omega

section Depths

variable {n : Nat}

@[simp] theorem Certainty.depth_toJson (c : Certainty) : c.toJson.depth = 0 := by
  rw [toJson]
  cases c.toSingle with
  | nan | infinite => rfl
  | finite negative rank =>
      rw [Single.toJson]
      split <;> rfl

theorem Rule.depth_toJson_le (r : Rule) (hpremise : r.premise.toJson.depth ≤ n)
    (hconclusion : r.conclusion.toJson.depth ≤ n) : r.toJson.depth ≤ n + 1 := by
  simp only [toJson, Json.depth, Json.depthMembers]
  omega

theorem DefaultRule.depth_toJson_le (r : DefaultRule) (hpremise : r.premise.toJson.depth ≤ n)
    (hconclusion : r.conclusion.toJson.depth ≤ n) : r.toJson.depth ≤ n + 1 := by
  simp only [toJson, Json.depth, Json.depthMembers, Certainty.depth_toJson]
  omega

theorem RuleException.depth_toJson_le (e : RuleException)
    (hpremise : e.rule.premise.toJson.depth ≤ n) (hconclusion : e.rule.conclusion.toJson.depth ≤ n)
    (hexcluded : e.excluded.toJson.depth ≤ n) : e.toJson.depth ≤ n + 2 := by
  have hrule := e.rule.depth_toJson_le hpremise hconclusion
  simp only [toJson, Json.depth, Json.depthMembers]
  omega

theorem StoredFact.depth_toJson_le {times : TimeText Time} (f : StoredFact Time)
    (h : f.predicate.toJson.depth ≤ n) (hn : 1 ≤ n) : (f.toJson times).depth ≤ n + 1 := by
  have hprovenance (a : Provenance Time) : (a.toJson times).depth = 1 := by
    simp only [Provenance.toJson, Json.depth, Json.depthMembers, Certainty.depth_toJson]
    rfl
  cases hf : f.provenance <;>
    simp only [toJson, hf, Option.map_none, Option.map_some, Option.toList_none,
      Option.toList_some, Json.depth, Json.depthMembers, hprovenance] <;>
    omega

end Depths

namespace Predicate

theorem ofJsonBy_toJson {term : Json → Option Term} {p : Predicate}
    (h : ∀ t ∈ p.args, term t.toJson = some t) : ofJsonBy term p.toJson = some p := by
  have hargs : (Json.array (Term.toJsonList p.args)).list? term = some p.args := by
    rw [Term.toJsonList_eq_map]
    exact Json.list?_list h
  simp [ofJsonBy, toJson, List.lookup_cons, hargs]

end Predicate

namespace Term

variable {reading : Json.Reading}

/-- A term is read back as soon as the bound covers the depth of its JSON form, which has
three arrays and objects for each application. -/
theorem ofJsonWithin_toJson {t : Term} {d : Nat} (h : t.toJson.depth ≤ d) :
    ofJsonWithin reading d t.toJson = some t := by
  induction t generalizing d with
  | var v | const v =>
      simp only [toJson, Json.depth, Json.depthMembers] at h
      cases d with
      | zero => omega
      | succ d => simp [ofJsonWithin, toJson]
  | app f args ih =>
      simp only [toJson, Json.depth, Json.depthMembers] at h
      cases d with
      | zero => omega
      | succ d =>
          have hargs : ∀ a ∈ args, ofJsonWithin reading d a.toJson = some a := by
            -- The bound falls by one where the depth falls by three.
            intro a ha
            have hdepth := depth_toJson_le ha
            exact ih a ha (by omega)
          have hpredicate := Predicate.ofJsonBy_toJson (p := ⟨f, args⟩) hargs
          rw [Predicate.toJson] at hpredicate
          simp [ofJsonWithin, toJson, hpredicate, Predicate.toTerm]

@[simp] theorem ofJson?_toJson (t : Term) : ofJson? reading t.toJson = some t :=
  ofJsonWithin_toJson (Nat.le_refl _)

end Term

section Records

variable {reading : Json.Reading}

@[simp] theorem Predicate.ofJson?_toJson (p : Predicate) : ofJson? reading p.toJson = some p := by
  refine ofJsonBy_toJson fun t ht => Term.ofJsonWithin_toJson ?_
  have hdepth := Term.depth_toJson_le ht
  simp only [toJson, Json.depth, Json.depthMembers]
  omega

@[simp] theorem Rule.ofJson?_toJson (r : Rule) : ofJson? r.toJson = some r := by
  simp [ofJson?, toJson, List.lookup_cons]

/-- The certainty is read back from the decimal it is written by. -/
def Certainty.ReadsBack (c : Certainty) : Prop := c.toJson.single? = some c.toSingle

instance (c : Certainty) : Decidable c.ReadsBack :=
  inferInstanceAs (Decidable (c.toJson.single? = some c.toSingle))

theorem Certainty.ReadsBack.ofJson?_toJson {c : Certainty} (h : c.ReadsBack) :
    ofJson? c.toJson = some c := by
  rw [ofJson?, h, Option.bind_some, ofSingle_toSingle]
  rfl

theorem DefaultRule.ofJson?_toJson {r : DefaultRule} (h : r.priority.ReadsBack) :
    ofJson? reading r.toJson = some r := by
  simp [ofJson?, toJson, List.lookup_cons, h.ofJson?_toJson]

theorem RuleException.ofJson?_toJson {e : RuleException} (h : e.rule.priority.ReadsBack) :
    ofJson? e.toJson = some e := by
  simp [ofJson?, toJson, List.lookup_cons, DefaultRule.ofJson?_toJson h]

@[simp] theorem TimeOrder.ofJson?_toJson (o : TimeOrder) : ofJson? reading o.toJson = some o := by
  cases o <;> rfl

@[simp] theorem TimeQuery.ofJson?_toJson (q : TimeQuery) : ofJson? reading q.toJson = some q := by
  simp [ofJson?, toJson, List.lookup_cons]

theorem Query.ofJson?_toJson (q : Query) : ofJson? q.toJson = some q := by
  cases q <;> simp [ofJson?, toJson, List.lookup_cons]

theorem Substitution.ofJson?_toJson (s : Substitution) : ofJson? s.toJson = some s := by
  have hentries : (s.entries.map fun e => (e.1, e.2.toJson)).mapM
      (fun e => (Term.ofJson? .strict e.2).map fun t => (e.1, t)) = some s.entries :=
    mapM_map_eq_some fun e _ => by rw [Term.ofJson?_toJson, Option.map_some]
  simp [ofJson?, toJson, Json.members?, hentries, OrderedMap.ofList_entries]

/-- The time is read back from the text it is written as. -/
def TimeText.ReadsBack (times : TimeText Time) (t : Time) : Prop :=
  times.read? (times.write t) = some t

instance [DecidableEq Time] (times : TimeText Time) (t : Time) : Decidable (times.ReadsBack t) :=
  inferInstanceAs (Decidable (times.read? (times.write t) = some t))

variable {times : TimeText Time}

theorem Provenance.ofJson?_toJson {a : Provenance Time} (hcertainty : a.certainty.ReadsBack)
    (htime : times.ReadsBack a.recordedAt) : ofJson? times (a.toJson times) = some a := by
  rw [TimeText.ReadsBack] at htime
  simp [ofJson?, toJson, List.lookup_cons, hcertainty.ofJson?_toJson, htime]

theorem StoredFact.ofJson?_toJson {f : StoredFact Time}
    (hcertainty : ∀ a ∈ f.provenance, a.certainty.ReadsBack)
    (htime : ∀ a ∈ f.provenance, times.ReadsBack a.recordedAt) :
    ofJson? times (f.toJson times) = some f := by
  obtain ⟨p, _ | a⟩ := f
  · simp [ofJson?, toJson, List.lookup_cons]
  · have hprovenance := Provenance.ofJson?_toJson (hcertainty a rfl) (htime a rfl)
    -- An object is not taken for the null of a missing provenance.
    obtain ⟨members, hmembers⟩ : ∃ members, a.toJson times = .object members := ⟨_, rfl⟩
    rw [hmembers] at hprovenance
    simp [ofJson?, toJson, List.lookup_cons, hmembers, hprovenance]

end Records

namespace Snapshot

/-- The provenances that the snapshot holds. -/
def provenances (s : Snapshot Time) : List (Provenance Time) :=
  s.facts.filterMap StoredFact.provenance

/-- The certainties and priorities that the snapshot holds. -/
def certainties (s : Snapshot Time) : List Certainty :=
  s.provenances.map Provenance.certainty
    ++ s.defaultRules.map DefaultRule.priority ++ s.exceptions.map fun e => e.rule.priority

variable {s : Snapshot Time} {times : TimeText Time}

theorem ofJson?_toJson (hcertainties : ∀ c ∈ s.certainties, c.ReadsBack)
    (htimes : ∀ a ∈ s.provenances, times.ReadsBack a.recordedAt) :
    ofJson? times (s.toJson times) = some s := by
  simp only [certainties, List.forall_mem_append, List.forall_mem_map] at hcertainties
  obtain ⟨⟨hprovenances, hpriorities⟩, hexcepted⟩ := hcertainties
  have hpredicates (ps : List Predicate) :
      (Json.list Predicate.toJson ps).list? (Predicate.ofJson? .strict) = some ps :=
    Json.list?_list fun p _ => p.ofJson?_toJson
  have hmem {f : StoredFact Time} (hf : f ∈ s.facts) : ∀ a ∈ f.provenance, a ∈ s.provenances :=
    fun _ ha => List.mem_filterMap.mpr ⟨f, hf, ha⟩
  have hfacts := Json.list?_list fun f hf => StoredFact.ofJson?_toJson
    (fun a ha => hprovenances a (hmem hf a ha)) (fun a ha => htimes a (hmem hf a ha))
  have hrules := Json.list?_list fun r (_ : r ∈ s.rules) => r.ofJson?_toJson
  have hdefaults : (Json.list DefaultRule.toJson s.defaultRules).list?
      (DefaultRule.ofJson? .strict) = some s.defaultRules :=
    Json.list?_list fun r hr => DefaultRule.ofJson?_toJson (hpriorities r hr)
  have hexceptions := Json.list?_list fun e he => RuleException.ofJson?_toJson (hexcepted e he)
  simp [ofJson?, toJson, List.lookup_cons, hpredicates, hfacts, hrules, hdefaults, hexceptions]

/-- The predicates that the snapshot holds. -/
def allPredicates (s : Snapshot Time) : List Predicate :=
  s.predicates ++ s.timed ++ s.derived ++ s.rules.flatMap (fun r => [r.premise, r.conclusion])
    ++ s.defaultRules.flatMap (fun r => [r.premise, r.conclusion])
    ++ s.exceptions.flatMap fun e => [e.rule.premise, e.rule.conclusion, e.excluded]

/-- An exception has the most around its predicates: its rule, itself, a list and the
snapshot. -/
theorem isReadable_toJson (h : ∀ p ∈ s.allPredicates, p.toTerm.nesting ≤ 41) :
    (s.toJson times).isReadable = true := by
  have hdepth : ∀ p ∈ s.allPredicates, p.toJson.depth ≤ 123 :=
    fun p hp => p.depth_toJson_le.trans (Nat.mul_le_mul_left 3 (h p hp))
  simp only [allPredicates, predicates, List.forall_mem_append, List.forall_mem_map,
    List.forall_mem_flatMap, List.forall_mem_cons] at hdepth
  obtain ⟨⟨⟨⟨⟨hfacts, htimed⟩, hderived⟩, hrules⟩, hdefaults⟩, hexceptions⟩ := hdepth
  have hf : (Json.list (StoredFact.toJson times) s.facts).depth ≤ 125 :=
    Json.depth_list_le fun f hf => f.depth_toJson_le (hfacts f hf) (by decide)
  have ht : (Json.list Predicate.toJson s.timed).depth ≤ 124 := Json.depth_list_le htimed
  have hd : (Json.list Predicate.toJson s.derived).depth ≤ 124 := Json.depth_list_le hderived
  have hr : (Json.list Rule.toJson s.rules).depth ≤ 125 :=
    Json.depth_list_le fun r hr => r.depth_toJson_le (hrules r hr).1 (hrules r hr).2.1
  have hdr : (Json.list DefaultRule.toJson s.defaultRules).depth ≤ 125 :=
    Json.depth_list_le fun r hr => r.depth_toJson_le (hdefaults r hr).1 (hdefaults r hr).2.1
  have he : (Json.list RuleException.toJson s.exceptions).depth ≤ 126 :=
    Json.depth_list_le fun e he =>
      e.depth_toJson_le (hexceptions e he).1 (hexceptions e he).2.1 (hexceptions e he).2.2.1
  rw [Json.isReadable, decide_eq_true_iff]
  simp only [toJson, Json.depth, Json.depthMembers]
  omega

end Snapshot

namespace Json

variable {α : Type} {j k l : Json} {fields : List String} {name : String}

/-- The value is the other one or stands in one of its items or members. -/
inductive Within (k : Json) : Json → Prop where
  | self : Within k k
  | item {items : List Json} {j : Json} (hj : j ∈ items) (h : Within k j) :
      Within k (.array items)
  | member {members : List (String × Json)} {name : String} {j : Json}
      (hj : (name, j) ∈ members) (h : Within k j) : Within k (.object members)

theorem Within.trans (hkj : k.Within j) (hjl : j.Within l) : k.Within l := by
  induction hjl with
  | self => exact hkj
  | item hj _ ih => exact .item hj ih
  | member hj _ ih => exact .member hj ih

theorem mem_of_lookup {members : List (String × Json)} (h : members.lookup name = some k) :
    (name, k) ∈ members := by
  obtain ⟨before, after, rfl, -⟩ := List.lookup_eq_some_iff.mp h
  exact List.mem_append_right before (.head after)

theorem within_of_field? (h : j.field? fields name = some k) : k.Within j := by
  cases j with
  | object members =>
      rw [field?, memberOnce?] at h
      split at h
      · exact .member (mem_of_lookup h) .self
      · cases h
  | array items =>
      rw [field?] at h
      split at h
      · exact .item (List.of_mem_zip (mem_of_lookup h)).2 .self
      · cases h
  | null | bool | integer | decimal | string => cases h

theorem exists_within_of_list? {decode : Json → Option α} {xs : List α}
    (h : j.list? decode = some xs) {x : α} (hx : x ∈ xs) : ∃ k, k.Within j ∧ decode k = some x := by
  obtain ⟨items, hitems, hmapM⟩ := Option.bind_eq_some_iff.mp h
  obtain ⟨k, hk, hdecode⟩ := exists_mem_of_mapM_eq_some hmapM hx
  cases j with
  | array =>
      cases hitems
      exact ⟨k, .item hk .self, hdecode⟩
  | null | bool | integer | decimal | string | object => cases hitems

end Json

/-- The JSON value is a number, and this is its nearest single-precision one. -/
def Json.Holds (j : Json) (q : ℚ) : Prop := ∃ x, j.single? = some x ∧ x.number? = some q

/-- The certainty is the number in its field of the record. -/
def Provenance.StatedIn (a : Provenance Time) (j : Json) : Prop :=
  ∃ k, j.field? ["certainty", "source", "recorded_at"] "certainty" = some k ∧
    k.Holds a.certainty.number

/-- The priority is the number in its field of the record, or full if there is no such
field. -/
def DefaultRule.StatedIn (r : DefaultRule) (j : Json) : Prop :=
  match j.field? ["premise", "conclusion", "priority"] "priority" with
  | some k => k.Holds r.priority.number
  | none => r.priority = .full

section Range

variable {j : Json} {reading : Json.Reading} {times : TimeText Time}

theorem Certainty.ofJson?_eq_some_iff {c : Certainty} :
    ofJson? j = some c ↔ j.Holds c.number := by
  simp only [ofJson?, Option.bind_eq_some_iff, Json.Holds, ← ofSingle_eq_ok_iff]
  refine exists_congr fun x => and_congr_right fun _ => ?_
  cases ofSingle x <;> simp [Except.toOption]

/-- What is refused as a certainty is no number, or one outside the range. -/
theorem Certainty.ofJson?_eq_none_iff :
    ofJson? j = none ↔ ∀ q, j.Holds q → q < 0 ∨ 1 < q := by
  have hvalue (x : Single) :
      (ofSingle x).toOption = none ↔ ∀ q, x.number? = some q → q < 0 ∨ 1 < q := by
    have haccepted := not_congr (exists_ofSingle_eq_ok_iff (x := x))
    have hnone : (ofSingle x).toOption = none ↔ ¬ ∃ c, ofSingle x = .ok c := by
      cases ofSingle x <;> simp [Except.toOption]
    rw [hnone, haccepted]
    simp only [not_exists, not_and_or, imp_iff_not_or, not_le]
  rw [ofJson?, Option.bind_eq_none_iff]
  simp only [hvalue, Json.Holds]
  exact ⟨fun h q ⟨x, hx, hq⟩ => h x hx q hq, fun h x hx q hq => h q ⟨x, hx, hq⟩⟩

theorem DefaultRule.statedIn_of_ofJson? {r : DefaultRule} (h : ofJson? reading j = some r) :
    r.StatedIn j := by
  simp only [ofJson?, Option.bind_eq_bind, Option.bind_eq_some_iff, Option.pure_def] at h
  obtain ⟨_, -, _, -, _, -, _, -, h⟩ := h
  cases hk : j.field? ["premise", "conclusion", "priority"] "priority" with
  | some k =>
      rw [hk] at h
      obtain ⟨c, hc, hr⟩ := Option.bind_eq_some_iff.mp h
      cases hr
      rw [StatedIn, hk]
      exact Certainty.ofJson?_eq_some_iff.mp hc
  | none =>
      rw [hk] at h
      cases h
      rw [StatedIn, hk]

theorem RuleException.statedIn_of_ofJson? {e : RuleException} (h : ofJson? j = some e) :
    ∃ k, k.Within j ∧ e.rule.StatedIn k := by
  simp only [ofJson?, Option.bind_eq_bind, Option.bind_eq_some_iff, Option.pure_def] at h
  obtain ⟨k, hk, r, hr, _, -, _, -, h⟩ := h
  cases h
  exact ⟨k, Json.within_of_field? hk, DefaultRule.statedIn_of_ofJson? hr⟩

theorem Provenance.statedIn_of_ofJson? {a : Provenance Time} (h : ofJson? times j = some a) :
    a.StatedIn j := by
  simp only [ofJson?, Option.bind_eq_bind, Option.bind_eq_some_iff, Option.pure_def] at h
  obtain ⟨k, hk, c, hc, _, -, _, -, _, -, _, -, _, -, h⟩ := h
  cases h
  exact ⟨k, hk, Certainty.ofJson?_eq_some_iff.mp hc⟩

theorem StoredFact.statedIn_of_ofJson? {f : StoredFact Time} (h : ofJson? times j = some f) :
    ∀ a ∈ f.provenance, ∃ k, k.Within j ∧ a.StatedIn k := by
  simp only [ofJson?, Option.bind_eq_bind, Option.bind_eq_some_iff, Option.pure_def] at h
  obtain ⟨_, -, _, -, h⟩ := h
  split at h
  next => cases h; nofun
  next => cases h; nofun
  next k _ hk =>
    obtain ⟨b, hb, hf⟩ := Option.bind_eq_some_iff.mp h
    cases hf
    rintro a ⟨⟩
    exact ⟨k, Json.within_of_field? hk, Provenance.statedIn_of_ofJson? hb⟩

/-- Every certainty and priority of a decoded snapshot is stated in its place. -/
theorem Snapshot.statedIn_of_ofJson? {s : Snapshot Time} (h : ofJson? times j = some s) :
    (∀ f ∈ s.facts, ∀ a ∈ f.provenance, ∃ k, k.Within j ∧ a.StatedIn k) ∧
    (∀ r ∈ s.defaultRules, ∃ k, k.Within j ∧ r.StatedIn k) ∧
    ∀ e ∈ s.exceptions, ∃ k, k.Within j ∧ e.rule.StatedIn k := by
  simp only [ofJson?, Option.bind_eq_bind, Option.bind_eq_some_iff, Option.pure_def] at h
  obtain ⟨jf, hjf, facts, hfacts, _, -, _, -, _, -, _, -, jd, hjd, defaults, hdefaults,
    _, -, _, -, je, hje, exceptions, hexceptions, h⟩ := h
  cases h
  refine ⟨fun f hf a ha => ?_, fun r hr => ?_, fun e he => ?_⟩
  · obtain ⟨k, hk, hdecode⟩ := Json.exists_within_of_list? hfacts hf
    obtain ⟨l, hl, hstated⟩ := StoredFact.statedIn_of_ofJson? hdecode a ha
    exact ⟨l, hl.trans (hk.trans (Json.within_of_field? hjf)), hstated⟩
  · obtain ⟨k, hk, hdecode⟩ := Json.exists_within_of_list? hdefaults hr
    have hstated := DefaultRule.statedIn_of_ofJson? hdecode
    exact ⟨k, hk.trans (Json.within_of_field? hjd), hstated⟩
  · obtain ⟨k, hk, hdecode⟩ := Json.exists_within_of_list? hexceptions he
    obtain ⟨l, hl, hstated⟩ := RuleException.statedIn_of_ofJson? hdecode
    exact ⟨l, hl.trans (hk.trans (Json.within_of_field? hje)), hstated⟩

end Range

/-- Every value is read back from its JSON form, in either reading of the names of
alternatives, and from the text of that form unless it is nested too deeply. A term may hold
42 applications inside each other; 41, each predicate counted as one, are never too many for a
snapshot. Every certainty stands for a number from 0 to 1, and a decoded one for the very
number that the JSON value has in its place. -/
theorem json_reads_back_within_range (times : TimeText Time) (reading : Json.Reading) :
    (∀ t, Json.Restores Term.toJson (Term.ofJson? reading) t ∧
      (t.toJson.isReadable = true ↔ t.nesting ≤ 42)) ∧
    (∀ p, Json.Restores Predicate.toJson (Predicate.ofJson? reading) p) ∧
    (∀ r, Json.Restores Rule.toJson Rule.ofJson? r) ∧
    (∀ r : DefaultRule, r.priority.ReadsBack →
      Json.Restores DefaultRule.toJson (DefaultRule.ofJson? reading) r) ∧
    (∀ q, Json.Restores Query.toJson Query.ofJson? q) ∧
    (∀ s, Json.Restores Substitution.toJson Substitution.ofJson? s) ∧
    (∀ s : Snapshot Time, (∀ c ∈ s.certainties, c.ReadsBack) →
      (∀ a ∈ s.provenances, times.ReadsBack a.recordedAt) →
      Json.Restores (Snapshot.toJson times) (Snapshot.ofJson? times) s) ∧
    (∀ s : Snapshot Time, (∀ p ∈ s.allPredicates, p.toTerm.nesting ≤ 41) →
      (s.toJson times).isReadable = true) ∧
    (∀ c : Certainty, 0 ≤ c.number ∧ c.number ≤ 1) ∧
    (∀ j c, Certainty.ofJson? j = some c ↔ j.Holds c.number) ∧
    (∀ j, Certainty.ofJson? j = none ↔ ∀ q, j.Holds q → q < 0 ∨ 1 < q) ∧
    (∀ j r, DefaultRule.ofJson? reading j = some r → r.StatedIn j) ∧
    ∀ j s, Snapshot.ofJson? times j = some s →
      (∀ f ∈ s.facts, ∀ a ∈ f.provenance, ∃ k, k.Within j ∧ a.StatedIn k) ∧
      (∀ r ∈ s.defaultRules, ∃ k, k.Within j ∧ r.StatedIn k) ∧
      ∀ e ∈ s.exceptions, ∃ k, k.Within j ∧ e.rule.StatedIn k :=
  ⟨fun t => ⟨Json.restores_of_form t.ofJson?_toJson, Term.isReadable_toJson_iff⟩,
    fun p => Json.restores_of_form p.ofJson?_toJson,
    fun r => Json.restores_of_form r.ofJson?_toJson,
    fun _ h => Json.restores_of_form (DefaultRule.ofJson?_toJson h),
    fun q => Json.restores_of_form q.ofJson?_toJson,
    fun s => Json.restores_of_form s.ofJson?_toJson,
    fun _ h htimes => Json.restores_of_form (Snapshot.ofJson?_toJson h htimes),
    fun _ h => Snapshot.isReadable_toJson h,
    fun c => ⟨c.number_nonneg, c.number_le_one⟩, fun _ _ => Certainty.ofJson?_eq_some_iff,
    fun _ => Certainty.ofJson?_eq_none_iff,
    fun _ _ h => DefaultRule.statedIn_of_ofJson? h,
    fun _ _ h => Snapshot.statedIn_of_ofJson? h⟩

/-- A rule and a knowledge base with an exception to it are read back, its fact with the time
it was recorded at. With a priority above 1, or with two priorities, the rule is refused. -/
theorem json_reads_back_flies :
    let write (second : Fin 60) : String := "2024-05-01T12:00:"
      ++ toString (second.val / 10) ++ toString (second.val % 10) ++ "Z"
    let times : TimeText (Fin 60) :=
      ⟨write, fun text => (List.finRange 60).find? fun second => write second = text⟩
    let r : DefaultRule :=
      ⟨⟨"Bird", [.var "x"]⟩, ⟨"Flies", [.var "x"]⟩, ⟨0x3F19999A, by decide⟩⟩
    let tweety : Predicate := ⟨"Bird", [.app "mother" [.const "Tweety"]]⟩
    let s : Snapshot (Fin 60) :=
      { facts := [⟨tweety, some ⟨.full, "watch", 7⟩⟩],
        defaultRules := [r], exceptions := [⟨r, ⟨"Bird", [.const "Pingu"]⟩⟩] }
    let form (priorities : List (String × Json)) : Json :=
      .object (("premise", r.premise.toJson) :: ("conclusion", r.conclusion.toJson) :: priorities)
    r.priority.ReadsBack ∧ DefaultRule.ofJson? .lenient r.toJson = some r ∧ r.StatedIn r.toJson ∧
    (∀ c ∈ s.certainties, c.ReadsBack) ∧ (∀ a ∈ s.provenances, times.ReadsBack a.recordedAt) ∧
    Json.throughText? (Snapshot.toJson times) (Snapshot.ofJson? times) s = some s ∧
    DefaultRule.ofJson? .lenient (form [("priority", .decimal ⟨false, 15, -1⟩)]) = none ∧
    DefaultRule.ofJson? .lenient
      (form [("priority", .decimal ⟨false, 5, -1⟩), ("priority", .decimal ⟨false, 5, -1⟩)]) =
        none := by
  intro write times r tweety s form
  obtain ⟨-, -, -, hdefault, -, -, hsnapshot, hshallow, -, -, -, hstated, -⟩ :=
    json_reads_back_within_range times .lenient
  have hr : r.priority.ReadsBack := by decide +kernel
  have hs : ∀ c ∈ s.certainties, c.ReadsBack := by decide +kernel
  have htimes : ∀ a ∈ s.provenances, times.ReadsBack a.recordedAt := by decide +kernel
  have hform := (hdefault r hr).form
  refine ⟨hr, hform, hstated _ r hform, hs, htimes, ?_, by decide +kernel, by decide +kernel⟩
  rw [(hsnapshot s hs htimes).text, if_pos (hshallow s (by decide +kernel))]

end Defeasible
