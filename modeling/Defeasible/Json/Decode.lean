import Defeasible.Json.Encode

/-!
Reading values from their JSON form. A value that lacks a field, has it
twice or with another kind, or holds a certainty outside the range from 0 to 1 is
refused as a whole; members that do not belong to it are ignored.
-/

namespace Defeasible

variable {Time : Type}

/-- Decodes every item of an array. -/
def Json.list? {α : Type} (decode : Json → Option α) (j : Json) : Option (List α) :=
  j.items?.bind (·.mapM decode)

/-- The value after its JSON form was written as a text and read back. -/
def Json.throughText? {α : Type} (encode : α → Json) (decode : Json → Option α) (x : α) :
    Option α :=
  if (encode x).isReadable then decode (encode x) else none

def Certainty.ofJson? (j : Json) : Option Certainty :=
  j.single?.bind fun value => (Certainty.ofSingle value).toOption

/-- Decodes a predicate whose arguments are decoded by `term`. -/
def Predicate.ofJsonBy (term : Json → Option Term) (j : Json) : Option Predicate := do
  let name ← (← j.field? ["name", "terms"] "name").string?
  let args ← (← j.field? ["name", "terms"] "terms").list? term
  return ⟨name, args⟩

/-- Decodes a term with at most `depth` terms around its innermost ones. -/
def Term.ofJsonWithin : (reading : Json.Reading) → (depth : Nat) → Json → Option Term
  | _, 0, _ => none
  | reading, depth + 1, j => do
      let (kind, reading, value) ← j.kinded? reading ["variable", "constant", "predicate"]
      if kind = "variable" then value.string?.map .var
      else if kind = "constant" then value.string?.map .const
      else if kind = "predicate" then
        (Predicate.ofJsonBy (Term.ofJsonWithin reading depth) value).map Predicate.toTerm
      else none

/-- Decodes a term. A term is never deeper than its JSON form. -/
def Term.ofJson? (reading : Json.Reading) (j : Json) : Option Term :=
  Term.ofJsonWithin reading j.depth j

def Predicate.ofJson? (reading : Json.Reading) (j : Json) : Option Predicate :=
  Predicate.ofJsonBy (Term.ofJsonWithin reading j.depth) j

def Rule.ofJson? (j : Json) : Option Rule := do
  let fields := ["premise", "conclusion"]
  let premise ← Predicate.ofJson? .strict (← j.field? fields "premise")
  let conclusion ← Predicate.ofJson? .strict (← j.field? fields "conclusion")
  return ⟨premise, conclusion⟩

/-- Decodes a default rule; without a priority it has the full one. -/
def DefaultRule.ofJson? (reading : Json.Reading) (j : Json) : Option DefaultRule := do
  let fields := ["premise", "conclusion", "priority"]
  let premise ← Predicate.ofJson? reading (← j.field? fields "premise")
  let conclusion ← Predicate.ofJson? reading (← j.field? fields "conclusion")
  match j.field? fields "priority" with
  | some priority => return ⟨premise, conclusion, ← Certainty.ofJson? priority⟩
  | none => return ⟨premise, conclusion, .full⟩

def RuleException.ofJson? (j : Json) : Option RuleException := do
  let fields := ["rule", "excluded"]
  let rule ← DefaultRule.ofJson? .strict (← j.field? fields "rule")
  let excluded ← Predicate.ofJson? .strict (← j.field? fields "excluded")
  return ⟨rule, excluded⟩

def TimeOrder.ofJson? (reading : Json.Reading) (j : Json) : Option TimeOrder :=
  match j.tag? reading with
  | some "before" => some .before
  | some "after" => some .after
  | _ => none

def TimeQuery.ofJson? (reading : Json.Reading) (j : Json) : Option TimeQuery := do
  let fields := ["operator", "first", "second"]
  let order ← TimeOrder.ofJson? reading (← j.field? fields "operator")
  let first ← Predicate.ofJson? reading (← j.field? fields "first")
  let second ← Predicate.ofJson? reading (← j.field? fields "second")
  return ⟨order, first, second⟩

def Query.ofJson? (j : Json) : Option Query := do
  match ← j.typed? with
  | ("goal", record) =>
      return .goal (← Predicate.ofJson? .lenient (← record.field? ["goal"] "goal"))
  | ("temporal", record) =>
      return .time (← TimeQuery.ofJson? .lenient (← record.field? ["query"] "query"))
  | _ => none

def Substitution.ofJson? (j : Json) : Option Substitution := do
  let entries ← (← j.members?).mapM fun (v, t) => (Term.ofJson? .strict t).map fun t => (v, t)
  return .ofList entries

def Provenance.ofJson? (times : TimeText Time) (j : Json) : Option (Provenance Time) := do
  let fields := ["certainty", "source", "recorded_at"]
  let certainty ← Certainty.ofJson? (← j.field? fields "certainty")
  let source ← (← j.field? fields "source").string?
  let recordedAt ← times.read? (← (← j.field? fields "recorded_at").string?)
  return ⟨certainty, source, recordedAt⟩

def StoredFact.ofJson? (times : TimeText Time) (j : Json) : Option (StoredFact Time) := do
  let fields := ["predicate", "annotation"]
  let predicate ← Predicate.ofJson? .strict (← j.field? fields "predicate")
  match j.field? fields "annotation" with
  | none | some .null => return ⟨predicate, none⟩
  | some provenance => return ⟨predicate, some (← Provenance.ofJson? times provenance)⟩

def Snapshot.ofJson? (times : TimeText Time) (j : Json) : Option (Snapshot Time) := do
  let fields := ["facts", "temporal_facts", "rules", "default_rules", "derived_facts",
    "exceptions"]
  let facts ← (← j.field? fields "facts").list? (StoredFact.ofJson? times)
  let timed ← (← j.field? fields "temporal_facts").list? (Predicate.ofJson? .strict)
  let rules ← (← j.field? fields "rules").list? Rule.ofJson?
  let defaultRules ← (← j.field? fields "default_rules").list? (DefaultRule.ofJson? .strict)
  let derived ← (← j.field? fields "derived_facts").list? (Predicate.ofJson? .strict)
  let exceptions ← (← j.field? fields "exceptions").list? RuleException.ofJson?
  return { facts, timed, rules, defaultRules, derived, exceptions }

def Statistics.ofJson? (j : Json) : Option Statistics := do
  let fields := ["facts", "temporal_facts", "rules", "default_rules", "derived_facts",
    "exceptions"]
  let facts ← (← j.field? fields "facts").natural?
  let timed ← (← j.field? fields "temporal_facts").natural?
  let rules ← (← j.field? fields "rules").natural?
  let defaultRules ← (← j.field? fields "default_rules").natural?
  let derived ← (← j.field? fields "derived_facts").natural?
  let exceptions ← (← j.field? fields "exceptions").natural?
  return { facts, timed, rules, defaultRules, derived, exceptions }

def Limits.ofJson? (j : Json) : Option Limits := do
  let fields := ["max_depth", "max_steps", "max_saturation_passes"]
  let maxDepth ← (← j.field? fields "max_depth").natural?
  let maxSteps ← (← j.field? fields "max_steps").natural?
  let maxPasses ← (← j.field? fields "max_saturation_passes").natural?
  return { maxDepth, maxSteps, maxPasses }

def Outcome.ofJson? (j : Json) : Option Outcome :=
  match j.tag? .strict with
  | some "proved" => some .proved
  | some "not_proved" => some .notProved
  | some "exhausted" => some .exhausted
  | _ => none

def Reasoning.ofJson? (j : Json) : Option Reasoning :=
  match j.tag? .strict with
  | some "fact" => some .fact
  | some "rule" => some .rule
  | some "default" => some .byDefault
  | some "temporal" => some .time
  | some "none" => some .unproved
  | _ => none

def Answer.ofJson? (j : Json) : Option Answer := do
  let fields := ["outcome", "reasoning", "bindings", "derived", "steps"]
  let outcome ← Outcome.ofJson? (← j.field? fields "outcome")
  let reasoning ← Reasoning.ofJson? (← j.field? fields "reasoning")
  let bindings ← Substitution.ofJson? (← j.field? fields "bindings")
  let derived ← (← j.field? fields "derived").list? (Predicate.ofJson? .strict)
  let steps ← (← j.field? fields "steps").natural?
  return { outcome, reasoning, bindings, derived := .ofList derived, steps }

def Saturation.ofJson? (j : Json) : Option Saturation := do
  let fields := ["derived", "passes", "reached_fixpoint"]
  let derived ← (← j.field? fields "derived").list? (Predicate.ofJson? .strict)
  let passes ← (← j.field? fields "passes").natural?
  let reachedFixpoint ← (← j.field? fields "reached_fixpoint").bool?
  return { derived := .ofList derived, passes, reachedFixpoint }

def ConflictKind.ofJson? (j : Json) : Option ConflictKind := do
  match ← j.typed? with
  | ("direct_contradiction", record) =>
      let fields := ["existing", "existing_certainty"]
      let existing ← Predicate.ofJson? .lenient (← record.field? fields "existing")
      let certainty ← Certainty.ofJson? (← record.field? fields "existing_certainty")
      return .contradiction existing certainty
  | ("default_violation", record) =>
      let fields := ["rule", "premise", "expected"]
      let rule ← DefaultRule.ofJson? .lenient (← record.field? fields "rule")
      let premise ← Predicate.ofJson? .lenient (← record.field? fields "premise")
      let expected ← Predicate.ofJson? .lenient (← record.field? fields "expected")
      return .violation rule premise expected
  | _ => none

end Defeasible
