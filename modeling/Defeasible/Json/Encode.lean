import Defeasible.Json.Value
import Defeasible.Session

/-!
The JSON form of values. Alternatives are told apart by a member that names
them, sets are arrays in ascending order, and single-precision numbers are
written by their shortest decimals; JSON has none for infinities.
-/

namespace Defeasible

variable {Time : Type}

namespace Json

/-- A count. -/
def count (n : Nat) : Json := .integer n

def list {α : Type} (encode : α → Json) (values : List α) : Json := .array (values.map encode)

def optional {α : Type} (encode : α → Json) : Option α → Json
  | some value => encode value
  | none => .null

end Json

def Single.toJson : Single → Json
  | .nan | .infinite _ => .null
  | .finite negative rank =>
      if rank.val = 0 then .decimal ⟨negative, 0, 0⟩
      else
        let (coefficient, exponent) := Single.shortest rank.val
        .decimal ⟨negative, coefficient, exponent⟩

def Certainty.toJson (c : Certainty) : Json := c.toSingle.toJson

namespace Term

mutual

def toJson : Term → Json
  | .var v => .object [("kind", .string "variable"), ("value", .string v)]
  | .const c => .object [("kind", .string "constant"), ("value", .string c)]
  | .app f args => .object [("kind", .string "predicate"),
      ("value", .object [("name", .string f), ("terms", .array (toJsonList args))])]

def toJsonList : List Term → List Json
  | [] => []
  | t :: ts => t.toJson :: toJsonList ts

end

end Term

def Predicate.toJson (p : Predicate) : Json :=
  .object [("name", .string p.name), ("terms", .array (Term.toJsonList p.args))]

def Rule.toJson (r : Rule) : Json :=
  .object [("premise", r.premise.toJson), ("conclusion", r.conclusion.toJson)]

def DefaultRule.toJson (r : DefaultRule) : Json :=
  .object [("premise", r.premise.toJson), ("conclusion", r.conclusion.toJson),
    ("priority", r.priority.toJson)]

def RuleException.toJson (e : RuleException) : Json :=
  .object [("rule", e.rule.toJson), ("excluded", e.excluded.toJson)]

def TimeOrder.toJson : TimeOrder → Json
  | .before => .string "before"
  | .after => .string "after"

def TimeQuery.toJson (q : TimeQuery) : Json :=
  .object [("operator", q.order.toJson), ("first", q.first.toJson), ("second", q.second.toJson)]

def Query.toJson : Query → Json
  | .goal p => .object [("type", .string "goal"), ("goal", p.toJson)]
  | .time q => .object [("type", .string "temporal"), ("query", q.toJson)]

def Substitution.toJson (s : Substitution) : Json :=
  .object (s.entries.map fun e => (e.1, e.2.toJson))

/-- How times are written as texts, and read from them. -/
structure TimeText (Time : Type) where
  write : Time → String
  read? : String → Option Time

def Provenance.toJson (times : TimeText Time) (a : Provenance Time) : Json :=
  .object [("certainty", a.certainty.toJson), ("source", .string a.source),
    ("recorded_at", .string (times.write a.recordedAt))]

/-- A fact without provenance has no such member. -/
def StoredFact.toJson (times : TimeText Time) (f : StoredFact Time) : Json :=
  .object (("predicate", f.predicate.toJson)
    :: (f.provenance.map fun a => ("annotation", a.toJson times)).toList)

def Snapshot.toJson (times : TimeText Time) (s : Snapshot Time) : Json :=
  .object [("facts", .list (StoredFact.toJson times) s.facts),
    ("temporal_facts", .list Predicate.toJson s.timed),
    ("rules", .list Rule.toJson s.rules),
    ("default_rules", .list DefaultRule.toJson s.defaultRules),
    ("derived_facts", .list Predicate.toJson s.derived),
    ("exceptions", .list RuleException.toJson s.exceptions)]

def Statistics.toJson (s : Statistics) : Json :=
  .object [("facts", .count s.facts), ("temporal_facts", .count s.timed),
    ("rules", .count s.rules), ("default_rules", .count s.defaultRules),
    ("derived_facts", .count s.derived), ("exceptions", .count s.exceptions)]

def Limits.toJson (l : Limits) : Json :=
  .object [("max_depth", .count l.maxDepth), ("max_steps", .count l.maxSteps),
    ("max_saturation_passes", .count l.maxPasses)]

def Outcome.name : Outcome → String
  | .proved => "proved"
  | .notProved => "not_proved"
  | .exhausted => "exhausted"

def Reasoning.name : Reasoning → String
  | .fact => "fact"
  | .rule => "rule"
  | .byDefault => "default"
  | .time => "temporal"
  | .unproved => "none"

def Answer.toJson (a : Answer) : Json :=
  .object [("outcome", .string a.outcome.name), ("reasoning", .string a.reasoning.name),
    ("bindings", a.bindings.toJson), ("derived", .list Predicate.toJson a.derived.toList),
    ("steps", .count a.steps)]

def Saturation.toJson (s : Saturation) : Json :=
  .object [("derived", .list Predicate.toJson s.derived.toList), ("passes", .count s.passes),
    ("reached_fixpoint", .bool s.reachedFixpoint)]

def ConflictKind.toJson : ConflictKind → Json
  | .contradiction existing existingCertainty =>
      .object [("type", .string "direct_contradiction"), ("existing", existing.toJson),
        ("existing_certainty", existingCertainty.toJson)]
  | .violation rule premise expected =>
      .object [("type", .string "default_violation"), ("rule", rule.toJson),
        ("premise", premise.toJson), ("expected", expected.toJson)]

def Conflict.toJson (c : Conflict) : Json :=
  .object [("candidate", c.candidate.toJson), ("candidate_certainty", c.certainty.toJson),
    ("kind", c.kind.toJson), ("severity", .string c.kind.severity.name)]

def Action.toJson : Action → Json
  | .retract fact => .object [("type", .string "retract_fact"), ("fact", fact.toJson)]
  | .reject fact => .object [("type", .string "reject_candidate"), ("fact", fact.toJson)]
  | .review conflict facts => .object [("type", .string "manual_review"),
      ("conflict", .count conflict), ("facts", .list Predicate.toJson facts)]
  | .except exception => .object [("type", .string "add_exception"),
      ("exception", exception.toJson)]

def Strategy.toJson (s : Strategy) : Json :=
  .object [("actions", .list Action.toJson s.actions),
    ("reasoning", .list .string s.reasoning)]

def Report.toJson (r : Report) : Json :=
  .object [("candidate", r.candidate.toJson), ("certainty", r.certainty.toJson),
    ("conflicts", .list Conflict.toJson r.conflicts), ("strategy", r.strategy.toJson)]

def Validation.toJson : Validation → Json
  | .consistent => .object [("status", .string "consistent")]
  | .belowThreshold certainty threshold => .object [("status", .string "below_threshold"),
      ("certainty", certainty.toJson), ("threshold", threshold.toJson)]
  | .conflicting report => .object [("status", .string "conflicting"), ("report", report.toJson)]

def Record.toJson (r : Record) : Json :=
  .object [("conflicts", .list Conflict.toJson r.conflicts), ("strategy", r.strategy.toJson),
    ("applied", .list .string r.applied)]

def Sweep.toJson (s : Sweep) : Json :=
  .object [("facts_checked", .count s.factsChecked),
    ("inconsistencies", .list Conflict.toJson s.inconsistencies)]

def Correction.toJson (c : Correction) : Json :=
  .object [("sweep", c.sweep.toJson), ("resolution", .optional Record.toJson c.resolution)]

def Assertion.toJson (a : Assertion) : Json :=
  .object [("inserted", .bool a.inserted), ("validation", a.validation.toJson),
    ("resolution", .optional Record.toJson a.resolution)]

end Defeasible
