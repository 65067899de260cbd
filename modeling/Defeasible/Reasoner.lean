import Defeasible.Answer
import Defeasible.Saturation
import Defeasible.Conflict.Detection
import Defeasible.Conflict.Resolution
import Defeasible.Parse.Statement

/-!
A reasoner: a knowledge base that can be told statements and asked queries, and
that keeps its facts free of contradictions where it is asked to. Queries leave
the facts they derived in the knowledge base; resolutions are recorded in a
history that only grows.
-/

namespace Defeasible

variable {Time : Type}

structure Config where
  limits : Limits := {}
  minCertainty : Single := Decimal.toSingle ⟨false, 8, -1⟩
deriving DecidableEq, Repr

/-- The conflicts that a candidate has with the knowledge base, and what would
be done about them. -/
structure Report where
  candidate : Predicate
  certainty : Certainty
  conflicts : List Conflict
  strategy : Strategy
deriving DecidableEq, Repr

def Report.hasConflicts (r : Report) : Bool := !r.conflicts.isEmpty

/-- Whether a candidate may be stored as it is. -/
inductive Validation where
  | consistent
  | belowThreshold (certainty : Certainty) (threshold : Single)
  | conflicting (report : Report)
deriving DecidableEq, Repr

def Validation.isValid : Validation → Bool
  | .consistent => true
  | _ => false

/-- A resolution that was applied, with the changes it made. -/
structure Record where
  conflicts : List Conflict
  strategy : Strategy
  applied : List String
deriving DecidableEq, Repr

structure Sweep where
  factsChecked : Nat
  inconsistencies : List Conflict
deriving DecidableEq, Repr

structure Correction where
  sweep : Sweep
  resolution : Option Record
deriving DecidableEq, Repr

/-- The number of changes made. -/
def Correction.corrections (c : Correction) : Nat :=
  (c.resolution.map fun r => r.applied.length).getD 0

structure Assertion where
  inserted : Bool
  validation : Validation
  resolution : Option Record
deriving DecidableEq, Repr

structure Status where
  defaultRules : Nat
  exceptions : Nat
  resolutions : Nat
  corrections : Nat
  swept : Bool
deriving DecidableEq, Repr

inductive Told where
  | fact (isNew : Bool)
  | rule
  | defaultRule
deriving DecidableEq, Repr

structure Reasoner (Time : Type) where
  kb : KnowledgeBase Time := {}
  config : Config := {}
  generation : Nat := 0
  history : List Record := []
  swept : Bool := false

namespace Reasoner

/-- Stores a fact without provenance and tells whether it is new. -/
def addFact (r : Reasoner Time) (p : Predicate) : Except Error (Bool × Reasoner Time) := do
  validateFact p
  let (isNew, kb) := r.kb.insertFact p none
  return (isNew, { r with kb })

def addSourcedFact (r : Reasoner Time) (p : Predicate) (provenance : Provenance Time) :
    Except Error (Bool × Reasoner Time) := do
  validateFact p
  let (isNew, kb) := r.kb.insertFact p (some provenance)
  return (isNew, { r with kb })

def addRule (r : Reasoner Time) (rule : Rule) : Reasoner Time := { r with kb := r.kb.addRule rule }

def addDefaultRule (r : Reasoner Time) (rule : DefaultRule) : Reasoner Time :=
  { r with kb := r.kb.addDefaultRule rule }

/-- Excepts a ground premise instance and tells whether the exception is new. -/
def addException (r : Reasoner Time) (e : RuleException) : Except Error (Bool × Reasoner Time) :=
  if e.excluded.isGround then
    let (isNew, kb) := r.kb.addException e
    .ok (isNew, { r with kb })
  else .error (.nonGroundFact e.excluded.text)

def retract (r : Reasoner Time) (p : Predicate) : Bool × Reasoner Time :=
  let (removed, kb) := r.kb.removeFact p
  (removed, { r with kb })

def recordDerived (r : Reasoner Time) (ps : List Predicate) : Nat × Reasoner Time :=
  let (count, kb) := r.kb.recordDerived ps
  (count, { r with kb })

def tell (r : Reasoner Time) : Parse.Statement → Except Error (Told × Reasoner Time)
  | .fact p => do
      let (isNew, r) ← r.addFact p
      return (.fact isNew, r)
  | .rule rule => .ok (.rule, r.addRule rule)
  | .defaultRule rule => .ok (.defaultRule, r.addDefaultRule rule)

/-- Answers a goal and records what the answer derived. -/
def proveWith (r : Reasoner Time) (useDefaults : Bool) (goal : Predicate) :
    Answer × Reasoner Time :=
  let (answer, generation) :=
    r.kb.snapshot.prove r.config.limits useDefaults r.generation goal
  let (_, kb) := r.kb.recordDerived answer.derived.toList
  (answer, { r with kb, generation })

/-- Answers a goal by facts, rules and default rules. -/
def prove (r : Reasoner Time) (goal : Predicate) : Answer × Reasoner Time := r.proveWith true goal

/-- Answers a goal by facts and rules only. -/
def proveMonotonic (r : Reasoner Time) (goal : Predicate) : Answer × Reasoner Time :=
  r.proveWith false goal

def query (r : Reasoner Time) : Query → Answer × Reasoner Time
  | .goal goal => r.prove goal
  | .time q => (r.kb.snapshot.decideTime q, r)

def saturate (r : Reasoner Time) : Saturation × Reasoner Time :=
  let (saturation, kb) := r.kb.saturate r.config.limits.maxPasses
  (saturation, { r with kb })

/-- The conflicts of a candidate and their plan. Nothing is changed. -/
def check (r : Reasoner Time) (candidate : Predicate) (certainty : Certainty) : Report :=
  let conflicts := r.kb.snapshot.detect candidate certainty
  ⟨candidate, certainty, conflicts, plan conflicts⟩

/-- Keeps the record of an applied resolution. -/
def addRecord (r : Reasoner Time) (record : Record) : Reasoner Time :=
  { r with history := r.history ++ [record] }

/-- Applies the plan of a report, unless the report has no conflicts. The
knowledge base may have changed since the report was made. -/
def resolve (r : Reasoner Time) (report : Report) : Option Record × Reasoner Time :=
  if report.hasConflicts then
    let (applied, kb) := r.kb.applyStrategy report.strategy
    let record : Record := ⟨report.conflicts, report.strategy, applied⟩
    (some record, { r with kb }.addRecord record)
  else (none, r)

/-- The refusal of a certainty below the threshold. -/
def belowThreshold? (r : Reasoner Time) (certainty : Certainty) : Option Validation :=
  if certainty.isBelow r.config.minCertainty then
    some (.belowThreshold certainty r.config.minCertainty)
  else none

/-- Checks a candidate that is to be stored. Nothing is changed. -/
def validate (r : Reasoner Time) (candidate : Predicate) (certainty : Certainty) :
    Except Error Validation := do
  validateFact candidate
  match r.belowThreshold? certainty with
  | some refusal => return refusal
  | none =>
      let report := r.check candidate certainty
      return if report.hasConflicts then .conflicting report else .consistent

/-- Resolves the conflicts of a candidate and stores it unless the resolution
rejects it. -/
def assertResolved (r : Reasoner Time) (candidate : Predicate) (provenance : Provenance Time) :
    Assertion × Reasoner Time :=
  let report := r.check candidate provenance.certainty
  let (applied, kb) := r.kb.applyStrategy report.strategy
  let (inserted, kb) :=
    if report.strategy.rejects candidate then (false, kb)
    else kb.insertFact candidate (some provenance)
  let r := { r with kb }
  if report.hasConflicts then
    let record : Record := ⟨report.conflicts, report.strategy, applied⟩
    (⟨inserted, .conflicting report, some record⟩, r.addRecord record)
  else (⟨inserted, .consistent, none⟩, r)

/-- Stores a candidate through the gate: it must be a valid fact, reach the
threshold of certainty, and not lose against what is stored. -/
def assertChecked (r : Reasoner Time) (candidate : Predicate) (provenance : Provenance Time) :
    Except Error (Assertion × Reasoner Time) := do
  validateFact candidate
  match r.belowThreshold? provenance.certainty with
  | some refusal => return (⟨false, refusal, none⟩, r)
  | none => return r.assertResolved candidate provenance

/-- The conflicts among the stored facts. -/
def inspect (r : Reasoner Time) : Sweep :=
  ⟨r.kb.facts.size, r.kb.snapshot.detectAll⟩

def sweep (r : Reasoner Time) : Sweep × Reasoner Time := (r.inspect, { r with swept := true })

/-- Resolves the conflicts among the stored facts: the contradictions first, and
then the violations by facts that are still stored. -/
def autoCorrect (r : Reasoner Time) : Correction × Reasoner Time :=
  let sweep := r.inspect
  let (contradictions, violations) := sweep.inconsistencies.partition Conflict.isContradiction
  let first := plan contradictions
  let (retracted, kb) := r.kb.applyStrategy first
  let second := plan (violations.filter fun c => kb.containsFact c.candidate)
  let (excepted, kb) := kb.applyStrategy second
  let r := { r with kb, swept := true }
  if sweep.inconsistencies.isEmpty then (⟨sweep, none⟩, r)
  else
    let record : Record := ⟨sweep.inconsistencies, first ++ second, retracted ++ excepted⟩
    (⟨sweep, some record⟩, r.addRecord record)

def status (r : Reasoner Time) : Status where
  defaultRules := r.kb.defaultRules.length
  exceptions := r.kb.exceptions.length
  resolutions := r.history.length
  corrections := r.history.foldr (fun record n => record.applied.length + n) 0
  swept := r.swept

/-- A new reasoner with the same configuration over the snapshot. -/
def restore (r : Reasoner Time) (s : Snapshot Time) : Except Error (Reasoner Time) := do
  let kb ← KnowledgeBase.ofSnapshot s
  return { kb, config := r.config }

end Reasoner

end Defeasible
