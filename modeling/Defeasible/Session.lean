import Defeasible.Reasoner

/-!
Sessions: a reasoner behind a store that several callers share. A caller that
breaks off in the middle of a change leaves the store poisoned, and from then on
every access to the knowledge base is refused by the name of the access. What is
checked before the store is touched is still answered, and so is what does not
need it, such as the history of resolutions.
-/

namespace Defeasible

variable {Time : Type}

/-- The ways to get at the knowledge base. -/
inductive Access where
  | addFact
  | addSourcedFact
  | addRule
  | addDefaultRule
  | addException
  | retractFact
  | recordDerived
  | containsFact
  | provenance
  | facts
  | timedFacts
  | rules
  | defaultRules
  | derivedFacts
  | exceptions
  | snapshot
  | statistics
  | saturate
  | resolveConflict
  | assertChecked
  | autoCorrect
deriving DecidableEq, Repr

def Access.name : Access → String
  | .addFact => "kb.add_fact"
  | .addSourcedFact => "kb.add_annotated_fact"
  | .addRule => "kb.add_rule"
  | .addDefaultRule => "kb.add_default_rule"
  | .addException => "kb.add_exception"
  | .retractFact => "kb.retract_fact"
  | .recordDerived => "kb.record_derived"
  | .containsFact => "kb.contains_fact"
  | .provenance => "kb.annotation"
  | .facts => "kb.facts"
  | .timedFacts => "kb.temporal_facts"
  | .rules => "kb.rules"
  | .defaultRules => "kb.default_rules"
  | .derivedFacts => "kb.derived_facts"
  | .exceptions => "kb.exceptions"
  | .snapshot => "kb.snapshot"
  | .statistics => "kb.statistics"
  | .saturate => "inference.saturate"
  | .resolveConflict => "resolver.resolve_conflict"
  | .assertChecked => "resolver.assert_checked"
  | .autoCorrect => "resolver.auto_correct"

structure Session (Time : Type) where
  reasoner : Reasoner Time := {}
  poisoned : Bool := false

namespace Session

/-- Lets an access through unless the store is poisoned. -/
def grant (s : Session Time) (access : Access) : Except Error Unit :=
  if s.poisoned then .error (.internal ("poisoned lock: " ++ access.name)) else .ok ()

/-- Looks at the knowledge base. -/
def view {α : Type} (s : Session Time) (access : Access) (f : KnowledgeBase Time → α) :
    Except Error α := do
  s.grant access
  return f s.reasoner.kb

/-- Lets the reasoner do something that needs the store. -/
def update {α : Type} (s : Session Time) (access : Access) (f : Reasoner Time → α × Reasoner Time) :
    Except Error (α × Session Time) := do
  s.grant access
  let (a, r) := f s.reasoner
  return (a, { s with reasoner := r })

/-- Lets the reasoner do something that it may refuse before it needs the
store. -/
def tryUpdate {α : Type} (s : Session Time) (access : Access)
    (f : Reasoner Time → Except Error (α × Reasoner Time)) : Except Error (α × Session Time) := do
  let (a, r) ← f s.reasoner
  s.grant access
  return (a, { s with reasoner := r })

def addFact (s : Session Time) (p : Predicate) : Except Error (Bool × Session Time) :=
  s.tryUpdate .addFact (·.addFact p)

def addSourcedFact (s : Session Time) (p : Predicate) (provenance : Provenance Time) :
    Except Error (Bool × Session Time) :=
  s.tryUpdate .addSourcedFact (·.addSourcedFact p provenance)

def addRule (s : Session Time) (rule : Rule) : Except Error (Unit × Session Time) :=
  s.update .addRule fun r => ((), r.addRule rule)

def addDefaultRule (s : Session Time) (rule : DefaultRule) : Except Error (Unit × Session Time) :=
  s.update .addDefaultRule fun r => ((), r.addDefaultRule rule)

def addException (s : Session Time) (e : RuleException) : Except Error (Bool × Session Time) :=
  s.tryUpdate .addException (·.addException e)

/-- Reads a statement and adds what it says. -/
def tell (s : Session Time) (text : String) : Except Error (Told × Session Time) := do
  let statement ← Parse.statement text.toList
  let access : Access :=
    match statement with
    | .fact _ => .addFact
    | .rule _ => .addRule
    | .defaultRule _ => .addDefaultRule
  s.tryUpdate access (·.tell statement)

/-- Tells statements one after the other up to the first that fails. What was
told before it stays told. -/
def tellAll (s : Session Time) : List String → Except Error Unit × Session Time
  | [] => (.ok (), s)
  | text :: texts =>
      match s.tell text with
      | .ok (_, s) => s.tellAll texts
      | .error e => (.error e, s)

def retract (s : Session Time) (p : Predicate) : Except Error (Bool × Session Time) :=
  s.update .retractFact (·.retract p)

def recordDerived (s : Session Time) (ps : List Predicate) : Except Error (Nat × Session Time) :=
  s.update .recordDerived (·.recordDerived ps)

def query (s : Session Time) (q : Query) : Except Error (Answer × Session Time) :=
  s.update .snapshot (·.query q)

/-- Reads a query and answers it. -/
def ask (s : Session Time) (text : String) : Except Error (Answer × Session Time) := do
  s.query (← Parse.query text.toList)

def prove (s : Session Time) (goal : Predicate) : Except Error (Answer × Session Time) :=
  s.update .snapshot (·.prove goal)

def proveMonotonic (s : Session Time) (goal : Predicate) : Except Error (Answer × Session Time) :=
  s.update .snapshot (·.proveMonotonic goal)

def saturate (s : Session Time) : Except Error (Saturation × Session Time) :=
  s.update .saturate (·.saturate)

def check (s : Session Time) (candidate : Predicate) (certainty : Certainty) :
    Except Error Report := do
  s.grant .snapshot
  return s.reasoner.check candidate certainty

/-- Applies the plan of a report. A report without conflicts needs no store. -/
def resolve (s : Session Time) (report : Report) : Except Error (Option Record × Session Time) :=
  if report.hasConflicts then s.update .resolveConflict (·.resolve report) else .ok (none, s)

def validate (s : Session Time) (candidate : Predicate) (certainty : Certainty) :
    Except Error Validation := do
  match ← s.reasoner.validate candidate certainty with
  | .belowThreshold certainty threshold => return .belowThreshold certainty threshold
  | validation =>
      s.grant .snapshot
      return validation

def assertChecked (s : Session Time) (candidate : Predicate) (provenance : Provenance Time) :
    Except Error (Assertion × Session Time) := do
  let (assertion, r) ← s.reasoner.assertChecked candidate provenance
  match assertion.validation with
  | .belowThreshold .. => return (assertion, s)
  | _ =>
      s.grant .assertChecked
      return (assertion, { s with reasoner := r })

def sweep (s : Session Time) : Except Error (Sweep × Session Time) :=
  s.update .snapshot (·.sweep)

def autoCorrect (s : Session Time) : Except Error (Correction × Session Time) :=
  s.update .autoCorrect (·.autoCorrect)

def history (s : Session Time) : List Record := s.reasoner.history

def status (s : Session Time) : Except Error Status := do
  s.grant .statistics
  return s.reasoner.status

/-- Breaks off in the middle of a change. -/
def poison (s : Session Time) : Except Error (Session Time) := do
  s.grant .recordDerived
  return { s with poisoned := true }

/-- A fresh session with the same configuration over the snapshot. -/
def restore (s : Session Time) (snapshot : Snapshot Time) : Except Error (Session Time) := do
  return { reasoner := ← s.reasoner.restore snapshot }

end Session

end Defeasible
