import Defeasible.Term.Order
import Defeasible.OrderedMap
import Defeasible.Rule
import Defeasible.Fact

/-!
Knowledge bases. Ordinary facts form a set, each with the provenance it was last
asserted with; timed facts, rules, default rules and exceptions keep the order
in which they came; facts that answers and saturation derived form a set of
their own. A snapshot lists all of it, and a knowledge base can be built from
any snapshot whose facts are valid.
-/

namespace Defeasible

variable {Time : Type}

/-- A fact and how it was asserted, if that is known. -/
structure StoredFact (Time : Type) where
  predicate : Predicate
  provenance : Option (Provenance Time) := none
deriving DecidableEq, Repr

/-- The weight of the fact; a fact without provenance is certain. -/
def StoredFact.certainty (f : StoredFact Time) : Certainty :=
  (f.provenance.map Provenance.certainty).getD .full

structure Snapshot (Time : Type) where
  facts : List (StoredFact Time) := []
  timed : List Predicate := []
  rules : List Rule := []
  defaultRules : List DefaultRule := []
  derived : List Predicate := []
  exceptions : List RuleException := []
deriving DecidableEq, Repr

namespace Snapshot

/-- The ordinary facts without their provenances. -/
def predicates (kb : Snapshot Time) : List Predicate := kb.facts.map StoredFact.predicate

/-- The default rule is out of force for this premise instance. -/
def isExcepted (kb : Snapshot Time) (rule : DefaultRule) (instanced : Predicate) : Bool :=
  kb.exceptions.any fun e => e.rule = rule && e.excluded = instanced

end Snapshot

structure Statistics where
  facts : Nat
  timed : Nat
  rules : Nat
  defaultRules : Nat
  derived : Nat
  exceptions : Nat
deriving DecidableEq, Repr

structure KnowledgeBase (Time : Type) where
  facts : OrderedMap Predicate (Option (Provenance Time)) := ∅
  timed : List Predicate := []
  rules : List Rule := []
  defaultRules : List DefaultRule := []
  derived : OrderedSet Predicate := ∅
  exceptions : List RuleException := []

namespace KnowledgeBase

instance : Inhabited (KnowledgeBase Time) := ⟨{}⟩

def containsFact (kb : KnowledgeBase Time) (p : Predicate) : Bool :=
  if p.isTimed then kb.timed.contains p else kb.facts.contains p

/-- Stores a valid fact and tells whether it is new. A provenance replaces the
one of a fact already stored; timed facts carry none. -/
def insertFact (kb : KnowledgeBase Time) (p : Predicate) (provenance : Option (Provenance Time)) :
    Bool × KnowledgeBase Time :=
  if p.isTimed then
    if kb.timed.contains p then (false, kb) else (true, { kb with timed := kb.timed ++ [p] })
  else
    match kb.facts.get? p with
    | some old => (false, { kb with facts := kb.facts.insert p (provenance <|> old) })
    | none => (true, { kb with facts := kb.facts.insert p provenance })

/-- Removes a fact, also from the derived ones, and tells whether it was
stored. -/
def removeFact (kb : KnowledgeBase Time) (p : Predicate) : Bool × KnowledgeBase Time :=
  let rest :=
    if p.isTimed then { kb with timed := kb.timed.filter (· != p) }
    else { kb with facts := kb.facts.erase p }
  (kb.containsFact p, { rest with derived := kb.derived.erase p })

def addRule (kb : KnowledgeBase Time) (r : Rule) : KnowledgeBase Time :=
  { kb with rules := kb.rules ++ [r] }

def addDefaultRule (kb : KnowledgeBase Time) (r : DefaultRule) : KnowledgeBase Time :=
  { kb with defaultRules := kb.defaultRules ++ [r] }

/-- Adds an exception unless it is there, and tells whether it is new. -/
def addException (kb : KnowledgeBase Time) (e : RuleException) : Bool × KnowledgeBase Time :=
  if kb.exceptions.contains e then (false, kb)
  else (true, { kb with exceptions := kb.exceptions ++ [e] })

/-- Adds a derived fact unless it has variables, and tells whether it is new. -/
def recordOne (kb : KnowledgeBase Time) (p : Predicate) : Bool × KnowledgeBase Time :=
  if p.isGround && !kb.derived.contains p then
    (true, { kb with derived := kb.derived.insert p () })
  else (false, kb)

/-- Adds derived facts and tells how many of them are new. -/
def recordDerived (kb : KnowledgeBase Time) : List Predicate → Nat × KnowledgeBase Time
  | [] => (0, kb)
  | p :: ps =>
      let (isNew, kb) := kb.recordOne p
      let (count, kb) := kb.recordDerived ps
      (count + if isNew then 1 else 0, kb)

/-- The provenance of an ordinary fact. -/
def provenance? (kb : KnowledgeBase Time) (p : Predicate) : Option (Provenance Time) :=
  (kb.facts.get? p).join

def statistics (kb : KnowledgeBase Time) : Statistics where
  facts := kb.facts.size
  timed := kb.timed.length
  rules := kb.rules.length
  defaultRules := kb.defaultRules.length
  derived := kb.derived.size
  exceptions := kb.exceptions.length

def snapshot (kb : KnowledgeBase Time) : Snapshot Time where
  facts := kb.facts.entries.map fun e => ⟨e.1, e.2⟩
  timed := kb.timed
  rules := kb.rules
  defaultRules := kb.defaultRules
  derived := kb.derived.toList
  exceptions := kb.exceptions

/-- Stores the facts one after the other up to the first that is not valid. -/
def insertAll (kb : KnowledgeBase Time) : List (StoredFact Time) → Except Error (KnowledgeBase Time)
  | [] => .ok kb
  | f :: fs => do
      validateFact f.predicate
      (kb.insertFact f.predicate f.provenance).2.insertAll fs

/-- Adds derived facts one after the other up to the first that is not valid. -/
def deriveAll (kb : KnowledgeBase Time) : List Predicate → Except Error (KnowledgeBase Time)
  | [] => .ok kb
  | p :: ps => do
      validateFact p
      { kb with derived := kb.derived.insert p () }.deriveAll ps

/-- Builds the knowledge base of a snapshot. Every fact finds its own place,
whichever list it stands in; rules and exceptions are taken as they are. -/
def ofSnapshot (s : Snapshot Time) : Except Error (KnowledgeBase Time) := do
  let kb ← KnowledgeBase.insertAll {} s.facts
  let kb ← kb.insertAll (s.timed.map fun p => ⟨p, none⟩)
  let kb ← kb.deriveAll s.derived
  return { kb with
    rules := s.rules
    defaultRules := s.defaultRules
    exceptions := s.exceptions }

end KnowledgeBase

end Defeasible
