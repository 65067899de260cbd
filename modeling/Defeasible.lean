import Defeasible.Answer
import Defeasible.Certainty
import Defeasible.Conflict
import Defeasible.Conflict.Detection
import Defeasible.Conflict.Resolution
import Defeasible.Dispatch
import Defeasible.Error
import Defeasible.Fact
import Defeasible.Json.Decode
import Defeasible.Json.Encode
import Defeasible.Json.Value
import Defeasible.KnowledgeBase
import Defeasible.Negation
import Defeasible.Number.Binary
import Defeasible.Number.Decimal
import Defeasible.Number.Integer
import Defeasible.Number.Shortest
import Defeasible.OrderedMap
import Defeasible.Parse.Statement
import Defeasible.Parse.Term
import Defeasible.Parse.Token
import Defeasible.Proofs.Acyclic
import Defeasible.Proofs.Instance
import Defeasible.Proofs.Lookup
import Defeasible.Query
import Defeasible.Reasoner
import Defeasible.Renaming
import Defeasible.Rule
import Defeasible.Saturation
import Defeasible.Search
import Defeasible.Search.Defaults
import Defeasible.Search.Solutions
import Defeasible.Session
import Defeasible.Substitution
import Defeasible.Term
import Defeasible.Term.Order
import Defeasible.Text.Blank
import Defeasible.Text.Cut
import Defeasible.Text.Uppercase
import Defeasible.Timeline
import Defeasible.Unification
import Defeasible.Proofs.UnificationRuns
import Defeasible.Proofs.UnificationBound
import Defeasible.Proofs.MostGeneral
import Defeasible.Proofs.Termination
import Defeasible.Proofs.Derivability
import Defeasible.Proofs.Soundness
import Defeasible.Proofs.Storage
import Defeasible.Proofs.Freshness
import Defeasible.Proofs.Completeness
import Defeasible.Proofs.SolutionRuns
import Defeasible.Proofs.Enumeration
import Defeasible.Proofs.Defaults
import Defeasible.Proofs.Consistency
import Defeasible.Proofs.Fixpoint
import Defeasible.Proofs.Agreement
import Defeasible.Proofs.Restoring
import Defeasible.Proofs.Resolution
import Defeasible.Proofs.Violation
import Defeasible.Proofs.Gate
import Defeasible.Proofs.Grammar
import Defeasible.Proofs.RoundTrip
import Defeasible.Proofs.Correction
import Defeasible.Proofs.Upkeep
import Defeasible.Proofs.Equivariance
import Defeasible.Proofs.Shift
import Defeasible.Proofs.Independence
import Defeasible.Proofs.Admission
import Defeasible.Proofs.Opposition
import Defeasible.Proofs.Settlement
import Defeasible.Proofs.Bindings
import Defeasible.Proofs.Budget
import Defeasible.Proofs.Prolongation
import Defeasible.Proofs.FirstSolution
import Defeasible.Proofs.Expectation
import Defeasible.Proofs.Chronology
import Defeasible.Proofs.Normalization
import Defeasible.Proofs.Accounting
import Defeasible.Proofs.LaterStart
import Defeasible.Proofs.Exemption
import Defeasible.Proofs.Variant
import Defeasible.Proofs.OccursCheck
import Defeasible.Proofs.Magnitude
import Defeasible.Proofs.Serialization
import Defeasible.Proofs.ByteOrder
import Defeasible.Proofs.CanonicalOrder
