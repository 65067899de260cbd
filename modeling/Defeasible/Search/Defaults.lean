import Defeasible.Search.Solutions
import Defeasible.Negation

/-!
Default reasoning. A default rule concludes an instance of its conclusion from a
proved instance of its premise, unless that premise instance is excepted, the
contrary conclusion can be proved from facts and rules, or some default of at
least the same priority concludes the contrary from an unexcepted premise. A
search for such a hindrance that is cut off at a limit hinders as well.
-/

namespace Defeasible.Search

/-- The depth left to proofs of premises and contraries, which count as one
chained rule already. -/
def innerDepth (limits : Limits) : Nat := limits.maxDepth - 1

/-- The instance of a rule's premise under a proof is not excepted. -/
def isInForce (kb : Snapshot Time) (stored renamed : DefaultRule) (proof : Substitution) : Bool :=
  !kb.isExcepted stored (proof.apply renamed.premise)

/-- Looks among the default rules for one that concludes `contrary` from a
proved premise that is not excepted. -/
def competing (kb : Snapshot Time) (limits : Limits) (contrary : Predicate) :
    List DefaultRule → (cutOff : Bool) → SearchState → SearchResult × SearchState
  | [], cutOff, st => (if cutOff then .exhausted else .failed, st)
  | stored :: rules, cutOff, st =>
      let st := st.nextGeneration
      let rule := stored.rename st.generation
      match unifyPredicates rule.conclusion contrary ∅ with
      | none => competing kb limits contrary rules cutOff st
      | some bound =>
          let (proofs, st) := solve kb limits (innerDepth limits)
            (bound.apply rule.premise) bound st
          match proofs.found.find? (isInForce kb stored rule) with
          | some proof => (.proved proof, st)
          | none => competing kb limits contrary rules (cutOff || proofs.cutOff) st

/-- Looks for a hindrance to a conclusion with the given contrary: a proof of
the contrary, or else a competing default of at least the given priority. -/
def hindrance (kb : Snapshot Time) (limits : Limits) (contrary : Predicate) (priority : Certainty)
    (st : SearchState) : SearchResult × SearchState :=
  match ask kb limits (innerDepth limits) contrary ∅ st with
  | (.failed, st) =>
      competing kb limits contrary (kb.defaultRules.filter fun r => priority ≤ r.priority) false st
  | found => found

/-- The first of the premise's proofs under which the default rule is in force
and its conclusion unhindered. The flag tells that some search was cut off. -/
def firstUnhindered (kb : Snapshot Time) (limits : Limits) (stored renamed : DefaultRule) :
    List Substitution → (cutOff : Bool) → SearchState →
      Option Substitution × Bool × SearchState
  | [], cutOff, st => (none, cutOff, st)
  | proof :: proofs, cutOff, st =>
      if isInForce kb stored renamed proof then
        let conclusion := proof.apply renamed.conclusion
        match hindrance kb limits conclusion.negated stored.priority st with
        | (.failed, st) => (some proof, cutOff, st.record conclusion)
        | (.proved _, st) => firstUnhindered kb limits stored renamed proofs cutOff st
        | (.exhausted, st) => firstUnhindered kb limits stored renamed proofs true st
      else firstUnhindered kb limits stored renamed proofs cutOff st

/-- Tries the default rules in turn. -/
def byDefaults (kb : Snapshot Time) (limits : Limits) (goal : Predicate) :
    List DefaultRule → (cutOff : Bool) → SearchState → SearchResult × SearchState
  | [], cutOff, st => (if cutOff then .exhausted else .failed, st)
  | stored :: rules, cutOff, st =>
      let st := st.nextGeneration
      let rule := stored.rename st.generation
      match unifyPredicates rule.conclusion goal ∅ with
      | none => byDefaults kb limits goal rules cutOff st
      | some bound =>
          let (proofs, st) := solve kb limits (innerDepth limits)
            (bound.apply rule.premise) bound st
          match firstUnhindered kb limits stored rule proofs.found
              (cutOff || proofs.cutOff) st with
          | (some proof, _, st) => (.proved proof, st)
          | (none, cutOff, st) => byDefaults kb limits goal rules cutOff st

end Defeasible.Search
