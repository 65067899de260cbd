import Defeasible.Search

/-!
All proofs of a goal: every fact that unifies with it, then every proof of the
premise of every rule whose conclusion does.
-/

namespace Defeasible

variable {Time : Type}

/-- The proofs found, in the order of the search, and whether the search was
cut off at a limit. -/
structure Solutions where
  found : List Substitution
  cutOff : Bool

namespace Search

/-- A search for all proofs of a goal under a substitution. -/
abbrev Solver := Predicate → Substitution → SearchState → Solutions × SearchState

/-- The facts that match. -/
def matchAll (limits : Limits) (goal : Predicate) (s : Substitution) :
    List Predicate → SearchState → Solutions × SearchState
  | [], st => (⟨[], false⟩, st)
  | fact :: facts, st =>
      match st.tick? limits with
      | none => (⟨[], true⟩, st)
      | some st =>
          let (rest, st) := matchAll limits goal s facts st
          match unifyPredicates fact goal s with
          | some proof => (⟨proof :: rest.found, rest.cutOff⟩, st)
          | none => (rest, st)

/-- The proofs by the rules, with all proofs of their premises by `solve`. -/
def chainAll (limits : Limits) (solve : Solver) (goal : Predicate) (s : Substitution) :
    List Rule → SearchState → Solutions × SearchState
  | [], st => (⟨[], false⟩, st)
  | rule :: rules, st =>
      match st.tick? limits with
      | none => (⟨[], true⟩, st)
      | some st =>
          let st := st.nextGeneration
          let rule := rule.rename st.generation
          match unifyPredicates rule.conclusion goal s with
          | none => chainAll limits solve goal s rules st
          | some bound =>
              let (inner, st) := solve (bound.apply rule.premise) bound st
              let st := inner.found.foldl (fun st proof => st.record (proof.apply goal)) st
              let (rest, st) := chainAll limits solve goal s rules st
              (⟨inner.found ++ rest.found, inner.cutOff || rest.cutOff⟩, st)

/-- The matching facts, and what `next` adds unless the limit cut them off. -/
def factsAnd (kb : Snapshot Time) (limits : Limits) (next : Solver) : Solver := fun goal s st =>
  match matchAll limits goal s (candidates kb goal) st with
  | (⟨found, true⟩, st) => (⟨found, true⟩, st)
  | (⟨found, false⟩, st) =>
      let (more, st) := next goal s st
      (⟨found ++ more.found, more.cutOff⟩, st)

/-- The proofs by at least one and at most `depth` chained rules. -/
def solveByRules (kb : Snapshot Time) (limits : Limits) : (depth : Nat) → Solver
  | 0 => fun _ _ st => (⟨[], true⟩, st)
  | depth + 1 => fun goal s st =>
      chainAll limits (factsAnd kb limits (solveByRules kb limits depth)) goal s kb.rules st

/-- The proofs by a fact or by at most `depth` chained rules. -/
def solve (kb : Snapshot Time) (limits : Limits) (depth : Nat) : Solver :=
  factsAnd kb limits (solveByRules kb limits depth)

end Search

end Defeasible
