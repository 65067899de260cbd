import Defeasible.KnowledgeBase
import Defeasible.Proofs.Instance

/-!
What follows from the stored facts by the rules, independently of any search: the
least set that holds the facts and is closed under all instances of the rules, and
the same set by the number of rule applications.
-/

namespace Defeasible

variable {Time : Type}
namespace Snapshot

/-- The ordinary facts and the timed ones. -/
def stored (kb : Snapshot Time) : List Predicate := kb.predicates ++ kb.timed

/-- Storing a fact checks that it has no variables. -/
def FactsGround (kb : Snapshot Time) : Prop := ∀ p ∈ kb.stored, p.isGround = true

/-- Timed facts are told from ordinary ones by their name. -/
def KindsApart (kb : Snapshot Time) : Prop :=
  (∀ p ∈ kb.predicates, p.isTimed = false) ∧ ∀ p ∈ kb.timed, p.isTimed = true

/-- The least set that holds the stored facts and, with an instance of a rule's
premise, the same instance of its conclusion. -/
inductive Derivable (kb : Snapshot Time) : Predicate → Prop where
  | fact {p : Predicate} : p ∈ kb.stored → Derivable kb p
  | rule {r : Rule} (σ : String → Term) : r ∈ kb.rules →
      Derivable kb (r.premise.subst σ) → Derivable kb (r.conclusion.subst σ)

/-- Derivable by the given number of rule applications. -/
inductive DerivableIn (kb : Snapshot Time) : Nat → Predicate → Prop where
  | fact {p : Predicate} : p ∈ kb.stored → DerivableIn kb 0 p
  | rule {n : Nat} {r : Rule} (σ : String → Term) : r ∈ kb.rules →
      DerivableIn kb n (r.premise.subst σ) → DerivableIn kb (n + 1) (r.conclusion.subst σ)

variable {kb : Snapshot Time} {p : Predicate} {n : Nat}

theorem DerivableIn.derivable (h : kb.DerivableIn n p) : kb.Derivable p := by
  induction h with
  | fact hp => exact .fact hp
  | rule σ hr _ ih => exact .rule σ hr ih

theorem Derivable.exists_derivableIn (h : kb.Derivable p) : ∃ n, kb.DerivableIn n p := by
  induction h with
  | fact hp => exact ⟨0, .fact hp⟩
  | rule σ hr _ ih =>
      obtain ⟨n, hn⟩ := ih
      exact ⟨n + 1, .rule σ hr hn⟩

theorem derivableIn_zero (h : kb.DerivableIn 0 p) : p ∈ kb.stored := by
  cases h with
  | fact hp => exact hp

theorem derivableIn_succ (h : kb.DerivableIn (n + 1) p) :
    ∃ r ∈ kb.rules, ∃ σ, r.conclusion.subst σ = p ∧ kb.DerivableIn n (r.premise.subst σ) := by
  cases h with
  | rule σ hr hpremise => exact ⟨_, hr, σ, rfl, hpremise⟩

end Snapshot
end Defeasible
