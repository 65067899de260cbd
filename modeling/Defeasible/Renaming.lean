import Defeasible.Substitution
import Defeasible.Rule

/-!
Renaming rules apart. Each use of a rule gets a generation of its own, and the
variable `v` becomes `v#g` in generation `g`. The notation has no `#`, so a
renamed variable is never one that a text can name.
-/

namespace Defeasible

/-- The name of a variable in a generation. -/
def freshName (generation : Nat) (v : String) : String := v ++ "#" ++ toString generation

/-- Binds every variable of the predicates to its name in the generation. -/
def freshNames (generation : Nat) (ps : List Predicate) : Substitution :=
  .ofList ((ps.flatMap Predicate.vars).map fun v => (v, .var (freshName generation v)))

def Rule.rename (generation : Nat) (r : Rule) : Rule :=
  let ρ := freshNames generation [r.premise, r.conclusion]
  ⟨ρ.apply r.premise, ρ.apply r.conclusion⟩

def DefaultRule.rename (generation : Nat) (r : DefaultRule) : DefaultRule :=
  let ρ := freshNames generation [r.premise, r.conclusion]
  { r with premise := ρ.apply r.premise, conclusion := ρ.apply r.conclusion }

end Defeasible
