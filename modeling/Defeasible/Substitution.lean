import Defeasible.OrderedMap
import Defeasible.Term

/-!
Substitutions in triangular form: a variable is bound to a term as that term
stood when it was bound, and the variables in the term may be bound in turn.
Following bindings never needs a binding twice on one path unless a variable
reaches itself, so the number of bindings bounds every walk; a path that would
be longer stops where it is.
-/

namespace Defeasible

abbrev Substitution := OrderedMap String Term

namespace Substitution

/-- Follows at most `steps` bindings from a variable to the next term. -/
def walkWithin (s : Substitution) : (steps : Nat) → Term → Term
  | steps + 1, .var v =>
      match s.get? v with
      | some t => s.walkWithin steps t
      | none => .var v
  | _, t => t

/-- Follows bindings to an unbound variable or a term that is no variable. -/
def walk (s : Substitution) (t : Term) : Term := s.walkWithin s.size t

/-- What a variable stands for after at most `depth` bindings on each path. -/
def resolve (s : Substitution) : (depth : Nat) → String → Term
  | 0, v => .var v
  | depth + 1, v =>
      match s.get? v with
      | some t => t.subst (s.resolve depth)
      | none => .var v

/-- Replaces every bound variable by what it stands for. -/
def applyTerm (s : Substitution) (t : Term) : Term := t.subst (s.resolve s.size)

def apply (s : Substitution) (p : Predicate) : Predicate :=
  if s.isEmpty then p else p.subst (s.resolve s.size)

/-- The unbound variable `target` is what `v` leads to on some path of at most
`depth` bindings. -/
def reaches (s : Substitution) (target : String) : (depth : Nat) → (v : String) → Bool
  | 0, v => v == target
  | depth + 1, v =>
      match s.get? v with
      | some t => t.anyVariable (s.reaches target depth)
      | none => v == target

/-- The variable occurs in the term once bindings are followed. -/
def occurs (s : Substitution) (v : String) (t : Term) : Bool :=
  t.anyVariable (s.reaches v s.size)

/-- The number of bindings and of nodes of the bound terms. -/
def weight (s : Substitution) : Nat := s.entries.foldr (fun e n => e.2.size + 1 + n) 0

def text (s : Substitution) : String :=
  "\x7b" ++ ", ".intercalate (s.entries.map fun e => e.1 ++ "/" ++ e.2.text) ++ "\x7d"

end Substitution

end Defeasible
