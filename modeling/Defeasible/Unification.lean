import Defeasible.Substitution

/-!
Unification with occurs check over triangular substitutions. Two terms are
compared from left to right; a bound variable stands for its binding, an unbound
one is bound to the other term unless it occurs in it.

The recursion is bounded by a depth computed from its arguments. A call deeper
than that would mean that some variable reaches itself: as long as none does,
each step either binds a variable, follows a binding, or goes down into both
terms, and the bound exceeds the number of such steps on one path.
-/

namespace Defeasible

/-- Unifies lists pairwise from left to right under the growing substitution. -/
def unifyLists (unify : Term → Term → Substitution → Option Substitution) :
    List Term → List Term → Substitution → Option Substitution
  | x :: xs, y :: ys, s => (unify x y s).bind (unifyLists unify xs ys)
  | _, _, s => some s

/-- Makes the variable stand for the term. A bound variable's binding is unified
with the term; an unbound variable is bound to the term as it stands. -/
def unifyVariableBy (unify : Term → Term → Substitution → Option Substitution)
    (v : String) (t : Term) (s : Substitution) : Option Substitution :=
  match s.get? v with
  | some bound => unify bound t s
  | none =>
      let resolved := s.walk t
      if resolved = .var v then some s
      else if resolved.isCompound && s.occurs v resolved then none
      else some (s.insert v t)

/-- Unification to a depth of at most `depth` calls. -/
def unifyWithin : (depth : Nat) → Term → Term → Substitution → Option Substitution
  | 0, _, _, _ => none
  | depth + 1, x, y, s =>
      if x = y then some s
      else
        match x, y with
        | .var v, y => unifyVariableBy (unifyWithin depth) v y s
        | x, .var v => unifyVariableBy (unifyWithin depth) v x s
        | .app f xs, .app g ys =>
            if f = g ∧ xs.length = ys.length then unifyLists (unifyWithin depth) xs ys s
            else none
        | _, _ => none

/-- A depth that unifying the two terms does not exceed. -/
def unifyDepth (x y : Term) (s : Substitution) : Nat :=
  let n := x.size + y.size + s.weight + 2
  2 * n * n * n

/-- The most general extension of the substitution that makes the terms equal. -/
def unify (x y : Term) (s : Substitution) : Option Substitution :=
  unifyWithin (unifyDepth x y s) x y s

def unifyVariable (v : String) (t : Term) (s : Substitution) : Option Substitution :=
  unifyVariableBy unify v t s

/-- Predicates unify if their names and arities agree and their arguments
unify. -/
def unifyPredicates (p q : Predicate) (s : Substitution) : Option Substitution :=
  if p.name = q.name ∧ p.arity = q.arity then unifyLists unify p.args q.args s else none

end Defeasible
