/-!
Terms and predicates. A term is a variable, a constant or a name applied to a
list of terms; a predicate is a name with its arguments and is what facts,
rules and goals are made of. An applied term and a predicate carry the same
data, so a predicate can stand as an argument, as an event does in a timed
fact.

Names are arbitrary texts: only the notation restricts them.
-/

namespace Defeasible

inductive Term where
  | var (name : String)
  | const (name : String)
  | app (name : String) (args : List Term)
deriving Repr, Inhabited

namespace Term

mutual

def decEq : (s t : Term) → Decidable (s = t)
  | .var a, .var b => if h : a = b then isTrue (h ▸ rfl) else isFalse fun e => h (by injection e)
  | .const a, .const b =>
      if h : a = b then isTrue (h ▸ rfl) else isFalse fun e => h (by injection e)
  | .app f xs, .app g ys =>
      if h : f = g then
        match decEqList xs ys with
        | isTrue hs => isTrue (h ▸ hs ▸ rfl)
        | isFalse hs => isFalse fun e => hs (by injection e)
      else isFalse fun e => h (by injection e)
  | .var _, .const _ | .var _, .app .. | .const _, .var _ | .const _, .app ..
  | .app .., .var _ | .app .., .const _ => isFalse nofun

def decEqList : (xs ys : List Term) → Decidable (xs = ys)
  | [], [] => isTrue rfl
  | [], _ :: _ | _ :: _, [] => isFalse nofun
  | x :: xs, y :: ys =>
      match decEq x y, decEqList xs ys with
      | isTrue h, isTrue hs => isTrue (h ▸ hs ▸ rfl)
      | isFalse h, _ => isFalse fun e => h (by injection e)
      | _, isFalse hs => isFalse fun e => hs (by injection e)

end

instance : DecidableEq Term := decEq

mutual

/-- No variable occurs in the term. -/
def isGround : Term → Bool
  | .var _ => false
  | .const _ => true
  | .app _ args => isGroundList args

def isGroundList : List Term → Bool
  | [] => true
  | t :: ts => t.isGround && isGroundList ts

end

def isCompound : Term → Bool
  | .app .. => true
  | _ => false

mutual

/-- The variables of the term from left to right, with repetitions. -/
def vars : Term → List String
  | .var v => [v]
  | .const _ => []
  | .app _ args => varsList args

def varsList : List Term → List String
  | [] => []
  | t :: ts => t.vars ++ varsList ts

end

mutual

/-- Replaces all variables at once. The replacing terms are not looked into. -/
def subst (σ : String → Term) : Term → Term
  | .var v => σ v
  | .const c => .const c
  | .app f args => .app f (substList σ args)

def substList (σ : String → Term) : List Term → List Term
  | [] => []
  | t :: ts => t.subst σ :: substList σ ts

end

mutual

/-- Whether `p` holds of some variable of the term. -/
def anyVariable (p : String → Bool) : Term → Bool
  | .var v => p v
  | .const _ => false
  | .app _ args => anyVariableList p args

def anyVariableList (p : String → Bool) : List Term → Bool
  | [] => false
  | t :: ts => t.anyVariable p || anyVariableList p ts

end

mutual

/-- The number of nodes of the term. -/
def size : Term → Nat
  | .var _ | .const _ => 1
  | .app _ args => sizeList args + 1

def sizeList : List Term → Nat
  | [] => 0
  | t :: ts => t.size + sizeList ts

end

mutual

/-- The term as text: arguments stand in parentheses, and an application
without arguments is written as its bare name. -/
def text : Term → String
  | .var v => v
  | .const c => c
  | .app f [] => f
  | .app f (t :: ts) => f ++ "(" ++ t.text ++ textTail ts ++ ")"

/-- The arguments after the first, each after a comma and a space. -/
def textTail : List Term → String
  | [] => ""
  | t :: ts => ", " ++ t.text ++ textTail ts

end

mutual

/-- Some application in the term has the empty name. -/
def hasUnnamed : Term → Bool
  | .var _ | .const _ => false
  | .app f args => f.isEmpty || hasUnnamedList args

def hasUnnamedList : List Term → Bool
  | [] => false
  | t :: ts => t.hasUnnamed || hasUnnamedList ts

end

end Term

/-- A name with its arguments; without arguments it is a propositional atom. -/
structure Predicate where
  name : String
  args : List Term
deriving DecidableEq, Repr, Inhabited

namespace Predicate

def toTerm (p : Predicate) : Term := .app p.name p.args

def arity (p : Predicate) : Nat := p.args.length

def isGround (p : Predicate) : Bool := Term.isGroundList p.args

def vars (p : Predicate) : List String := Term.varsList p.args

def subst (σ : String → Term) (p : Predicate) : Predicate :=
  { p with args := Term.substList σ p.args }

def size (p : Predicate) : Nat := Term.sizeList p.args + 1

def text (p : Predicate) : String := p.toTerm.text

def hasUnnamed (p : Predicate) : Bool := p.toTerm.hasUnnamed

end Predicate

end Defeasible
