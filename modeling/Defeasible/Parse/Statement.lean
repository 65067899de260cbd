import Defeasible.Parse.Term
import Defeasible.Text.Cut
import Defeasible.Number.Decimal
import Defeasible.Rule
import Defeasible.Query

/-!
Reading rules, default rules, queries, and statements of any of the three kinds
that a knowledge base can be told. A rule is cut at its first arrow, so the
parts are read, and their faults reported, as texts of their own.
-/

namespace Defeasible.Parse

/-- The parts before and after the arrow. -/
def cutArrow (arrow : String) (input : List Char) : Except Error (List Char × List Char) :=
  match Text.cut? arrow.toList input with
  | some parts => .ok parts
  | none => .error (.unreadable (String.ofList input) (Text.byteLength input)
      ("expected '" ++ arrow ++ "'"))

def rule (input : List Char) : Except Error Rule := do
  let (before, after) ← cutArrow "->" input
  return ⟨← predicate before, ← predicate after⟩

/-- The value of a priority, the text `part` at the end of `input`. -/
def priority (input part : List Char) : Except Error Single :=
  match Single.ofText? (Text.trim part) with
  | some value => .ok value
  | none => .error (.unreadable (String.ofList input)
      (Text.byteLength input - Text.byteLength part)
      ("expected a priority, found '" ++ String.ofList (Text.trim part) ++ "'"))

/-- Reads a default rule with an optional priority after `@`. The priority's
numeral is read before the two predicates, its range checked after them. -/
def defaultRule (input : List Char) : Except Error DefaultRule := do
  let (before, rest) ← cutArrow "~>" input
  match Text.cut? ['@'] rest with
  | none => return ⟨← predicate before, ← predicate rest, .full⟩
  | some (after, part) =>
      let value ← priority input part
      return ⟨← predicate before, ← predicate after, ← Certainty.ofSingle value⟩

def query (input : List Char) : Except Error Query :=
  (predicate input).map Query.ofPredicate

/-- What a knowledge base can be told in one text. -/
inductive Statement where
  | fact (fact : Predicate)
  | rule (rule : Rule)
  | defaultRule (rule : DefaultRule)

/-- Reads a statement; its kind is decided by the arrow it contains, and by
none. -/
def statement (input : List Char) : Except Error Statement :=
  if (Text.cut? "~>".toList input).isSome then (defaultRule input).map .defaultRule
  else if (Text.cut? "->".toList input).isSome then (rule input).map .rule
  else (predicate input).map .fact

end Defeasible.Parse
