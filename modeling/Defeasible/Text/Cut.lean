/-!
Cutting a text at the first occurrence of a separator.
-/

namespace Defeasible.Text

/-- What follows `separator` at the start of the text, if the text starts with it. -/
def stripStart? : (separator text : List Char) → Option (List Char)
  | [], cs => some cs
  | _ :: _, [] => none
  | s :: ss, c :: cs => if s = c then stripStart? ss cs else none

theorem stripStart?_eq_some {separator text rest : List Char} :
    stripStart? separator text = some rest ↔ text = separator ++ rest := by
  induction separator generalizing text with
  | nil => simp [stripStart?]
  | cons s separator ih =>
      cases text with
      | nil => simp [stripStart?]
      | cons c text =>
          simp only [stripStart?, List.cons_append, List.cons.injEq]
          by_cases h : s = c
          · simp [h, ih]
          · simp [h, Ne.symm h]

/-- The parts before and after the first occurrence of `separator`. -/
def cut? (separator : List Char) : List Char → Option (List Char × List Char)
  | [] => (stripStart? separator []).map fun rest => ([], rest)
  | c :: cs =>
      match stripStart? separator (c :: cs) with
      | some rest => some ([], rest)
      | none => (cut? separator cs).map fun (before, after) => (c :: before, after)

end Defeasible.Text
