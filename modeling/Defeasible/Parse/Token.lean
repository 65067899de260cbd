import Defeasible.Text.Blank

/-!
Tokens of the notation. Parentheses and commas stand for themselves, blanks only
separate, and every maximal run of other characters is a word. Cutting a text
into tokens never fails: whether a word is an identifier is asked only when the
word is read. Each token knows how many bytes of the text come before it.
-/

namespace Defeasible.Parse

inductive Token where
  | lparen
  | rparen
  | comma
  | word (chars : List Char)
deriving DecidableEq, Repr

/-- A token and the number of bytes before it in the text. -/
structure Lexeme where
  token : Token
  offset : Nat
deriving DecidableEq, Repr

/-- The character belongs to a word. -/
def isWordChar (c : Char) : Bool :=
  !(Text.isBlank c || c == '(' || c == ')' || c == ',')

/-- Puts a word character before the tokens of the text after it: it extends
the first word if that word starts right there. -/
def prependWordChar (c : Char) (offset : Nat) : List Lexeme → List Lexeme
  | ⟨.word chars, start⟩ :: rest =>
      if start = offset + c.utf8Size then ⟨.word (c :: chars), offset⟩ :: rest
      else ⟨.word [c], offset⟩ :: ⟨.word chars, start⟩ :: rest
  | rest => ⟨.word [c], offset⟩ :: rest

/-- The tokens of a text that starts `offset` bytes into the whole. -/
def lexemes (offset : Nat) : List Char → List Lexeme
  | [] => []
  | c :: cs =>
      let rest := lexemes (offset + c.utf8Size) cs
      if Text.isBlank c then rest
      else if c = '(' then ⟨.lparen, offset⟩ :: rest
      else if c = ')' then ⟨.rparen, offset⟩ :: rest
      else if c = ',' then ⟨.comma, offset⟩ :: rest
      else prependWordChar c offset rest

end Defeasible.Parse
