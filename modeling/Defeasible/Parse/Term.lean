import Defeasible.Term
import Defeasible.Error
import Defeasible.Parse.Token

/-!
Reading terms and predicates. The reader is a machine that consumes the tokens
one by one from left to right. Its stack holds the applications whose closing
parenthesis is still to come.
-/

namespace Defeasible.Parse

/-- A letter or underscore followed by letters, digits and underscores, or a
whole number with an optional minus. Letters and digits are the ASCII ones. -/
def isIdentifier : List Char → Bool
  | [] => false
  | '-' :: digits => !digits.isEmpty && digits.all Char.isDigit
  | c :: cs =>
      if c.isDigit then cs.all Char.isDigit
      else (c.isAlpha || c == '_') && cs.all fun d => d.isAlphanum || d == '_'

/-- An identifier without arguments: a variable if it starts with a lowercase
letter, and a constant otherwise. -/
def leaf (name : List Char) : Term :=
  if name.head?.any Char.isLower then .var (String.ofList name) else .const (String.ofList name)

/-- An application whose last argument is still to come, the arguments read so
far in reverse. -/
structure Frame where
  name : List Char
  args : List Term

/-- The frame's application with `last` as its last argument. -/
def Frame.complete (f : Frame) (last : Term) : Term :=
  .app (String.ofList f.name) (f.args.reverse ++ [last])

/-- What the reader has read within the open frames: nothing of the next term
yet, a name that may turn out to be applied, or a whole term. -/
inductive State where
  | start (frames : List Frame)
  | named (name : List Char) (frames : List Frame)
  | ended (term : Term) (frames : List Frame)

/-- Why a token, or the end of the tokens, is refused. -/
inductive Refusal where
  | notIdentifier (word : List Char)
  | unexpected (reason : String)

/-- The token after a whole term. -/
def stepEnded (t : Term) : List Frame → Token → Except Refusal State
  | f :: frames, .comma => .ok (.start ({ f with args := t :: f.args } :: frames))
  | f :: frames, .rparen => .ok (.ended (f.complete t) frames)
  | _ :: _, _ => .error (.unexpected "expected ',' or ')'")
  | [], _ => .error (.unexpected "unexpected trailing input")

/-- One token. Instead of its first argument a frame may be closed at once. -/
def step : State → Token → Except Refusal State
  | .start frames, .word name =>
      if isIdentifier name then .ok (.named name frames) else .error (.notIdentifier name)
  | .start (⟨name, []⟩ :: frames), .rparen => .ok (.ended (.app (String.ofList name) []) frames)
  | .start _, _ => .error (.unexpected "expected an identifier")
  | .named name frames, .lparen => .ok (.start (⟨name, []⟩ :: frames))
  | .named name frames, token => stepEnded (leaf name) frames token
  | .ended t frames, token => stepEnded t frames token

/-- The end of the tokens. -/
def finish : State → Except Refusal Term
  | .start _ => .error (.unexpected "expected an identifier")
  | .named name [] => .ok (leaf name)
  | .ended t [] => .ok t
  | .named _ (_ :: _) | .ended _ (_ :: _) => .error (.unexpected "expected ',' or ')'")

/-- A refusal, and the tokens from the refused one on. -/
structure Fault where
  refusal : Refusal
  rest : List Lexeme

def run (state : State) : List Lexeme → Except Fault Term
  | [] => (finish state).mapError (⟨·, []⟩)
  | l :: rest =>
      match step state l.token with
      | .ok state => run state rest
      | .error refusal => .error ⟨refusal, l :: rest⟩

/-- The fault as an error about the whole text. At the end of the tokens the
offset is the length of the text. -/
def Fault.toError (input : List Char) (fault : Fault) : Error :=
  match fault.refusal with
  | .notIdentifier word => .invalidIdentifier (String.ofList word)
  | .unexpected reason =>
      .unreadable (String.ofList input)
        ((fault.rest.head?.map Lexeme.offset).getD (Text.byteLength input)) reason

def term (input : List Char) : Except Error Term :=
  (run (.start []) (lexemes 0 input)).mapError (Fault.toError input)

/-- Reads a predicate; a constant is an atom, and a variable is refused. -/
def predicate (input : List Char) : Except Error Predicate := do
  match ← term input with
  | .app f args => return ⟨f, args⟩
  | .const c => return ⟨c, []⟩
  | .var v => throw (.unreadable (String.ofList input) 0
      ("expected a predicate, found variable '" ++ v ++ "'"))

end Defeasible.Parse
