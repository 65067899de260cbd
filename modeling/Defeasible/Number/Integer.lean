import Defeasible.Number.Decimal
import Defeasible.Text.Blank

/-!
Whole numbers written in a text: an optional sign and decimal digits, within the
range of 64-bit signed words. Blanks around the number are ignored.
-/

namespace Defeasible

/-- The least and the greatest 64-bit signed word enclose the number. -/
def inWordRange (n : Int) : Bool := -0x8000000000000000 ≤ n && n < 0x8000000000000000

/-- The whole number that the text stands for, if it is one. -/
def wordOfText? (text : String) : Option Int :=
  let (negative, digits) := splitSign (Text.trim text.toList)
  if digits.isEmpty || !digits.all Char.isDigit then none
  else
    let magnitude : Int := digitsValue digits
    let n := if negative then -magnitude else magnitude
    if inWordRange n then some n else none

end Defeasible
