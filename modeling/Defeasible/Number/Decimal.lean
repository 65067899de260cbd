import Defeasible.Number.Binary

/-!
Decimal numerals and the single-precision values they stand for. A numeral has
digits, a point among them if wanted, and an optional power of ten; infinities
and the undefined value are written as words in either case.
-/

namespace Defeasible

/-- The number `coefficient * 10 ^ exponent`, with a sign that zero keeps. -/
structure Decimal where
  negative : Bool
  coefficient : Nat
  exponent : Int
deriving DecidableEq, Repr

/-- The number written by decimal digits, most significant first. -/
def digitsValue (digits : List Char) : Nat :=
  digits.foldl (fun n c => 10 * n + (c.toNat - '0'.toNat)) 0

/-- Splits a leading sign off; `true` for a minus. -/
def splitSign : List Char → Bool × List Char
  | '-' :: cs => (true, cs)
  | '+' :: cs => (false, cs)
  | cs => (false, cs)

namespace Decimal

/-- The power of ten after the mark `e`; nothing at all is the power zero. -/
def exponent? : List Char → Option Int
  | [] => some 0
  | mark :: cs =>
      if mark = 'e' || mark = 'E' then
        let (negative, digits) := splitSign cs
        if digits.isEmpty || !digits.all Char.isDigit then none
        else
          let n : Int := digitsValue digits
          some (if negative then -n else n)
      else none

/-- Reads an unsigned numeral: digits with at most one point, at least one
digit, and an optional power of ten. -/
def ofUnsigned? (negative : Bool) (cs : List Char) : Option Decimal :=
  let whole := cs.takeWhile Char.isDigit
  let rest := cs.dropWhile Char.isDigit
  let (fraction, rest) :=
    match rest with
    | '.' :: more => (more.takeWhile Char.isDigit, more.dropWhile Char.isDigit)
    | _ => ([], rest)
  if (whole ++ fraction).isEmpty then none
  else (exponent? rest).map fun e =>
    ⟨negative, digitsValue (whole ++ fraction), e - fraction.length⟩

def ofText? (cs : List Char) : Option Decimal :=
  let (negative, rest) := splitSign cs
  ofUnsigned? negative rest

def digitCount (n : Nat) : Nat := (Nat.toDigits 10 n).length

/-- The rank of the nearest magnitude in the format. Magnitudes of `10 ^ 400`
and more overflow every format here, and below `10 ^ -400` all round to zero, so
these are decided without computing the power. -/
def rank (f : BinaryFormat) (d : Decimal) : Nat :=
  let order := digitCount d.coefficient + d.exponent
  if d.coefficient = 0 || order < -400 then 0
  else if 400 < order then f.overflow
  else if 0 ≤ d.exponent then f.nearest (d.coefficient * Nat.pow 10 d.exponent.toNat) 1
  else f.nearest d.coefficient (Nat.pow 10 (-d.exponent).toNat)

/-- The nearest single-precision value. -/
def toSingle (d : Decimal) : Single := .ofRank d.negative (d.rank .single)

/-- The nearest single-precision value to the nearest double-precision value. -/
def toSingleThroughDouble (d : Decimal) : Single :=
  let wide := d.rank .double
  if wide < BinaryFormat.double.overflow then
    .ofRank d.negative (BinaryFormat.single.nearest (BinaryFormat.double.units wide)
      (Nat.pow 2 BinaryFormat.double.scale))
  else .infinite d.negative

end Decimal

/-- Reads a single-precision value: a decimal numeral rounded to the nearest
value, or `inf`, `infinity` or `nan` in any case, each after an optional sign. -/
def Single.ofText? (cs : List Char) : Option Single :=
  let (negative, rest) := splitSign cs
  match Decimal.ofUnsigned? negative rest with
  | some d => some d.toSingle
  | none =>
      let word := String.ofList (rest.map Char.toLower)
      if word = "inf" || word = "infinity" then some (.infinite negative)
      else if word = "nan" then some .nan
      else none

end Defeasible
