import Defeasible.Number.Binary

/-!
The text of single-precision values: the fewest digits that read back to the
value, without an exponent. A decimal reads back to a value if it lies between
the midpoints to the value's two neighbours, the midpoints included when the
value's rank is even. The coarsest decimal grid with a point in that interval
gives the fewest digits; of two points on it the nearer is taken, and of two
equally near ones the greater.
-/

namespace Defeasible

namespace Single

/-- The multiple `c * 10 ^ k` to write for the rank on the grid `10 ^ k`, if a
point of that grid reads back to the rank. -/
def onGrid? (rank : Nat) (k : Int) : Option Nat :=
  let f := BinaryFormat.single
  let up := Nat.pow 10 (-k).toNat
  let unit := Nat.pow 2 f.scale * Nat.pow 10 k.toNat
  let value := f.units rank * up
  let low := (f.units (rank - 1) + f.units rank) * up
  let high := (f.units rank + f.units (rank + 1)) * up
  let readsBack (c : Nat) : Bool :=
    let twice := 2 * c * unit
    if rank % 2 = 0 then low ≤ twice && twice ≤ high else low < twice && twice < high
  let below := value / unit
  let above := below + 1
  match readsBack below, readsBack above with
  | true, true => some (if value - below * unit < above * unit - value then below else above)
  | true, false => some below
  | false, true => some above
  | false, false => none

/-- The coarsest grid from `10 ^ k` downwards that has a point for the rank,
within the given number of grids. -/
def shortestFrom (rank : Nat) : (grids : Nat) → (k : Int) → Nat × Int
  | 0, k => (0, k)
  | grids + 1, k =>
      match onGrid? rank k with
      | some c => (c, k)
      | none => shortestFrom rank grids (k - 1)

/-- The digits and the power of ten to write for a rank other than zero. Single
precision lies below `10 ^ 39`, and nine digits tell its values apart. -/
def shortest (rank : Nat) : Nat × Int := shortestFrom rank 100 39

/-- The number `c * 10 ^ k` without an exponent. -/
def positional (c : Nat) (k : Int) : String :=
  let digits := Nat.toDigits 10 c
  if 0 ≤ k then String.ofList (digits ++ List.replicate k.toNat '0')
  else
    let places := (-k).toNat
    let padded := List.replicate (places + 1 - digits.length) '0' ++ digits
    let whole := padded.take (padded.length - places)
    let fraction := padded.drop (padded.length - places)
    String.ofList (whole ++ '.' :: fraction)

/-- The shortest text that reads back to the value. -/
def text : Single → String
  | .nan => "NaN"
  | .infinite negative => if negative then "-inf" else "inf"
  | .finite negative rank =>
      let magnitude :=
        if rank.val = 0 then "0"
        else
          let (c, k) := shortest rank.val
          positional c k
      if negative then "-" ++ magnitude else magnitude

end Single

end Defeasible
