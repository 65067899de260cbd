/-!
Binary floating-point values in exact arithmetic. The magnitudes of a format are
counted from zero upwards, and a magnitude is named by its rank in that count.
Ranks order magnitudes as their values do, so a comparison of values is a
comparison of natural numbers, and every value is a whole multiple of the
format's smallest one.
-/

namespace Defeasible

/-- The quotient of `num` by `den` rounded to a whole number, a half to the even
neighbour. -/
def roundHalfEven (num den : Nat) : Nat :=
  let q := num / den
  match compare (2 * (num % den)) den with
  | .lt => q
  | .gt => q + 1
  | .eq => if q % 2 = 0 then q else q + 1

/-- A binary format: the number of fraction bits, the `scale` for which the
smallest magnitude is `2 ^ -scale`, and the rank at which finite magnitudes end. -/
structure BinaryFormat where
  fractionBits : Nat
  scale : Nat
  overflow : Nat

namespace BinaryFormat

def single : BinaryFormat := ⟨23, 149, 0x7F800000⟩

def double : BinaryFormat := ⟨52, 1074, 0x7FF0000000000000⟩

/-- The magnitude of a rank, in units of the smallest magnitude. -/
def units (f : BinaryFormat) (rank : Nat) : Nat :=
  let hidden := Nat.pow 2 f.fractionBits
  if rank < hidden then rank
  else (hidden + rank % hidden) * Nat.pow 2 (rank / hidden - 1)

/-- The rank of the magnitude nearest to `num / den`, of two equally near ones
the even. From `overflow` on it stands for a value too large for the format. -/
def nearest (f : BinaryFormat) (num den : Nat) : Nat :=
  let scaled := num * Nat.pow 2 f.scale
  let shift := Nat.log2 (scaled / den) - f.fractionBits
  shift * Nat.pow 2 f.fractionBits + roundHalfEven scaled (den * Nat.pow 2 shift)

end BinaryFormat

/-- A single-precision value. Both zeros are finite, of rank 0. -/
inductive Single where
  | nan
  | infinite (negative : Bool)
  | finite (negative : Bool) (rank : Fin BinaryFormat.single.overflow)
deriving DecidableEq, Repr

namespace Single

/-- The value of a rank, infinite if the rank is past the finite ones. -/
def ofRank (negative : Bool) (rank : Nat) : Single :=
  if h : rank < BinaryFormat.single.overflow then .finite negative ⟨rank, h⟩
  else .infinite negative

end Single

end Defeasible
