import Defeasible.Error

/-!
Certainties: single-precision values from 0 to 1. Zero has one representation
here, so a certainty is given by the rank of its magnitude, and certainties
compare as their ranks do.
-/

namespace Defeasible

/-- A single-precision value from 0 to 1, by the rank of its magnitude. -/
structure Certainty where
  rank : Nat
  le_one : rank ≤ 0x3F800000
deriving DecidableEq, Repr

namespace Certainty

instance : LE Certainty := ⟨fun a b => a.rank ≤ b.rank⟩
instance : LT Certainty := ⟨fun a b => a.rank < b.rank⟩

instance (a b : Certainty) : Decidable (a ≤ b) := inferInstanceAs (Decidable (a.rank ≤ b.rank))
instance (a b : Certainty) : Decidable (a < b) := inferInstanceAs (Decidable (a.rank < b.rank))

/-- Full certainty, the value 1. -/
def full : Certainty := ⟨0x3F800000, Nat.le_refl _⟩

instance : Inhabited Certainty := ⟨full⟩

/-- The certainty of a value; both zeros are the certainty 0. -/
def ofSingle (value : Single) : Except Error Certainty :=
  match value with
  | .finite negative rank =>
      if h : rank.val ≤ 0x3F800000 then
        if negative && rank.val != 0 then .error (.certaintyOutOfRange value)
        else .ok ⟨rank.val, h⟩
      else .error (.certaintyOutOfRange value)
  | .nan | .infinite _ => .error (.certaintyOutOfRange value)

def toSingle (c : Certainty) : Single := .ofRank false c.rank

theorem ofSingle_toSingle (c : Certainty) : ofSingle c.toSingle = .ok c := by
  have hlt : c.rank < BinaryFormat.single.overflow := Nat.lt_of_le_of_lt c.le_one (by decide)
  simp [toSingle, Single.ofRank, hlt, ofSingle, c.le_one]

/-- The certainty is less than the threshold; nothing is less than an
undefined one. -/
def isBelow (c : Certainty) : Single → Bool
  | .nan => false
  | .infinite negative => !negative
  | .finite negative rank => !negative && c.rank < rank.val

/-- The shortest text that reads back. -/
def text (c : Certainty) : String := c.toSingle.text

/-- The certainty with two places, a half rounded to the even neighbour. -/
def twoPlaces (c : Certainty) : String :=
  let f := BinaryFormat.single
  let hundredths := roundHalfEven (f.units c.rank * 100) (Nat.pow 2 f.scale)
  toString (hundredths / 100) ++ "." ++ toString (hundredths / 10 % 10)
    ++ toString (hundredths % 10)

end Certainty

/-- Where a fact came from, how sure its source was, and when it was recorded. Nothing is
asked of times here but to be kept and compared. -/
structure Provenance (Time : Type) where
  certainty : Certainty
  source : String
  recordedAt : Time
deriving DecidableEq, Repr

end Defeasible
