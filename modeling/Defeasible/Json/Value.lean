import Defeasible.Number.Decimal

/-!
JSON values. A number written as a whole number within the range of 64-bit words
is kept apart from a number written with a point or an exponent, since counts
are only ever the former. Objects keep their members in the order written.
-/

namespace Defeasible

inductive Json where
  | null
  | bool (value : Bool)
  | integer (value : Int)
  | decimal (value : Decimal)
  | string (value : String)
  | array (items : List Json)
  | object (members : List (String × Json))
deriving Repr, Inhabited

namespace Json

mutual

/-- The number of arrays and objects around the innermost value. -/
def depth : Json → Nat
  | .array items => depthItems items + 1
  | .object members => depthMembers members + 1
  | _ => 0

def depthItems : List Json → Nat
  | [] => 0
  | j :: js => max j.depth (depthItems js)

def depthMembers : List (String × Json) → Nat
  | [] => 0
  | (_, j) :: js => max j.depth (depthMembers js)

end

/-- Whether the text of the value is read back: no more than 127 arrays and
objects may be open at once. -/
def isReadable (j : Json) : Bool := j.depth ≤ 127

def bool? : Json → Option Bool
  | .bool b => some b
  | _ => none

def string? : Json → Option String
  | .string s => some s
  | _ => none

def items? : Json → Option (List Json)
  | .array items => some items
  | _ => none

def members? : Json → Option (List (String × Json))
  | .object members => some members
  | _ => none

/-- A count: a whole number that is not negative. -/
def natural? : Json → Option Nat
  | .integer n => if 0 ≤ n then some n.toNat else none
  | _ => none

/-- The single-precision value of a number: the nearest one to a whole number,
and the nearest one to the double-precision value of any other. -/
def single? : Json → Option Single
  | .integer n => some (Decimal.toSingle ⟨n < 0, n.natAbs, 0⟩)
  | .decimal d => some d.toSingleThroughDouble
  | _ => none

/-- The member of that name. Nothing is found in an object that repeats one of the given
names; members with other names are ignored. -/
def memberOnce? (names : List String) (name : String) (members : List (String × Json)) :
    Option Json :=
  if ((members.map Prod.fst).filter names.contains).Nodup then members.lookup name else none

/-- How the names of alternatives are read. Within a record that names its own
type among its members, and within a content in front of its kind, they are read
leniently, and strictly elsewhere. -/
inductive Reading where
  | strict
  | lenient
deriving DecidableEq, Repr

/-- One of a fixed set of names, written as a string or as an object whose only
member has that name and is null. A lenient reading takes an empty object for
null here. -/
def tag? (reading : Reading) : Json → Option String
  | .string s => some s
  | .object [(name, .null)] => some name
  | .object [(name, .object [])] => if reading = .lenient then some name else none
  | _ => none

/-- One of the given names in front of what it names, written as a string. A
lenient reading also takes the position among the names. -/
def leadingTag? (reading : Reading) (names : List String) : Json → Option String
  | .string s => some s
  | .integer n => if reading = .lenient ∧ 0 ≤ n then names[n.toNat]? else none
  | _ => none

/-- How the content of a kind is read. A content in front of its kind is set aside until
the kind is known. -/
def contentReading (reading : Reading) (members : List (String × Json)) : Reading :=
  match (members.map Prod.fst).find? ["kind", "value"].contains with
  | some "value" => .lenient
  | _ => reading

/-- The kind of a value of one of the given kinds, its content and how that is read. It is
written as an object with the members `kind` and `value`, or as the array of the two. -/
def kinded? (reading : Reading) (kinds : List String) : Json → Option (String × Reading × Json)
  | .array [kind, value] => (kind.leadingTag? reading kinds).map fun k => (k, reading, value)
  | .object members => do
      let kind ← (← memberOnce? ["kind", "value"] "kind" members).tag? reading
      let value ← memberOnce? ["kind", "value"] "value" members
      return (kind, contentReading reading members, value)
  | _ => none

/-- The type and the fields of a record that names its type. It is written as an
object with the member `type` beside the fields, or as an array of the type and
then the fields. -/
def typed? : Json → Option (String × Json)
  | .array (type :: fields) => type.string?.map fun t => (t, .array fields)
  | .object members => do
      return (← (← memberOnce? ["type"] "type" members).string?, .object members)
  | _ => none

/-- The field of a record with the given field names. A record is written as an
object with these members, or as the array of its fields in their order, from
which fields at the end may be missing. An object that repeats a field is no
record, and has none of them. -/
def field? (fields : List String) (name : String) : Json → Option Json
  | .object members => memberOnce? fields name members
  | .array items => if items.length ≤ fields.length then (fields.zip items).lookup name else none
  | _ => none

end Json

end Defeasible
