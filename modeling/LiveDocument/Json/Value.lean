import LiveDocument.Text.Bytes

/-!
# Values of the JSON format

Trees as they are written: members keep their order and may repeat, and a number
written with digits alone is told from every other number.
-/

namespace LiveDocument

/-- A value of the JSON format that holds no other values. Numbers and strings are
kept as far as they can be told apart in what is read. -/
inductive Scalar where
  | null
  | boolean (value : Bool)
  /-- A number written with digits alone. -/
  | natural (value : Nat)
  /-- A number with a sign, a fraction or an exponent, as it is written. -/
  | decimal (literal : Text)
  /-- A string. It has no text if its escapes leave half of a surrogate pair
  alone. -/
  | string (text? : Option Text)
deriving DecidableEq, Repr

/-- A value of the JSON format. The members of an object keep their order, and
their names may repeat. -/
inductive Json where
  | scalar (value : Scalar)
  | array (items : List Json)
  | object (members : List (Option Text × Json))

namespace Json

def null : Json := scalar .null

def natural (value : Nat) : Json := scalar (.natural value)

def text (content : Text) : Json := scalar (.string (some content))

end Json

end LiveDocument
