import LiveDocument.Wire.Record

/-!
# Values on the wire

Client and server send values as texts of the JSON format. A text that stands for no
value is refused without a reason. Texts have the strict format and records are read in
the standard way, unless others are named.
-/

namespace LiveDocument

class Wire (α : Type) where
  toJson (value : α) : Json
  ofJson? (json : Json) (records : Json.Records := .standard) : Option α

namespace Wire

variable {α : Type} [Wire α]

def write (value : α) (format : Json.Format := .strict) : Text :=
  format.render (toJson value)

/-- The value that `text` stands for. Why it stands for none is not told. -/
def read? (text : Text) (format : Json.Format := .strict)
    (records : Json.Records := .standard) : Option α :=
  (format.read? text).bind fun json => ofJson? json records

instance : Wire (List α) where
  toJson values := .array (values.map toJson)
  ofJson? json records :=
    match json with
    | .array items => items.mapM fun item => ofJson? item records
    | _ => none

end Wire

end LiveDocument
