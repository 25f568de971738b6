import LiveDocument.Change
import LiveDocument.ColumnUnit
import LiveDocument.Wire.Basic

/-!
# Wire forms

How coordinates, ranges, column units, edits and changes are sent.
-/

namespace LiveDocument

namespace Wire

/-- Coordinates are 32-bit numbers on the wire. -/
def coordinateLimit : Nat := 4294967296

def coordinate? : Json → Option Nat
  | .scalar (.natural value) => if value < coordinateLimit then some value else none
  | _ => none

def text? : Json → Option Text
  | .scalar (.string content) => content
  | _ => none

instance : Wire Position where
  toJson position :=
    .record [("line", .natural position.line), ("character", .natural position.character)]
  ofJson? json records :=
    match records.fields? ["line", "character"] json with
    | some [some line, some character] => do
      some ⟨← coordinate? line, ← coordinate? character⟩
    | _ => none

instance : Wire Range where
  toJson range :=
    .record [("start", toJson range.start), ("end", toJson range.stop)]
  ofJson? json records :=
    match records.fields? ["start", "end"] json with
    | some [some start, some stop] => do
      some ⟨← ofJson? start records, ← ofJson? stop records⟩
    | _ => none

def unitOfName? (name : Option Text) : Option ColumnUnit :=
  name.bind fun content => ColumnUnit.ofName? (String.ofList content)

/-- A unit is written as its name, and also read from an object that has this name
for its only member, with the value null. -/
instance : Wire ColumnUnit where
  toJson unit := .text unit.name.toList
  ofJson? json _ :=
    match json with
    | .scalar (.string name) => unitOfName? name
    | .object [(name, .scalar .null)] => unitOfName? name
    | _ => none

instance : Wire Edit where
  toJson edit := .record [("range", toJson edit.range), ("newText", .text edit.text)]
  ofJson? json records :=
    match records.fields? ["range", "newText"] json with
    | some [some range, some content] => do
      some ⟨← ofJson? range records, ← text? content⟩
    | _ => none

end Wire

/-- A change as it is sent: without a range it is a change of the whole text. -/
structure ChangeEvent where
  range? : Option Range
  text : Text
deriving DecidableEq, Repr

namespace ChangeEvent

def toChange (event : ChangeEvent) : Change := .ofParts event.range? event.text

def ofChange (change : Change) : ChangeEvent := ⟨change.range?, change.text⟩

@[simp]
theorem toChange_ofChange (change : Change) : (ofChange change).toChange = change :=
  change.ofParts_range?_text

@[simp]
theorem ofChange_toChange (event : ChangeEvent) : ofChange event.toChange = event := by
  cases event
  simp [ofChange, toChange]

/-- The range of an event, which may be left out or null. -/
def rangeOfJson? (records : Json.Records) : Option Json → Option (Option Range)
  | none => some none
  | some (.scalar .null) => some none
  | some json => (Wire.ofJson? json records).map some

instance : Wire ChangeEvent where
  toJson event :=
    match event.range? with
    | none => .record [("text", .text event.text)]
    | some range => .record [("range", Wire.toJson range), ("text", .text event.text)]
  ofJson? json records :=
    match records.fields? ["range", "text"] json with
    | some [range, some content] => do
      some ⟨← rangeOfJson? records range, ← Wire.text? content⟩
    | _ => none

end ChangeEvent

end LiveDocument
