import LiveDocument.Json.Tree

/-!
# Records on the wire

A value with named fields is an object or an array. In an object the fields may come
in any order and among other members.
-/

namespace LiveDocument

namespace Json

/-- The only member with that name. Nothing is found if there is none, and there is
no answer if there are several. -/
def field? (members : List (Option Text × Json)) (name : String) : Option (Option Json) :=
  match members.filter fun member => member.1 == some name.toList with
  | [] => some none
  | [member] => some (some member.2)
  | _ => none

/-- The values of the fields of a record with these field names, in their order. A
record is an object that has none of the fields twice, in which every name is a
text and other members do not count, or an array with a value for every field. -/
def fields? (names : List String) : Json → Option (List (Option Json))
  | scalar _ => none
  | array items => if items.length = names.length then some (items.map some) else none
  | object members =>
      if members.all fun member => member.1.isSome then names.mapM (field? members) else none

/-- A way of reading records: the values of the fields with some names, in the order of
these, of which each may be left out. -/
structure Records where
  fields? : List String → Json → Option (List (Option Json))

/-- Records are objects or arrays. -/
def Records.standard : Records := ⟨Json.fields?⟩

def record (fields : List (String × Json)) : Json :=
  object (fields.map fun (name, value) => (some name.toList, value))

end Json

end LiveDocument
