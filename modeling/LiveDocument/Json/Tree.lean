import LiveDocument.Json.Token

/-!
# Trees from tokens

The tokens of a value are taken one by one, with a stack of the arrays and objects
that are still open, so that values may be nested to any depth. `Json.tokens` goes
the other way.
-/

namespace LiveDocument

namespace Json

/-- An array or object that is not closed yet, with what it holds in reverse
order. -/
inductive Frame where
  | array (items : List Json)
  /-- An object with the name of the member whose value comes next. -/
  | object (members : List (Option Text × Json)) (name : Option Text)

/-- What has been read of a value. The innermost open frame comes first. -/
inductive Progress where
  | beforeValue (frames : List Frame)
  | afterOpenArray (frames : List Frame)
  | afterOpenObject (frames : List Frame)
  | beforeName (members : List (Option Text × Json)) (frames : List Frame)
  | afterName (members : List (Option Text × Json)) (name : Option Text)
    (frames : List Frame)
  | afterValue (value : Json) (frames : List Frame)

namespace Progress

/-- The token of a value to come: a whole value, or the start of one. -/
def startValue (frames : List Frame) : Token → Option Progress
  | .scalar value => some (afterValue (Json.scalar value) frames)
  | .openArray => some (afterOpenArray frames)
  | .openObject => some (afterOpenObject frames)
  | _ => none

/-- Takes one token. There is no going on if it cannot stand here. -/
def step : Progress → Token → Option Progress
  | beforeValue frames, token => startValue frames token
  | afterOpenArray frames, .closeArray => some (afterValue (Json.array []) frames)
  | afterOpenArray frames, token => startValue (.array [] :: frames) token
  | afterOpenObject frames, .closeObject => some (afterValue (Json.object []) frames)
  | afterOpenObject frames, .scalar (.string name) => some (afterName [] name frames)
  | beforeName members frames, .scalar (.string name) =>
      some (afterName members name frames)
  | afterName members name frames, .colon =>
      some (beforeValue (.object members name :: frames))
  | afterValue value (.array items :: frames), .comma =>
      some (beforeValue (.array (value :: items) :: frames))
  | afterValue value (.array items :: frames), .closeArray =>
      some (afterValue (Json.array (value :: items).reverse) frames)
  | afterValue value (.object members name :: frames), .comma =>
      some (beforeName ((name, value) :: members) frames)
  | afterValue value (.object members name :: frames), .closeObject =>
      some (afterValue (Json.object ((name, value) :: members).reverse) frames)
  | _, _ => none

def value? : Progress → Option Json
  | afterValue value [] => some value
  | _ => none

end Progress

def ofTokens? (tokens : List Token) : Option Json :=
  (tokens.foldlM Progress.step (.beforeValue [])).bind Progress.value?

mutual

def tokens : Json → List Token
  | scalar value => [.scalar value]
  | array items => .openArray :: arrayTokens items ++ [.closeArray]
  | object members => .openObject :: objectTokens members ++ [.closeObject]

def arrayTokens : List Json → List Token
  | [] => []
  | first :: rest => tokens first ++ furtherItems rest

def furtherItems : List Json → List Token
  | [] => []
  | item :: rest => .comma :: tokens item ++ furtherItems rest

def objectTokens : List (Option Text × Json) → List Token
  | [] => []
  | (name, value) :: rest =>
      .scalar (.string name) :: .colon :: tokens value ++ furtherMembers rest

def furtherMembers : List (Option Text × Json) → List Token
  | [] => []
  | (name, value) :: rest =>
      .comma :: .scalar (.string name) :: .colon :: tokens value ++ furtherMembers rest

end

/-- The value that `text` writes, with blanks allowed between tokens. -/
def read? (text : Text) : Option Json :=
  (Token.ofText? text).bind fun tokens => ofTokens? tokens.toList

def render (value : Json) : Text := value.tokens.flatMap Token.render

/-- A way of writing values as texts, and of reading texts as values. -/
structure Format where
  render : Json → Text
  read? : Text → Option Json

/-- The format with one value to a text, and nothing that the grammar of values does not
name. -/
def Format.strict : Format := ⟨Json.render, Json.read?⟩

end Json

end LiveDocument
