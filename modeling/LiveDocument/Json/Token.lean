import LiveDocument.Json.Numeral
import LiveDocument.Json.Quoted

/-!
# Tokens of the JSON format

A text is cut into tokens, with blanks between them skipped. Two tokens need no blank
between them: where one would be needed, no value can have both in a row.
-/

namespace LiveDocument

inductive Token where
  | openArray
  | closeArray
  | openObject
  | closeObject
  | comma
  | colon
  | scalar (value : Scalar)
deriving DecidableEq, Repr

namespace Token

/-- Only these four characters may stand between tokens. -/
def isBlank (c : Char) : Bool := c == ' ' || c == '\n' || c == '\r' || c == '\t'

def next? (text : Text) : Option (Token × Text) :=
  match text with
  | '[' :: rest => some (openArray, rest)
  | ']' :: rest => some (closeArray, rest)
  | '\x7b' :: rest => some (openObject, rest)
  | '\x7d' :: rest => some (closeObject, rest)
  | ',' :: rest => some (comma, rest)
  | ':' :: rest => some (colon, rest)
  | 'n' :: 'u' :: 'l' :: 'l' :: rest => some (scalar .null, rest)
  | 't' :: 'r' :: 'u' :: 'e' :: rest => some (scalar (.boolean true), rest)
  | 'f' :: 'a' :: 'l' :: 's' :: 'e' :: rest => some (scalar (.boolean false), rest)
  | '"' :: rest => (Quoted.read? rest).map fun (content, later) =>
      (scalar (.string content), later)
  | _ => (Numeral.read? text).map fun (number, later) => (scalar number, later)

theorem length_next? {text rest : Text} {token : Token}
    (read : next? text = some (token, rest)) : rest.length < text.length := by
  unfold next? at read
  split at read
  case h_10 =>
    obtain ⟨⟨content, later⟩, found, equality⟩ := Option.map_eq_some_iff.1 read
    cases equality
    exact Nat.lt_succ_of_lt (Quoted.length_read? found)
  case h_11 =>
    obtain ⟨⟨number, later⟩, found, equality⟩ := Option.map_eq_some_iff.1 read
    cases equality
    exact Numeral.length_read? found
  all_goals
    cases read
    simp only [List.length_cons]
    omega

theorem length_dropWhile_isBlank (text : Text) :
    (text.dropWhile isBlank).length ≤ text.length :=
  (List.dropWhile_sublist isBlank).length_le

/-- The tokens of `text`, if it is made of tokens and blanks only. -/
def ofText? (text : Text) : Option (Array Token) :=
  go #[] text
where
  go (done : Array Token) (text : Text) : Option (Array Token) :=
    if (text.dropWhile isBlank).isEmpty then some done
    else
      match _found : next? (text.dropWhile isBlank) with
      | none => none
      | some (token, rest) => go (done.push token) rest
  termination_by text.length
  decreasing_by
    exact Nat.lt_of_lt_of_le (length_next? _found) (length_dropWhile_isBlank text)

def renderScalar : Scalar → Text
  | .null => "null".toList
  | .boolean true => "true".toList
  | .boolean false => "false".toList
  | .natural value => Numeral.render value
  | .decimal literal => literal
  | .string content => Quoted.render content

def render : Token → Text
  | openArray => ['[']
  | closeArray => [']']
  | openObject => ['\x7b']
  | closeObject => ['\x7d']
  | comma => [',']
  | colon => [':']
  | scalar value => renderScalar value

end Token

end LiveDocument
