import LiveDocument.Text.Bytes

/-!
# Strings of the JSON format

A string is read in two steps: first the characters and numbered UTF-16 units that are
written, then the text that they make. A string whose units do not pair up is well
formed but has no text.
-/

namespace LiveDocument

namespace Quoted

/-- One character of a string as it is written: itself, or the number of a UTF-16
unit. -/
inductive Part where
  | character (c : Char)
  | unit (value : Nat)
deriving DecidableEq, Repr

/-- The character for which a letter stands after a backslash. -/
def escaped? : Char → Option Char
  | '"' => some '"'
  | '\\' => some '\\'
  | '/' => some '/'
  | 'b' => some '\x08'
  | 'f' => some '\x0c'
  | 'n' => some '\n'
  | 'r' => some '\r'
  | 't' => some '\t'
  | _ => none

def hexDigit? (c : Char) : Option Nat :=
  if '0' ≤ c ∧ c ≤ '9' then some (c.toNat - '0'.toNat)
  else if 'a' ≤ c ∧ c ≤ 'f' then some (c.toNat - 'a'.toNat + 10)
  else if 'A' ≤ c ∧ c ≤ 'F' then some (c.toNat - 'A'.toNat + 10)
  else none

def unit? (a b c d : Char) : Option Nat := do
  let a ← hexDigit? a
  let b ← hexDigit? b
  let c ← hexDigit? c
  let d ← hexDigit? d
  some (((a * 16 + b) * 16 + c) * 16 + d)

/-- Control characters may not stand in a string as they are. -/
def isControl (c : Char) : Bool := c.toNat < 0x20

/-- The parts of a string up to its closing quotation mark, after those already
read, and what follows the mark. -/
def readParts (done : Array Part) : Text → Option (Array Part × Text)
  | [] => none
  | '"' :: rest => some (done, rest)
  | '\\' :: 'u' :: a :: b :: c :: d :: rest =>
      match unit? a b c d with
      | some value => readParts (done.push (.unit value)) rest
      | none => none
  | '\\' :: letter :: rest =>
      match escaped? letter with
      | some c => readParts (done.push (.character c)) rest
      | none => none
  | c :: rest =>
      if isControl c || c == '\\' then none else readParts (done.push (.character c)) rest

def isHighSurrogate (value : Nat) : Bool := 0xd800 ≤ value && value < 0xdc00

def isLowSurrogate (value : Nat) : Bool := 0xdc00 ≤ value && value < 0xe000

def joinSurrogates (high low : Nat) : Char :=
  Char.ofNat (0x10000 + (high - 0xd800) * 0x400 + (low - 0xdc00))

/-- The characters of the parts, after those already found. There are none if a
surrogate is without its other half. -/
def joinParts (done : Array Char) : List Part → Option (Array Char)
  | [] => some done
  | .character c :: rest => joinParts (done.push c) rest
  | .unit high :: .unit low :: rest =>
      if isHighSurrogate high && isLowSurrogate low then
        joinParts (done.push (joinSurrogates high low)) rest
      else if isHighSurrogate high || isLowSurrogate high then none
      else joinParts (done.push (Char.ofNat high)) (.unit low :: rest)
  | .unit value :: rest =>
      if isHighSurrogate value || isLowSurrogate value then none
      else joinParts (done.push (Char.ofNat value)) rest

/-- Reads a string after its opening quotation mark: its text, if it has one, and
what follows the closing mark. -/
def read? (text : Text) : Option (Option Text × Text) :=
  (readParts #[] text).map fun (parts, rest) =>
    ((joinParts #[] parts.toList).map Array.toList, rest)

def escape (c : Char) : Text :=
  match c with
  | '"' => ['\\', '"']
  | '\\' => ['\\', '\\']
  | '\n' => ['\\', 'n']
  | '\r' => ['\\', 'r']
  | '\t' => ['\\', 't']
  | '\x08' => ['\\', 'b']
  | '\x0c' => ['\\', 'f']
  | c =>
      if isControl c then
        ['\\', 'u', '0', '0', (c.toNat / 16).digitChar, (c.toNat % 16).digitChar]
      else [c]

/-- The string with both quotation marks. A string without a text is written as
half of a surrogate pair. -/
def render : Option Text → Text
  | some text => '"' :: text.flatMap escape ++ ['"']
  | none => ['"', '\\', 'u', 'd', '8', '0', '0', '"']

theorem length_readParts {done parts : Array Part} {text rest : Text}
    (read : readParts done text = some (parts, rest)) : rest.length < text.length := by
  fun_induction readParts done text with
  | case1 => contradiction
  | case2 =>
      cases read
      simp
  | case3 _ _ _ _ _ _ _ _ ih =>
      have shorter := ih read
      simp only [List.length_cons]
      omega
  | case4 => contradiction
  | case5 _ _ _ _ _ _ ih =>
      have shorter := ih read
      simp only [List.length_cons]
      omega
  | case6 => contradiction
  | case7 => contradiction
  | case8 _ _ _ _ _ _ _ ih =>
      have shorter := ih read
      simp only [List.length_cons]
      omega

theorem length_read? {text rest : Text} {content : Option Text}
    (read : read? text = some (content, rest)) : rest.length < text.length := by
  obtain ⟨⟨parts, _⟩, found, equality⟩ := Option.map_eq_some_iff.1 read
  cases equality
  exact length_readParts found

end Quoted

end LiveDocument
