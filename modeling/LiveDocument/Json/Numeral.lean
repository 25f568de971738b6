import LiveDocument.Json.Value

/-!
# Numbers of the JSON format

Every part of a number is read off the front of a text, and gives what it read and
the rest. What is read and what is left make up the text.
-/

namespace LiveDocument

namespace Numeral

/-- The digits at the front, of which there has to be one. -/
def digits? (text : Text) : Option (Text × Text) :=
  if (text.takeWhile Char.isDigit).isEmpty then none
  else some (text.takeWhile Char.isDigit, text.dropWhile Char.isDigit)

def minus : Text → Text × Text
  | '-' :: rest => (['-'], rest)
  | text => ([], text)

/-- The digits before the point, with no zero in front of others. -/
def whole? (text : Text) : Option (Text × Text) :=
  match digits? text with
  | some ('0' :: _ :: _, _) => none
  | found => found

def fraction? : Text → Option (Text × Text)
  | '.' :: rest => (digits? rest).map fun (found, later) => ('.' :: found, later)
  | text => some ([], text)

def plusOrMinus : Text → Text × Text
  | '+' :: rest => (['+'], rest)
  | text => minus text

def exponent? (text : Text) : Option (Text × Text) :=
  match text with
  | 'e' :: rest => after 'e' rest
  | 'E' :: rest => after 'E' rest
  | _ => some ([], text)
where
  after (mark : Char) (text : Text) : Option (Text × Text) :=
    (digits? (plusOrMinus text).2).map fun (found, rest) =>
      (mark :: ((plusOrMinus text).1 ++ found), rest)

def read? (text : Text) : Option (Scalar × Text) :=
  (whole? (minus text).2).bind fun (whole, afterWhole) =>
    (fraction? afterWhole).bind fun (fraction, afterFraction) =>
      (exponent? afterFraction).map fun (exponent, rest) =>
        (ofLiteral ((minus text).1 ++ whole ++ fraction ++ exponent), rest)
where
  ofLiteral (literal : Text) : Scalar :=
    if literal.all Char.isDigit then .natural (Nat.ofDigitChars 10 literal 0)
    else .decimal literal

/-- The digits of `value` without leading zeros. -/
def render (value : Nat) : Text := Nat.toDigits 10 value

/-! ## What is read and what is left make up the text -/

theorem digits?_append {text found rest : Text} (read : digits? text = some (found, rest)) :
    found ≠ [] ∧ found ++ rest = text := by
  rw [digits?] at read
  split at read
  · contradiction
  · rename_i someDigits
    cases read
    exact ⟨fun empty => someDigits (List.isEmpty_iff.2 empty),
      List.takeWhile_append_dropWhile⟩

theorem minus_append (text : Text) : (minus text).1 ++ (minus text).2 = text := by
  unfold minus
  split <;> rfl

theorem plusOrMinus_append (text : Text) :
    (plusOrMinus text).1 ++ (plusOrMinus text).2 = text := by
  unfold plusOrMinus
  split
  · rfl
  · exact minus_append _

theorem whole?_append {text whole rest : Text} (read : whole? text = some (whole, rest)) :
    whole ≠ [] ∧ whole ++ rest = text := by
  rw [whole?] at read
  split at read
  · contradiction
  · exact digits?_append read

theorem fraction?_append {text fraction rest : Text}
    (read : fraction? text = some (fraction, rest)) : fraction ++ rest = text := by
  unfold fraction? at read
  split at read
  · obtain ⟨⟨found, later⟩, digits, equality⟩ := Option.map_eq_some_iff.1 read
    cases equality
    rw [List.cons_append, (digits?_append digits).2]
  · cases read
    rfl

theorem exponent?_append {text exponent rest : Text}
    (read : exponent? text = some (exponent, rest)) : exponent ++ rest = text := by
  have afterMark {mark : Char} {text : Text}
      (read : exponent?.after mark text = some (exponent, rest)) :
      exponent ++ rest = mark :: text := by
    obtain ⟨⟨found, later⟩, digits, equality⟩ := Option.map_eq_some_iff.1 read
    cases equality
    rw [List.cons_append, List.append_assoc, (digits?_append digits).2,
      plusOrMinus_append]
  unfold exponent? at read
  split at read
  · exact afterMark read
  · exact afterMark read
  · cases read
    rfl

theorem length_read? {text rest : Text} {number : Scalar}
    (read : read? text = some (number, rest)) : rest.length < text.length := by
  obtain ⟨⟨whole, afterWhole⟩, wholeRead, read⟩ := Option.bind_eq_some_iff.1 read
  obtain ⟨⟨fraction, afterFraction⟩, fractionRead, read⟩ := Option.bind_eq_some_iff.1 read
  obtain ⟨⟨exponent, later⟩, exponentRead, equality⟩ := Option.map_eq_some_iff.1 read
  cases equality
  obtain ⟨someDigits, wholeSplit⟩ := whole?_append wholeRead
  have signLength := congrArg List.length (minus_append text)
  have wholeLength := congrArg List.length wholeSplit
  have fractionLength := congrArg List.length (fraction?_append fractionRead)
  have exponentLength := congrArg List.length (exponent?_append exponentRead)
  have positive := List.length_pos_iff.2 someDigits
  simp only [List.length_append] at *
  omega

end Numeral

end LiveDocument
