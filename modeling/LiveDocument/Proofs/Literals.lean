import LiveDocument.Json.Token
import Mathlib.Data.List.TakeWhile

/-!
# Literals read back

A number is read in the same way whatever follows it, as long as that does not go on with
the number (`Numeral.read?_append`), and a string up to its closing mark. So both are read
back as they were written (`Numeral.read?_render`, `Quoted.read?_render`).
-/

namespace LiveDocument

namespace Numeral

/-- No number goes on with `rest`. -/
def Ends (rest : Text) : Prop :=
  ∀ c ∈ rest.head?, c.isDigit = false ∧ c ≠ '.' ∧ c ≠ 'e' ∧ c ≠ 'E'

theorem ends_nil : Ends [] := fun _ member => nomatch member

theorem ends_cons {c : Char} {rest : Text}
    (apart : c.isDigit = false ∧ c ≠ '.' ∧ c ≠ 'e' ∧ c ≠ 'E') : Ends (c :: rest) := by
  rintro other member
  cases Option.mem_some.1 member
  exact apart

section Append

variable {text rest : Text}

theorem span_digits_of_ends (ends : Ends rest) :
    rest.takeWhile Char.isDigit = [] ∧ rest.dropWhile Char.isDigit = rest := by
  cases rest with
  | nil => exact ⟨rfl, rfl⟩
  | cons c later =>
      have noDigit := (ends c rfl).1
      simp [noDigit]

theorem digits?_append_right {found left : Text} (read : digits? text = some (found, left))
    (ends : Ends rest) : digits? (text ++ rest) = some (found, left ++ rest) := by
  obtain ⟨noneTaken, allLeft⟩ := span_digits_of_ends ends
  have taken : (text ++ rest).takeWhile Char.isDigit = text.takeWhile Char.isDigit := by
    rw [List.takeWhile_append]
    split
    · rename_i allDigits
      rw [noneTaken, List.append_nil,
        (List.takeWhile_prefix Char.isDigit).eq_of_length allDigits]
    · rfl
  have dropped :
      (text ++ rest).dropWhile Char.isDigit = text.dropWhile Char.isDigit ++ rest := by
    rw [List.dropWhile_append]
    split
    · rename_i noneLeft
      rw [allLeft, List.isEmpty_iff.1 noneLeft, List.nil_append]
    · rfl
  rw [digits?] at read ⊢
  rw [taken, dropped]
  split at read
  · contradiction
  · rename_i someDigits
    cases read
    rw [if_neg someDigits]

theorem minus_append_right (nonempty : text ≠ []) (rest : Text) :
    minus (text ++ rest) = ((minus text).1, (minus text).2 ++ rest) := by
  cases text with
  | nil => exact absurd rfl nonempty
  | cons c later => by_cases sign : c = '-' <;> simp [minus, sign]

theorem plusOrMinus_append_right (nonempty : text ≠ []) (rest : Text) :
    plusOrMinus (text ++ rest) = ((plusOrMinus text).1, (plusOrMinus text).2 ++ rest) := by
  cases text with
  | nil => exact absurd rfl nonempty
  | cons c later =>
      by_cases sign : c = '+'
      · simp [plusOrMinus, sign]
      · have other := minus_append_right nonempty rest
        simp [plusOrMinus, sign, ← other]

theorem whole?_append_right {whole left : Text} (read : whole? text = some (whole, left))
    (ends : Ends rest) : whole? (text ++ rest) = some (whole, left ++ rest) := by
  rw [whole?] at read ⊢
  split at read
  · contradiction
  · rename_i noZeros
    rw [digits?_append_right read ends]
    split
    · rename_i zeros
      cases zeros
      exact absurd read (noZeros _ _ _)
    · rfl

theorem fraction?_append_right {fraction left : Text}
    (read : fraction? text = some (fraction, left)) (ends : Ends rest) :
    fraction? (text ++ rest) = some (fraction, left ++ rest) := by
  cases text with
  | nil =>
      cases read
      cases rest with
      | nil => rfl
      | cons c later =>
          have noPoint := (ends c rfl).2.1
          simp [fraction?, noPoint]
  | cons c later =>
      by_cases point : c = '.'
      · subst point
        obtain ⟨⟨found, later⟩, digits, equality⟩ := Option.map_eq_some_iff.1 read
        cases equality
        rw [List.cons_append, fraction?, digits?_append_right digits ends]
        rfl
      · simp [fraction?, point] at read ⊢
        obtain ⟨rfl, rfl⟩ := read
        exact ⟨rfl, rfl⟩

theorem exponent?_append_right {exponent left : Text}
    (read : exponent? text = some (exponent, left)) (ends : Ends rest) :
    exponent? (text ++ rest) = some (exponent, left ++ rest) := by
  have afterMark {mark : Char} {text : Text}
      (read : exponent?.after mark text = some (exponent, left)) :
      exponent?.after mark (text ++ rest) = some (exponent, left ++ rest) := by
    obtain ⟨⟨found, later⟩, digits, equality⟩ := Option.map_eq_some_iff.1 read
    cases equality
    have nonempty : text ≠ [] := by
      rintro rfl
      cases digits
    rw [exponent?.after, plusOrMinus_append_right nonempty, digits?_append_right digits ends]
    rfl
  cases text with
  | nil =>
      cases read
      cases rest with
      | nil => rfl
      | cons c later =>
          have noMark := (ends c rfl).2.2
          simp [exponent?, noMark]
  | cons c later =>
      by_cases small : c = 'e'
      · subst small
        exact afterMark read
      · by_cases large : c = 'E'
        · subst large
          exact afterMark read
        · simp [exponent?, small, large] at read ⊢
          obtain ⟨rfl, rfl⟩ := read
          exact ⟨rfl, rfl⟩

theorem read?_of_parts {whole afterWhole fraction afterFraction exponent left : Text}
    (wholeRead : whole? (minus text).2 = some (whole, afterWhole))
    (fractionRead : fraction? afterWhole = some (fraction, afterFraction))
    (exponentRead : exponent? afterFraction = some (exponent, left)) :
    read? text =
      some (read?.ofLiteral ((minus text).1 ++ whole ++ fraction ++ exponent), left) := by
  simp only [read?, wholeRead, fractionRead, exponentRead, Option.bind_some, Option.map_some]

/-- A number is read in the same way before other text. -/
theorem read?_append {number : Scalar} {left : Text}
    (read : read? text = some (number, left)) (ends : Ends rest) :
    read? (text ++ rest) = some (number, left ++ rest) := by
  obtain ⟨⟨whole, afterWhole⟩, wholeRead, read⟩ := Option.bind_eq_some_iff.1 read
  obtain ⟨⟨fraction, afterFraction⟩, fractionRead, read⟩ := Option.bind_eq_some_iff.1 read
  obtain ⟨⟨exponent, later⟩, exponentRead, equality⟩ := Option.map_eq_some_iff.1 read
  cases equality
  have nonempty : text ≠ [] := by
    rintro rfl
    cases wholeRead
  have cut := minus_append_right nonempty rest
  have wholeRead' : whole? (minus (text ++ rest)).2 = some (whole, afterWhole ++ rest) := by
    rw [cut]
    exact whole?_append_right wholeRead ends
  rw [read?_of_parts wholeRead' (fraction?_append_right fractionRead ends)
    (exponent?_append_right exponentRead ends), cut]

end Append

/-- Only zero is written with a zero in front. -/
theorem eq_zero_of_render {value : Nat} {later : Text} (zero : render value = '0' :: later) :
    value = 0 := by
  induction value using Nat.strongRecOn generalizing later with
  | ind value ih =>
      rw [render, Nat.toDigits_eq_if (by decide)] at zero
      split at zero
      · rename_i small
        have isZero := (List.cons.inj zero).1
        clear ih zero
        decide +revert
      · -- The digit in front is the one in front of `value / 10`, which is not zero.
        rename_i large
        obtain ⟨first, others, shorter⟩ :
            ∃ first others, render (value / 10) = first :: others :=
          List.exists_cons_of_ne_nil Nat.toDigits_ne_nil
        rw [render] at shorter
        rw [shorter] at zero
        have isZero := (List.cons.inj zero).1
        have shorterIsZero := ih (value / 10) (by omega) (isZero ▸ shorter)
        omega

theorem render_ne_nil (value : Nat) : render value ≠ [] := Nat.toDigits_ne_nil

theorem isDigit_of_mem_render {value : Nat} {c : Char} (member : c ∈ render value) :
    c.isDigit = true :=
  Nat.isDigit_of_mem_toDigits (by decide) (by decide) member

theorem whole?_render (value : Nat) : whole? (render value) = some (render value, []) := by
  have digits : digits? (render value) = some (render value, []) := by
    have taken : (render value).takeWhile Char.isDigit = render value :=
      List.takeWhile_eq_self_iff.2 fun c member => isDigit_of_mem_render member
    have dropped : (render value).dropWhile Char.isDigit = [] :=
      List.dropWhile_eq_nil_iff.2 fun c member => isDigit_of_mem_render member
    have someDigits : ¬ (render value).isEmpty = true := fun empty =>
      render_ne_nil value (List.isEmpty_iff.1 empty)
    rw [digits?, taken, dropped, if_neg someDigits]
  rw [whole?, digits]
  split
  · rename_i zeros
    have written := (Prod.mk.inj (Option.some.inj zeros)).1
    have isZero := eq_zero_of_render written
    subst isZero
    cases written
  · rfl

theorem minus_render (value : Nat) : minus (render value) = ([], render value) := by
  unfold minus
  split
  · rename_i sign
    have digit : Char.isDigit '-' = true := isDigit_of_mem_render (sign ▸ List.mem_cons_self)
    cases digit
  · rfl

theorem read?_render (value : Nat) : read? (render value) = some (.natural value, []) := by
  have unsigned := minus_render value
  have wholeRead : whole? (minus (render value)).2 = some (render value, []) := by
    rw [unsigned]
    exact whole?_render value
  have digitsOnly : (render value).all Char.isDigit = true :=
    List.all_eq_true.2 fun c member => isDigit_of_mem_render member
  rw [read?_of_parts wholeRead rfl rfl, unsigned, List.nil_append, List.append_nil,
    List.append_nil, read?.ofLiteral, if_pos digitsOnly, render, Nat.ofDigitChars_ten_toDigits]

end Numeral

namespace Quoted

/-! ## Strings -/

/-- What is read where `c` was written. -/
def partOf (c : Char) : Part :=
  if isControl c && !(['\n', '\r', '\t', '\x08', '\x0c'].contains c) then .unit c.toNat
  else .character c

theorem hexDigit?_digitChar : ∀ value < 16, hexDigit? value.digitChar = some value := by
  decide

theorem unit?_of_isControl {c : Char} (control : isControl c = true) :
    unit? '0' '0' (c.toNat / 16).digitChar (c.toNat % 16).digitChar = some c.toNat := by
  have small : c.toNat < 32 := of_decide_eq_true control
  have high := hexDigit?_digitChar (c.toNat / 16) (by omega)
  have low := hexDigit?_digitChar (c.toNat % 16) (by omega)
  have zero : hexDigit? '0' = some 0 := rfl
  simp only [unit?, high, low, zero, Option.bind_eq_bind, Option.bind_some]
  congr 1
  omega

theorem readParts_escape (done : Array Part) (c : Char) (rest : Text) :
    readParts done (escape c ++ rest) = readParts (done.push (partOf c)) rest := by
  unfold escape
  split
  case h_8 quote backslash newline carriageReturn tab backspace formFeed =>
    split
    · rename_i control
      have numbered : partOf c = .unit c.toNat := by
        simpa [partOf, control] using ⟨newline, carriageReturn, tab, backspace, formFeed⟩
      simp only [List.cons_append, List.nil_append, readParts, unit?_of_isControl control,
        numbered]
    · rename_i noControl
      have itself : partOf c = .character c := by simp [partOf, noControl]
      rw [List.cons_append, List.nil_append, itself]
      have plain : (isControl c || c == '\\') = false := by
        simpa [noControl] using backslash
      rw [readParts, plain]
      · rfl
      · exact quote
      · exact fun _ _ _ _ _ isBackslash _ => backslash isBackslash
      · exact fun _ _ isBackslash _ => backslash isBackslash
  all_goals simp [readParts, escaped?, partOf, isControl]

theorem joinParts_partOf (done : Array Char) (c : Char) (rest : List Part) :
    joinParts done (partOf c :: rest) = joinParts (done.push c) rest := by
  rw [partOf]
  split
  · rename_i control
    have small : c.toNat < 32 := of_decide_eq_true (Bool.and_eq_true_iff.1 control).1
    have noHigh : isHighSurrogate c.toNat = false := by
      simp only [isHighSurrogate, Bool.and_eq_false_iff, decide_eq_false_iff_not]
      omega
    have noLow : isLowSurrogate c.toNat = false := by
      simp only [isLowSurrogate, Bool.and_eq_false_iff, decide_eq_false_iff_not]
      omega
    cases rest with
    | nil => simp [joinParts, noHigh, noLow]
    | cons next later =>
        cases next <;> simp [joinParts, noHigh, noLow]
  · rfl

theorem readParts_flatMap_escape (done : Array Part) (content rest : Text) :
    readParts done (content.flatMap escape ++ '"' :: rest) =
      some (done ++ content.map partOf, rest) := by
  induction content generalizing done with
  | nil => simp [readParts]
  | cons c later ih =>
      rw [List.flatMap_cons, List.append_assoc, readParts_escape, ih]
      simp

theorem joinParts_map_partOf (done : Array Char) (content : Text) :
    joinParts done (content.map partOf) = some (done ++ content) := by
  induction content generalizing done with
  | nil => simp [joinParts]
  | cons c later ih =>
      rw [List.map_cons, joinParts_partOf, ih]
      simp

/-- After its mark, a string is read back whatever follows it. -/
theorem render_eq_cons (content : Option Text) :
    ∃ body, render content = '"' :: body ∧
      ∀ rest, read? (body ++ rest) = some (content, rest) := by
  cases content with
  | none => exact ⟨_, rfl, fun _ => rfl⟩
  | some content =>
      refine ⟨content.flatMap escape ++ ['"'], rfl, fun rest => ?_⟩
      rw [List.append_assoc, read?]
      have parts := readParts_flatMap_escape #[] content rest
      have joined := joinParts_map_partOf #[] content
      simp [parts, joined]

end Quoted

end LiveDocument
