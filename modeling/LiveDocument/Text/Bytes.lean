/-!
# Texts and their bytes

A text is a list of characters. Offsets into it count the bytes of its UTF-8 form,
so an offset need not lie between two characters. This module measures texts, tells
boundaries from other offsets (`isBoundary_iff`), walks back to the nearest boundary
and cuts a text at an offset.
-/

namespace LiveDocument

/-- A text is the list of its characters in reading order. -/
abbrev Text := List Char

namespace Text

def totalWidth (width : Char → Nat) (text : Text) : Nat :=
  text.foldr (fun c total => width c + total) 0

/-- The number of bytes that `text` takes in UTF-8. -/
def byteLength (text : Text) : Nat :=
  totalWidth Char.utf8Size text

/-- Every character of an ASCII text takes one byte, one UTF-16 unit and one
code point. -/
def isAscii (text : Text) : Bool :=
  text.all fun c => c.toNat < 128

@[simp]
theorem totalWidth_nil (width : Char → Nat) :
    totalWidth width [] = 0 := rfl

@[simp]
theorem totalWidth_cons (width : Char → Nat) (c : Char) (text : Text) :
    totalWidth width (c :: text) = width c + totalWidth width text := rfl

theorem totalWidth_append (width : Char → Nat) (left right : Text) :
    totalWidth width (left ++ right) =
      totalWidth width left + totalWidth width right := by
  induction left with
  | nil => rw [List.nil_append, totalWidth_nil, Nat.zero_add]
  | cons c rest ih =>
      rw [List.cons_append, totalWidth_cons, totalWidth_cons, ih, Nat.add_assoc]

@[simp]
theorem byteLength_nil : byteLength [] = 0 := rfl

@[simp]
theorem byteLength_cons (c : Char) (text : Text) :
    byteLength (c :: text) = c.utf8Size + byteLength text := by
  simp [byteLength]

theorem byteLength_append (left right : Text) :
    byteLength (left ++ right) = byteLength left + byteLength right :=
  totalWidth_append _ left right

theorem byteLength_replicate (count : Nat) (c : Char) :
    byteLength (List.replicate count c) = count * c.utf8Size := by
  induction count with
  | zero => rw [List.replicate_zero, byteLength_nil, Nat.zero_mul]
  | succ count ih => rw [List.replicate_succ, byteLength_cons, ih, Nat.succ_mul, Nat.add_comm]

theorem byteLength_pos {text : Text} (nonempty : text ≠ []) : 0 < byteLength text := by
  cases text with
  | nil => contradiction
  | cons c rest =>
      have positive := c.utf8Size_pos
      rw [byteLength_cons]
      omega

/-- Of two leading parts of a text the one with fewer bytes leads the other. -/
theorem leads_of_byteLength_le {first firstRest second secondRest : Text}
    (same : first ++ firstRest = second ++ secondRest)
    (shorter : byteLength first ≤ byteLength second) :
    first <+: second := by
  have firstLeads : first <+: first ++ firstRest := ⟨firstRest, rfl⟩
  have secondLeads : second <+: first ++ firstRest := ⟨secondRest, same.symm⟩
  rcases List.prefix_or_prefix_of_prefix firstLeads secondLeads with leads | ⟨extra, rfl⟩
  · exact leads
  · have noExtra : extra = [] := by
      refine Classical.byContradiction fun nonempty => ?_
      have positive := byteLength_pos nonempty
      rw [byteLength_append] at shorter
      omega
    subst noExtra
    exact ⟨[], by simp only [List.append_nil]⟩

theorem utf8Size_feed : '\n'.utf8Size = 1 := rfl

/-! ## Character boundaries -/

/-- Whether `offset` is the byte offset of a character of `text` or of its end. -/
def isBoundary : Text → Nat → Bool
  | _, 0 => true
  | [], _ + 1 => false
  | c :: rest, offset => c.utf8Size ≤ offset && isBoundary rest (offset - c.utf8Size)

/-- The greatest boundary at or before `offset`, found by walking back. -/
def floorBoundary (text : Text) : Nat → Nat
  | 0 => 0
  | offset + 1 =>
      if isBoundary text (offset + 1) then offset + 1 else floorBoundary text offset

@[simp]
theorem isBoundary_zero (text : Text) : isBoundary text 0 = true := by
  cases text <;> rfl

theorem isBoundary_cons (c : Char) (rest : Text) {offset : Nat}
    (positive : 0 < offset) :
    isBoundary (c :: rest) offset =
      (c.utf8Size ≤ offset && isBoundary rest (offset - c.utf8Size)) := by
  cases offset with
  | zero => contradiction
  | succ n => rfl

/-- A boundary splits the text into the characters before it and after it. -/
theorem isBoundary_iff (text : Text) (offset : Nat) :
    isBoundary text offset = true ↔
      ∃ before after, text = before ++ after ∧ byteLength before = offset := by
  induction text generalizing offset with
  | nil =>
      cases offset with
      | zero => exact ⟨fun _ => ⟨[], [], rfl, rfl⟩, fun _ => rfl⟩
      | succ n => simp [isBoundary]
  | cons c rest ih =>
      cases offset with
      | zero =>
          exact ⟨fun _ => ⟨[], c :: rest, rfl, rfl⟩, fun _ => isBoundary_zero _⟩
      | succ n =>
          rw [isBoundary_cons c rest (Nat.succ_pos n), Bool.and_eq_true,
            decide_eq_true_eq, ih]
          constructor
          · rintro ⟨fits, before, after, rfl, length⟩
            exact ⟨c :: before, after, rfl, by rw [byteLength_cons, length]; omega⟩
          · rintro ⟨before, after, split, length⟩
            cases before with
            | nil => simp at length
            | cons head tail =>
                obtain ⟨rfl, rfl⟩ := List.cons.inj split
                rw [byteLength_cons] at length
                exact ⟨by omega, tail, after, rfl, by omega⟩

theorem isBoundary_append (before after : Text) :
    isBoundary (before ++ after) (byteLength before) = true :=
  (isBoundary_iff _ _).2 ⟨before, after, rfl, rfl⟩

theorem isBoundary_byteLength (text : Text) : isBoundary text (byteLength text) = true :=
  (isBoundary_iff _ _).2 ⟨text, [], (List.append_nil text).symm, rfl⟩

theorem le_byteLength_of_isBoundary {text : Text} {offset : Nat}
    (atBoundary : isBoundary text offset = true) :
    offset ≤ byteLength text := by
  obtain ⟨before, after, rfl, rfl⟩ := (isBoundary_iff text offset).1 atBoundary
  rw [byteLength_append]
  exact Nat.le_add_right _ _

/-- A boundary inside a middle part of a text is one of the text. -/
theorem isBoundary_append_add {before middle : Text} (after : Text) {offset : Nat}
    (atBoundary : isBoundary middle offset = true) :
    isBoundary (before ++ middle ++ after) (byteLength before + offset) = true := by
  obtain ⟨first, second, rfl, rfl⟩ := (isBoundary_iff middle offset).1 atBoundary
  refine (isBoundary_iff _ _).2 ⟨before ++ first, second ++ after, ?_, ?_⟩
  · simp only [List.append_assoc]
  · exact byteLength_append before first

/-- Boundaries that are behind the same leading parts are the same. -/
theorem eq_of_leading_le_iff {text : Text} {first second : Nat}
    (firstBoundary : isBoundary text first = true)
    (secondBoundary : isBoundary text second = true)
    (same : ∀ before after, text = before ++ after →
      (byteLength before ≤ first ↔ byteLength before ≤ second)) :
    first = second := by
  obtain ⟨before, after, split, rfl⟩ := (isBoundary_iff text first).1 firstBoundary
  obtain ⟨longer, rest, otherSplit, rfl⟩ := (isBoundary_iff text second).1 secondBoundary
  exact Nat.le_antisymm ((same before after split).1 (Nat.le_refl _))
    ((same longer rest otherSplit).2 (Nat.le_refl _))

theorem floorBoundary_eq_self {text : Text} {offset : Nat}
    (atBoundary : isBoundary text offset = true) :
    floorBoundary text offset = offset := by
  cases offset with
  | zero => rfl
  | succ n => rw [floorBoundary, if_pos atBoundary]

theorem floorBoundary_le (text : Text) (offset : Nat) :
    floorBoundary text offset ≤ offset := by
  induction offset with
  | zero => exact Nat.le_refl 0
  | succ n ih =>
      rw [floorBoundary]
      split
      · exact Nat.le_refl _
      · exact Nat.le_succ_of_le ih

theorem isBoundary_floorBoundary (text : Text) (offset : Nat) :
    isBoundary text (floorBoundary text offset) = true := by
  induction offset with
  | zero => exact isBoundary_zero text
  | succ n ih =>
      rw [floorBoundary]
      split
      · assumption
      · exact ih

theorem le_floorBoundary {text : Text} {boundary offset : Nat}
    (atBoundary : isBoundary text boundary = true) (below : boundary ≤ offset) :
    boundary ≤ floorBoundary text offset := by
  induction offset with
  | zero => exact below
  | succ n ih =>
      rw [floorBoundary]
      split
      · exact below
      · rename_i missed
        by_cases last : boundary = n + 1
        · rw [last] at atBoundary
          contradiction
        · exact ih (by omega)

/-! ## Cutting at a byte offset -/

/-- The number of leading characters of `text` that end at or before byte
`offset`. -/
def charactersWithin (text : Text) (offset : Nat) : Nat :=
  go text offset 0
where
  go : Text → Nat → Nat → Nat
    | [], _, count => count
    | c :: rest, budget, count =>
        if c.utf8Size ≤ budget then go rest (budget - c.utf8Size) (count + 1) else count

/-- The characters of `text` that end at or before byte `offset`. -/
def takeBytes (text : Text) (offset : Nat) : Text :=
  text.take (charactersWithin text offset)

def dropBytes (text : Text) (offset : Nat) : Text :=
  text.drop (charactersWithin text offset)

private theorem charactersWithin_go (text : Text) (budget count : Nat) :
    charactersWithin.go text budget count =
      count + charactersWithin.go text budget 0 := by
  induction text generalizing budget count with
  | nil => rfl
  | cons c rest ih =>
      simp only [charactersWithin.go]
      split
      · rw [ih _ (count + 1), ih _ (0 + 1)]
        omega
      · rfl

theorem charactersWithin_cons (c : Char) (rest : Text) (offset : Nat) :
    charactersWithin (c :: rest) offset =
      if c.utf8Size ≤ offset then
        charactersWithin rest (offset - c.utf8Size) + 1
      else 0 := by
  simp only [charactersWithin, charactersWithin.go]
  split
  · rw [charactersWithin_go]
    omega
  · rfl

theorem takeBytes_cons (c : Char) (rest : Text) (offset : Nat) :
    takeBytes (c :: rest) offset =
      if c.utf8Size ≤ offset then c :: takeBytes rest (offset - c.utf8Size) else [] := by
  rw [takeBytes, charactersWithin_cons]
  split
  · rfl
  · rfl

theorem takeBytes_append_dropBytes (text : Text) (offset : Nat) :
    takeBytes text offset ++ dropBytes text offset = text :=
  List.take_append_drop _ text

private theorem charactersWithin_append (before after : Text) :
    (before ++ after).take (charactersWithin (before ++ after) (byteLength before)) =
      before := by
  induction before with
  | nil =>
      cases after with
      | nil => rfl
      | cons c rest =>
          have positive := c.utf8Size_pos
          rw [List.nil_append, charactersWithin_cons, if_neg (by simp; omega)]
          rfl
  | cons c rest ih =>
      rw [List.cons_append, charactersWithin_cons, byteLength_cons,
        if_pos (Nat.le_add_right _ _), Nat.add_sub_cancel_left, List.take_succ_cons, ih]

theorem takeBytes_append (before after : Text) :
    takeBytes (before ++ after) (byteLength before) = before :=
  charactersWithin_append before after

@[simp]
theorem takeBytes_zero (text : Text) : takeBytes text 0 = [] :=
  takeBytes_append [] text

theorem takeBytes_byteLength (text : Text) : takeBytes text (byteLength text) = text := by
  have whole := takeBytes_append text []
  rwa [List.append_nil] at whole

theorem dropBytes_append (before after : Text) :
    dropBytes (before ++ after) (byteLength before) = after := by
  have whole := takeBytes_append_dropBytes (before ++ after) (byteLength before)
  rw [takeBytes_append] at whole
  exact List.append_cancel_left whole

theorem byteLength_takeBytes {text : Text} {offset : Nat}
    (atBoundary : isBoundary text offset = true) :
    byteLength (takeBytes text offset) = offset := by
  obtain ⟨before, after, rfl, rfl⟩ := (isBoundary_iff text offset).1 atBoundary
  rw [takeBytes_append]

/-- What is taken of a text ends at the greatest boundary that is not behind the
offset. -/
theorem le_byteLength_takeBytes_iff {text : Text} {boundary : Nat}
    (atBoundary : isBoundary text boundary = true) (offset : Nat) :
    boundary ≤ byteLength (takeBytes text offset) ↔ boundary ≤ offset := by
  obtain ⟨before, after, rfl, rfl⟩ := (isBoundary_iff text boundary).1 atBoundary
  clear atBoundary
  induction before generalizing offset with
  | nil => simp
  | cons c rest ih =>
      have positive := c.utf8Size_pos
      rw [List.cons_append, takeBytes_cons]
      by_cases fits : c.utf8Size ≤ offset
      · have later := ih (offset - c.utf8Size)
        rw [if_pos fits, byteLength_cons, byteLength_cons]
        omega
      · rw [if_neg fits, byteLength_cons, byteLength_nil]
        omega

end Text

end LiveDocument
