import LiveDocument.ColumnUnit

/-!
# Lengths and columns

The length of a text in units adds up over its parts, and turning a column into a
byte offset is adjoint to measuring (`textLength_le_iff`): a leading part of a line
fits into a column exactly if it ends at or before the byte offset of that column.
-/

namespace LiveDocument

open Text

namespace ColumnUnit

variable (unit : ColumnUnit)

private theorem utf8Size_of_ascii {c : Char} (ascii : c.toNat < 128) : c.utf8Size = 1 :=
  Char.utf8Size_eq_one_iff.2 (UInt32.le_iff_toNat_le.2 (Nat.le_of_lt_succ ascii))

private theorem width_eq_utf8Size {c : Char} (direct : unit = utf8 ∨ c.toNat < 128) :
    unit.width c = c.utf8Size := by
  cases unit with
  | utf8 => rfl
  | utf16 =>
      have ascii : c.toNat < 128 := direct.resolve_left (by decide)
      rw [utf8Size_of_ascii ascii, width, if_pos (by omega)]
  | utf32 =>
      have ascii : c.toNat < 128 := direct.resolve_left (by decide)
      rw [utf8Size_of_ascii ascii, width]

theorem isDirect_append (left right : Text) :
    unit.isDirect (left ++ right) = (unit.isDirect left && unit.isDirect right) := by
  simp only [isDirect, isAscii, List.all_append]
  cases unit <;> simp

theorem totalWidth_of_isDirect {unit : ColumnUnit} {text : Text}
    (direct : unit.isDirect text = true) :
    totalWidth unit.width text = byteLength text := by
  induction text with
  | nil => rfl
  | cons c rest ih =>
      have parts := isDirect_append unit [c] rest
      rw [List.singleton_append, direct, eq_comm, Bool.and_eq_true] at parts
      have headDirect : unit = utf8 ∨ c.toNat < 128 := by
        simpa [isDirect, isAscii] using parts.1
      rw [totalWidth_cons, byteLength_cons, ih parts.2, width_eq_utf8Size unit headDirect]

/-- The short way of measuring a text gives what its characters add up to. -/
theorem textLength_eq_totalWidth (text : Text) :
    unit.textLength text = totalWidth unit.width text := by
  rw [textLength]
  split
  · exact (totalWidth_of_isDirect ‹_›).symm
  · rfl

@[simp]
theorem textLength_nil : unit.textLength [] = 0 := by
  rw [textLength_eq_totalWidth]
  rfl

theorem textLength_cons (c : Char) (text : Text) :
    unit.textLength (c :: text) = unit.width c + unit.textLength text := by
  rw [textLength_eq_totalWidth, textLength_eq_totalWidth, totalWidth_cons]

theorem textLength_singleton (c : Char) : unit.textLength [c] = unit.width c := by
  rw [textLength_cons, textLength_nil, Nat.add_zero]

theorem textLength_append (left right : Text) :
    unit.textLength (left ++ right) = unit.textLength left + unit.textLength right := by
  simp only [textLength_eq_totalWidth, totalWidth_append]

theorem textLength_pos {text : Text} (nonempty : text ≠ []) : 0 < unit.textLength text := by
  cases text with
  | nil => contradiction
  | cons c rest =>
      have positive := unit.width_pos c
      rw [textLength_cons]
      omega

/-! ## Columns -/

/-- The scan stops between two characters, and it passes exactly the leading parts
whose units fit. -/
private theorem scanOffset_go (column : Nat) (line : Text) (offset passed : Nat)
    (fits : passed ≤ column) :
    ∃ before after, line = before ++ after ∧
      scanOffset.go unit column line offset passed = offset + byteLength before ∧
      passed + totalWidth unit.width before ≤ column ∧
      ∀ c rest, after = c :: rest →
        column < passed + totalWidth unit.width before + unit.width c := by
  induction line generalizing offset passed with
  | nil =>
      exact ⟨[], [], rfl, rfl, by simpa using fits, fun c rest impossible => by cases impossible⟩
  | cons c rest ih =>
      rw [scanOffset.go]
      by_cases tooWide : column < passed + unit.width c
      · rw [if_pos tooWide]
        refine ⟨[], c :: rest, rfl, rfl, by simpa using fits, ?_⟩
        intro next later same
        obtain ⟨rfl, rfl⟩ := List.cons.inj same
        simpa using tooWide
      · rw [if_neg tooWide]
        obtain ⟨before, after, rfl, stopped, room, full⟩ :=
          ih (offset + c.utf8Size) (passed + unit.width c) (by omega)
        refine ⟨c :: before, after, rfl, ?_, ?_, ?_⟩
        · rw [stopped, byteLength_cons]
          omega
        · rw [totalWidth_cons]
          omega
        · intro next later same
          have tight := full next later same
          rw [totalWidth_cons]
          omega

private theorem scanOffset_spec (line : Text) (column : Nat) :
    ∃ before after, line = before ++ after ∧
      unit.scanOffset line column = byteLength before ∧
      totalWidth unit.width before ≤ column ∧
      ∀ c rest, after = c :: rest → column < totalWidth unit.width before + unit.width c := by
  obtain ⟨before, after, split, stopped, room, full⟩ :=
    scanOffset_go unit column line 0 0 (Nat.zero_le _)
  simp only [Nat.zero_add] at stopped room full
  exact ⟨before, after, split, stopped, room, full⟩

private theorem isBoundary_scanOffset (line : Text) (column : Nat) :
    isBoundary line (unit.scanOffset line column) = true := by
  obtain ⟨before, after, split, stopped, _⟩ := scanOffset_spec unit line column
  rw [split] at stopped ⊢
  rw [stopped]
  exact isBoundary_append before after

/-- A column is never resolved to the middle of a character. -/
theorem isBoundary_byteOffset (line : Text) (column : Nat) :
    isBoundary line (unit.byteOffset line column) = true := by
  rw [byteOffset]
  split
  · exact isBoundary_floorBoundary _ _
  · exact isBoundary_scanOffset unit line column

theorem byteOffset_le_byteLength (line : Text) (column : Nat) :
    unit.byteOffset line column ≤ byteLength line :=
  le_byteLength_of_isBoundary (isBoundary_byteOffset unit line column)

private theorem textLength_le_iff_scanOffset (before after : Text) (column : Nat) :
    unit.textLength before ≤ column ↔
      byteLength before ≤ unit.scanOffset (before ++ after) column := by
  obtain ⟨passed, ahead, split, stopped, room, full⟩ :=
    scanOffset_spec unit (before ++ after) column
  rw [stopped, textLength_eq_totalWidth]
  constructor
  · intro fits
    refine Nat.le_of_not_lt fun beyond => ?_
    obtain ⟨extra, rfl⟩ := leads_of_byteLength_le split.symm (Nat.le_of_lt beyond)
    cases extra with
    | nil => simp at beyond
    | cons c rest =>
        rw [List.append_assoc, List.append_cancel_left_eq] at split
        have tooWide := full c (rest ++ after) split.symm
        rw [totalWidth_append, totalWidth_cons] at fits
        omega
  · intro within
    obtain ⟨extra, rfl⟩ := leads_of_byteLength_le split within
    rw [totalWidth_append] at room
    omega

/-- A leading part of a line fits into a column exactly if it ends at or before the
byte offset of the column. -/
theorem textLength_le_iff (before after : Text) (column : Nat) :
    unit.textLength before ≤ column ↔
      byteLength before ≤ unit.byteOffset (before ++ after) column := by
  rw [byteOffset]
  by_cases direct : unit.isDirect (before ++ after) = true
  · have parts := isDirect_append unit before after
    rw [direct, eq_comm, Bool.and_eq_true] at parts
    rw [if_pos direct, textLength_eq_totalWidth, totalWidth_of_isDirect parts.1]
    have whole := byteLength_append before after
    constructor
    · intro fits
      exact le_floorBoundary (isBoundary_append before after) (by omega)
    · intro within
      have bound := floorBoundary_le (before ++ after)
        (min column (byteLength (before ++ after)))
      omega
  · rw [if_neg direct]
    exact textLength_le_iff_scanOffset unit before after column

/-- The short way of resolving a column leads to where the scan stops. -/
theorem byteOffset_eq_scanOffset (line : Text) (column : Nat) :
    unit.byteOffset line column = unit.scanOffset line column := by
  refine eq_of_leading_le_iff (isBoundary_byteOffset unit line column)
    (isBoundary_scanOffset unit line column) ?_
  rintro before after rfl
  rw [← textLength_le_iff, ← textLength_le_iff_scanOffset]

theorem byteOffset_mono (line : Text) {first second : Nat} (inOrder : first ≤ second) :
    unit.byteOffset line first ≤ unit.byteOffset line second := by
  obtain ⟨before, after, split, length⟩ :=
    (isBoundary_iff _ _).1 (isBoundary_byteOffset unit line first)
  have fits : unit.textLength before ≤ first := by
    refine (textLength_le_iff unit before after first).2 ?_
    rw [← split]
    exact Nat.le_of_eq length
  rw [← length, split]
  exact (textLength_le_iff unit before after second).1 (Nat.le_trans fits inOrder)

/-- The column at which a leading part of a line ends is resolved to that place. -/
theorem byteOffset_textLength (before after : Text) :
    unit.byteOffset (before ++ after) (unit.textLength before) = byteLength before := by
  obtain ⟨passed, ahead, split, length⟩ := (isBoundary_iff _ _).1
    (isBoundary_byteOffset unit (before ++ after) (unit.textLength before))
  refine Nat.le_antisymm ?_ ((textLength_le_iff unit before after _).1 (Nat.le_refl _))
  refine Nat.le_of_not_lt fun beyond => ?_
  rw [← length] at beyond
  obtain ⟨extra, rfl⟩ := leads_of_byteLength_le split (Nat.le_of_lt beyond)
  have fits : unit.textLength (before ++ extra) ≤ unit.textLength before := by
    refine (textLength_le_iff unit (before ++ extra) ahead _).2 ?_
    rw [← split]
    exact Nat.le_of_eq length
  have nonempty : extra ≠ [] := by
    rintro rfl
    simp at beyond
  have positive := textLength_pos unit nonempty
  rw [textLength_append] at fits
  omega

theorem byteOffset_of_textLength_le {line : Text} {column : Nat}
    (past : unit.textLength line ≤ column) :
    unit.byteOffset line column = byteLength line := by
  refine Nat.le_antisymm (byteOffset_le_byteLength unit line column) ?_
  have reached := (textLength_le_iff unit line [] column).1 past
  rwa [List.append_nil] at reached

/-- Whether `column` is behind the start of a character of `line` and before its end. -/
def CutsCharacter (line : Text) (column : Nat) : Prop :=
  ∃ before c after, line = before ++ c :: after ∧
    unit.textLength before < column ∧ column < unit.textLength before + unit.width c

theorem exists_split_byteOffset (line : Text) (column : Nat) :
    ∃ front back, line = front ++ back ∧ unit.byteOffset line column = byteLength front ∧
      unit.textLength front ≤ column ∧
      ∀ c rest, back = c :: rest → column < unit.textLength front + unit.width c := by
  obtain ⟨front, back, split, length⟩ :=
    (isBoundary_iff _ _).1 (isBoundary_byteOffset unit line column)
  refine ⟨front, back, split, length.symm, ?_, ?_⟩
  · refine (textLength_le_iff unit front back column).2 ?_
    rw [← split]
    exact Nat.le_of_eq length
  · intro c rest here
    have longer : line = (front ++ [c]) ++ rest := by
      rw [split, here, List.append_assoc, List.singleton_append]
    have longerLength : unit.textLength (front ++ [c]) =
        unit.textLength front + unit.width c := by
      rw [textLength_append, textLength_singleton]
    have positive := c.utf8Size_pos
    refine Nat.lt_of_not_le fun fits => ?_
    rw [← longerLength, textLength_le_iff unit (front ++ [c]) rest column, ← longer, ← length,
      byteLength_append, byteLength_cons] at fits
    omega

/-- A leading part of a line ends before a character or behind it. -/
theorem textLength_le_or_le {front back before after : Text} {c : Char}
    (same : front ++ back = before ++ c :: after) :
    unit.textLength front ≤ unit.textLength before ∨
      unit.textLength before + unit.width c ≤ unit.textLength front := by
  rcases List.append_eq_append_iff.1 same with ⟨extra, rfl, _⟩ | ⟨extra, rfl, rest⟩
  · rw [textLength_append]
    exact Or.inl (Nat.le_add_right _ _)
  · cases extra with
    | nil =>
        rw [List.append_nil]
        exact Or.inl (Nat.le_refl _)
    | cons head more =>
        obtain ⟨rfl, _⟩ := List.cons.inj rest
        rw [textLength_append, textLength_cons, ← Nat.add_assoc]
        exact Or.inr (Nat.le_add_right _ _)

/-- A column of a line is the length of the part of the line up to where it resolves,
unless it is inside a character. -/
theorem textLength_takeBytes_byteOffset_eq_iff {line : Text} {column : Nat}
    (within : column ≤ unit.textLength line) :
    unit.textLength (takeBytes line (unit.byteOffset line column)) = column ↔
      ¬ unit.CutsCharacter line column := by
  obtain ⟨front, back, rfl, resolved, fits, full⟩ := exists_split_byteOffset unit line column
  rw [resolved, takeBytes_append]
  constructor
  · intro sameLength cuts
    obtain ⟨before, c, after, split, behindStart, beforeEnd⟩ := cuts
    have apart := textLength_le_or_le unit split
    omega
  · intro cutsNone
    refine Nat.le_antisymm fits (Nat.le_of_not_lt fun short => ?_)
    cases back with
    | nil =>
        rw [List.append_nil] at within
        omega
    | cons c rest => exact cutsNone ⟨front, c, rest, rfl, short, full c rest rfl⟩

theorem CutsCharacter.lt_textLength {unit : ColumnUnit} {line : Text} {column : Nat}
    (cuts : unit.CutsCharacter line column) : column < unit.textLength line := by
  obtain ⟨before, c, after, rfl, _, beforeEnd⟩ := cuts
  rw [textLength_append, textLength_cons]
  omega

end ColumnUnit

end LiveDocument
