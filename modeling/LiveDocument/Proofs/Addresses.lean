import Mathlib.Order.Bounds.Basic
import LiveDocument.Proofs.Places

/-!
# Positions as addresses

The positions of the boundaries of a text come in the order of the boundaries
(`positionAt_lt_iff`). An offset inside a character has the position of the character, so
its position resolves to the greatest boundary that is not behind it
(`positionAt_roundTrip`). In the other direction a position comes back exactly if it is an
address (`IsAddress`): if it names a boundary, and by the line that the boundary is on
(`positionAt_offsetAt_eq_self_iff`).
-/

namespace LiveDocument

open Text

namespace Text

theorem isGreatest_floorBoundary (text : Text) (offset : Nat) :
    IsGreatest {boundary | isBoundary text boundary = true ∧ boundary ≤ offset}
      (floorBoundary text offset) :=
  ⟨⟨isBoundary_floorBoundary text offset, floorBoundary_le text offset⟩,
    fun _ atBoundary => le_floorBoundary atBoundary.1 atBoundary.2⟩

end Text

namespace LineTable

variable (unit : ColumnUnit)

/-! ## Offsets and the boundaries before them -/

/-- An offset has the position of the greatest boundary that is not behind it. -/
theorem positionAt_floorBoundary (text : Text) (offset : Nat) :
    (ofText unit text).positionAt text
        (floorBoundary text (min offset (byteLength text))) =
      (ofText unit text).positionAt text offset := by
  have atBoundary := isBoundary_floorBoundary text (min offset (byteLength text))
  have within : min (floorBoundary text (min offset (byteLength text)))
      (ofText unit text).length = floorBoundary text (min offset (byteLength text)) :=
    Nat.min_eq_left (le_byteLength_of_isBoundary atBoundary)
  rw [positionAt, within, floorBoundary_eq_self atBoundary]
  rfl

theorem offsetAt_positionAt_eq_floorBoundary (text : Text) (offset : Nat) :
    (ofText unit text).offsetAt text ((ofText unit text).positionAt text offset) =
      floorBoundary text (min offset (byteLength text)) := by
  rw [← positionAt_floorBoundary, offsetAt_positionAt unit (isBoundary_floorBoundary text _)]

section Order

variable {text : Text} {first second : Nat}
  (firstBoundary : isBoundary text first = true)
  (secondBoundary : isBoundary text second = true)

include firstBoundary secondBoundary

theorem positionAt_le_iff :
    (ofText unit text).positionAt text first ≤ (ofText unit text).positionAt text second ↔
      first ≤ second := by
  refine ⟨fun inOrder => ?_, positionAt_mono unit firstBoundary secondBoundary⟩
  have resolved := offsetAt_mono unit inOrder (line_positionAt_le unit secondBoundary)
  rwa [offsetAt_positionAt unit firstBoundary, offsetAt_positionAt unit secondBoundary]
    at resolved

theorem positionAt_lt_iff :
    (ofText unit text).positionAt text first < (ofText unit text).positionAt text second ↔
      first < second := by
  rw [← Position.not_le, positionAt_le_iff unit secondBoundary firstBoundary, Nat.not_le]

end Order

/-- A range between the positions of two boundaries, the wrong way round or not, contains
the positions of the boundaries from the smaller one up to the greater. -/
theorem contains_positionAt_iff {text : Text} {first second offset : Nat}
    (firstBoundary : isBoundary text first = true)
    (secondBoundary : isBoundary text second = true)
    (atBoundary : isBoundary text offset = true) :
    (Range.mk ((ofText unit text).positionAt text first)
        ((ofText unit text).positionAt text second)).contains
        ((ofText unit text).positionAt text offset) = true ↔
      min first second ≤ offset ∧ offset < max first second := by
  rcases Nat.le_total first second with inOrder | reversed
  · rw [Range.contains_iff_of_le (positionAt_mono unit firstBoundary secondBoundary inOrder),
      positionAt_le_iff unit firstBoundary atBoundary,
      positionAt_lt_iff unit atBoundary secondBoundary, Nat.min_eq_left inOrder,
      Nat.max_eq_right inOrder]
  · rw [Range.contains_swap,
      Range.contains_iff_of_le (positionAt_mono unit secondBoundary firstBoundary reversed),
      positionAt_le_iff unit secondBoundary atBoundary,
      positionAt_lt_iff unit atBoundary firstBoundary, Nat.min_eq_right reversed,
      Nat.max_eq_left reversed]

/-- Looking up the position of an offset and resolving it leads to the greatest boundary
that is not behind the offset, which has the same position. The positions of boundaries
come in the order of the boundaries, so a range between two of them contains just the
positions of the boundaries between its ends. -/
theorem positionAt_roundTrip (unit : ColumnUnit) (text : Text) :
    let table := ofText unit text
    (∀ offset, ∃ floor,
        IsGreatest
            {boundary | isBoundary text boundary = true ∧
              boundary ≤ min offset (byteLength text)}
            floor ∧
          table.positionAt text offset = table.positionAt text floor ∧
          table.offsetAt text (table.positionAt text offset) = floor) ∧
      (∀ first second, isBoundary text first = true → isBoundary text second = true →
        (first < second ↔
          table.positionAt text first < table.positionAt text second)) ∧
      ∀ first second offset, isBoundary text first = true →
        isBoundary text second = true → isBoundary text offset = true →
          ((Range.mk (table.positionAt text first) (table.positionAt text second)).contains
              (table.positionAt text offset) = true ↔
            min first second ≤ offset ∧ offset < max first second) := by
  intro table
  refine ⟨fun offset => ?_, ?_, ?_⟩
  · exact ⟨floorBoundary text (min offset (byteLength text)),
      isGreatest_floorBoundary text _, (positionAt_floorBoundary unit text offset).symm,
      offsetAt_positionAt_eq_floorBoundary unit text offset⟩
  · intro first second firstBoundary secondBoundary
    exact (positionAt_lt_iff unit firstBoundary secondBoundary).symm
  · intro first second offset firstBoundary secondBoundary atBoundary
    exact contains_positionAt_iff unit firstBoundary secondBoundary atBoundary

/-- The second offset is inside a character, and the range is the wrong way round. -/
theorem positionAt_roundTrip_inside_a_character :
    let text : Text := ['a', '😀', '\n', 'b']
    let table := ofText .utf16 text
    (isBoundary text 1 = true ∧ isBoundary text 5 = true ∧ isBoundary text 6 = true) ∧
      table.offsetAt text (table.positionAt text 3) = 1 ∧
      table.positionAt text 1 < table.positionAt text 5 ∧
      (Range.mk (table.positionAt text 6) (table.positionAt text 1)).contains
        (table.positionAt text 5) = true := by
  intro text table
  have boundaries :
      isBoundary text 1 = true ∧ isBoundary text 5 = true ∧ isBoundary text 6 = true := by
    decide
  obtain ⟨floors, inOrder, between⟩ := positionAt_roundTrip .utf16 text
  refine ⟨boundaries, ?_, (inOrder 1 5 boundaries.1 boundaries.2.1).1 (by decide),
    (between 6 1 5 boundaries.2.2 boundaries.1 boundaries.2.1).2 (by decide)⟩
  obtain ⟨floor, greatest, _, resolved⟩ := floors 3
  have greatestIsOne := (isGreatest_floorBoundary text 3).unique greatest
  rw [resolved, ← greatestIsOne]
  decide

/-! ## The positions that come back -/

/-- Whether `position` names a boundary of the text, by the line that the boundary is
on. -/
structure IsAddress (table : LineTable) (text : Text) (position : Position) : Prop where
  /-- The line is a line of the text. -/
  onText : position.line < table.lineCount
  /-- The column is the length of a leading part of the line. -/
  atColumn : ∃ boundary, isBoundary (table.lineText text position.line) boundary = true ∧
    position.character =
      table.unit.textLength (takeBytes (table.lineText text position.line) boundary)
  /-- The end of a line is a place of the next line, if there is one. -/
  onLine : position.line = table.lastLine ∨
    position.character < table.lineLength text position.line

theorem isAddress_of_cut {text before front back after : Text} {line : Nat}
    (cut : LineCut text line before (front ++ back) after) (noFeed : '\n' ∉ front) :
    (ofText unit text).IsAddress text ⟨line, unit.textLength front⟩ where
  onText := by
    rw [lt_lineCount_iff]
    exact cut.le_count
  atColumn := by
    rw [cut.lineText_eq unit]
    exact ⟨byteLength front, isBoundary_append front back,
      by rw [takeBytes_append]; rfl⟩
  onLine := by
    rw [lastLine_ofText, lineLength, cut.lineText_eq unit, cut.eq_count_iff]
    by_cases nothingBehind : back = []
    · rw [nothingBehind, List.append_nil]
      exact Or.inl noFeed
    · have longer : unit.textLength front < unit.textLength (front ++ back) := by
        rw [unit.textLength_append]
        exact Nat.lt_add_of_pos_right (unit.textLength_pos nothingBehind)
      exact Or.inr longer

theorem IsAddress.exists_cut {text : Text} {position : Position}
    (address : (ofText unit text).IsAddress text position) :
    ∃ before front back after,
      LineCut text position.line before (front ++ back) after ∧ '\n' ∉ front ∧
        position.character = unit.textLength front := by
  obtain ⟨onText, ⟨boundary, atBoundary, column⟩, onLine⟩ := address
  rw [lt_lineCount_iff] at onText
  obtain ⟨before, content, after, cut⟩ := LineCut.exists_of_le onText
  rw [cut.lineText_eq unit] at atBoundary column
  obtain ⟨front, back, rfl, rfl⟩ := (isBoundary_iff content boundary).1 atBoundary
  rw [takeBytes_append] at column
  refine ⟨before, front, back, after, cut, ?_, column⟩
  rcases onLine with last | short
  · rw [lastLine_ofText, cut.eq_count_iff] at last
    exact fun member => last (List.mem_append_left back member)
  · refine cut.closes.not_mem_of_append fun nothingBehind => ?_
    rw [lineLength, cut.lineText_eq unit, nothingBehind, List.append_nil, column] at short
    exact Nat.lt_irrefl _ short

theorem isAddress_positionAt (text : Text) (offset : Nat) :
    (ofText unit text).IsAddress text ((ofText unit text).positionAt text offset) := by
  obtain ⟨lead, tail, more, rest, cut, noFeed, _, place⟩ :=
    exists_place unit (isBoundary_floorBoundary text (min offset (byteLength text)))
  rw [← positionAt_floorBoundary, place]
  exact isAddress_of_cut unit cut noFeed

theorem positionAt_offsetAt_of_isAddress {text : Text} {position : Position}
    (address : (ofText unit text).IsAddress text position) :
    (ofText unit text).positionAt text ((ofText unit text).offsetAt text position) =
      position := by
  obtain ⟨before, front, back, after, cut, noFeed, column⟩ := address.exists_cut
  have onText : min position.line (text.count '\n') = position.line :=
    Nat.min_eq_left cut.le_count
  have resolved : (ofText unit text).offsetAt text position = byteLength (before ++ front) := by
    rw [offsetAt_eq unit (by rw [onText]; exact cut), column, unit.byteOffset_textLength,
      byteLength_append]
  have place := positionAt_eq unit cut.opens noFeed (back ++ after)
  have whole : before ++ front ++ (back ++ after) = text := by
    rw [cut.split]
    simp only [List.append_assoc]
  rw [whole, cut.feeds] at place
  rw [resolved, place]
  exact Position.ext_of_eq rfl column.symm

/-- A position that is turned into an offset and back stays as it is exactly if it is an
address. What it becomes is one, whatever the position, and stays as it is when it is
turned again. -/
theorem positionAt_offsetAt_eq_self_iff (unit : ColumnUnit) (text : Text)
    (position : Position) :
    let table := ofText unit text
    let turned := table.positionAt text (table.offsetAt text position)
    (turned = position ↔ table.IsAddress text position) ∧
      table.positionAt text (table.offsetAt text turned) = turned := by
  intro table turned
  refine ⟨⟨fun stays => ?_, positionAt_offsetAt_of_isAddress unit⟩, ?_⟩
  · rw [← stays]
    exact isAddress_positionAt unit text _
  · exact positionAt_offsetAt_of_isAddress unit (isAddress_positionAt unit text _)

/-- A column inside a character becomes its start, a column past the line feed becomes the
start of the next line, and a line past the last one becomes the last one. -/
example :
    let text : Text := ['a', '😀', '\n', 'b']
    let table := ofText .utf16 text
    [⟨0, 2⟩, ⟨0, 3⟩, ⟨0, 4⟩, ⟨1, 1⟩, ⟨7, 1⟩].map
        (fun position => table.positionAt text (table.offsetAt text position)) =
      ([⟨0, 1⟩, ⟨0, 3⟩, ⟨1, 0⟩, ⟨1, 1⟩, ⟨1, 1⟩] : List Position) := by
  decide +kernel

end LineTable

end LiveDocument
