import LiveDocument.Proofs.Freshness

/-!
# Clamped ranges

Clamping brings a range into the text, with its ends in order, and leaves alone just the
ranges that are so already (`clampRange_retracts`). The range that a replacement hands back is the
clamped one. It names the bytes that were replaced unless an end of it is inside a
character, which clamping leaves there and resolving does not
(`Buffer.replace_names_target_iff`).
-/

namespace LiveDocument

open Text

namespace LineTable

/-- Whether `position` is on a line of the text and not past the end of the line. -/
structure InBounds (table : LineTable) (text : Text) (position : Position) : Prop where
  line : position.line < table.lineCount
  character : position.character ≤ table.lineLength text position.line

section Clamp

variable {table : LineTable} {text : Text}

theorem inBounds_clamp (nonempty : 0 < table.lineCount) (position : Position) :
    table.InBounds text (table.clamp text position) := by
  have onText := table.clamp_line_le text position
  rw [lastLine] at onText
  constructor
  case line => omega
  case character =>
    rw [clamp]
    split
    · exact Nat.le_refl _
    · exact Nat.min_le_right _ _

theorem InBounds.clamp_eq {position : Position} (inBounds : table.InBounds text position) :
    table.clamp text position = position := by
  have onText := inBounds.line
  refine clamp_eq_self ?_ inBounds.character
  rw [lastLine]
  omega

theorem clampRange_start_le_stop (range : Range) :
    (table.clampRange text range).start ≤ (table.clampRange text range).stop :=
  table.clamp_mono text range.ordered_start_le_stop

theorem inBounds_clampRange (nonempty : 0 < table.lineCount) (range : Range) :
    table.InBounds text (table.clampRange text range).start ∧
      table.InBounds text (table.clampRange text range).stop :=
  ⟨inBounds_clamp nonempty _, inBounds_clamp nonempty _⟩

/-- Clamping leaves alone just the ranges that it can lead to. -/
theorem clampRange_eq_self_iff (nonempty : 0 < table.lineCount) {range : Range} :
    table.clampRange text range = range ↔
      range.start ≤ range.stop ∧ table.InBounds text range.start ∧
        table.InBounds text range.stop := by
  constructor
  · intro stays
    rw [← stays]
    exact ⟨clampRange_start_le_stop range, inBounds_clampRange nonempty range⟩
  · intro fine
    exact clampRange_eq_self fine.1 fine.2.1.clamp_eq fine.2.2.clamp_eq

theorem clampRange_clampRange (nonempty : 0 < table.lineCount) (range : Range) :
    table.clampRange text (table.clampRange text range) = table.clampRange text range :=
  (clampRange_eq_self_iff nonempty).2
    ⟨clampRange_start_le_stop range, inBounds_clampRange nonempty range⟩

end Clamp

/-- A clamped range has its ends in order and in bounds, and they resolve in order. It does
not depend on the direction in which the range was sent. Clamping it again changes nothing,
and it is the range that was sent exactly if that was in order and in bounds. Of positions,
clamping keeps the order. On a line of the text it keeps where a position resolves, and a
position past the last line it takes to the end of the text. -/
theorem clampRange_retracts (unit : ColumnUnit) (text : Text) :
    let table := ofText unit text
    (∀ range : Range,
        let clamped := table.clampRange text range
        clamped.start ≤ clamped.stop ∧
          (table.InBounds text clamped.start ∧ table.InBounds text clamped.stop) ∧
          table.offsetAt text clamped.start ≤ table.offsetAt text clamped.stop ∧
          table.clampRange text ⟨range.stop, range.start⟩ = clamped ∧
          table.clampRange text clamped = clamped ∧
          (clamped = range ↔
            range.start ≤ range.stop ∧ table.InBounds text range.start ∧
              table.InBounds text range.stop)) ∧
      (∀ first second : Position, first ≤ second →
        table.clamp text first ≤ table.clamp text second) ∧
      ∀ position : Position,
        (position.line < table.lineCount →
          table.offsetAt text (table.clamp text position) = table.offsetAt text position) ∧
        (table.lineCount ≤ position.line →
          table.offsetAt text (table.clamp text position) = byteLength text) := by
  intro table
  have lines : table.lineCount = text.count '\n' + 1 := lineCount_ofText unit text
  have nonempty : 0 < table.lineCount := by omega
  refine ⟨?_, ?_, ?_⟩
  · intro range clamped
    have swapped := clampRange_eq_of_ordered_eq table text
      (Range.ordered_swap range.start range.stop)
    exact ⟨clampRange_start_le_stop range, inBounds_clampRange nonempty range,
      (admissible_spanOf_clampRange unit text range).1, swapped,
      clampRange_clampRange nonempty range, clampRange_eq_self_iff nonempty⟩
  · intro first second inOrder
    exact table.clamp_mono text inOrder
  · intro position
    rw [lines]
    constructor
    · intro inside
      exact offsetAt_clamp unit (Nat.le_of_lt_succ inside)
    · intro past
      exact offsetAt_clamp_past unit past

/-- A range that starts past the last line and ends, as it was sent, inside a character. -/
theorem clampRange_retracts_past_the_end :
    let text : Text := ['a', '😀', '\n', 'b']
    let table := ofText .utf16 text
    let clamped := table.clampRange text ⟨⟨7, 0⟩, ⟨0, 2⟩⟩
    clamped = ⟨⟨0, 2⟩, ⟨1, 1⟩⟩ ∧
      (table.InBounds text clamped.start ∧ table.InBounds text clamped.stop) ∧
      table.clampRange text clamped = clamped ∧
      (Position.mk 0 2 ≤ ⟨7, 0⟩ ∧ table.clamp text ⟨0, 2⟩ ≤ table.clamp text ⟨7, 0⟩) ∧
      (0 < table.lineCount ∧
        table.offsetAt text (table.clamp text ⟨0, 9⟩) = table.offsetAt text ⟨0, 9⟩) ∧
      table.lineCount ≤ 7 ∧ table.offsetAt text (table.clamp text ⟨7, 0⟩) = byteLength text := by
  intro text table clamped
  obtain ⟨ranges, inOrder, resolved⟩ := clampRange_retracts .utf16 text
  obtain ⟨_, inBounds, _, _, again, _⟩ := ranges ⟨⟨7, 0⟩, ⟨0, 2⟩⟩
  have before : Position.mk 0 2 ≤ ⟨7, 0⟩ := by decide
  have inside : 0 < table.lineCount := by decide
  have past : table.lineCount ≤ 7 := by decide
  exact ⟨by decide +kernel, inBounds, again, ⟨before, inOrder _ _ before⟩,
    ⟨inside, (resolved ⟨0, 9⟩).1 inside⟩, past, (resolved ⟨7, 0⟩).2 past⟩

/-! ## Columns that clamping leaves inside a character -/

section Names

variable (unit : ColumnUnit)

/-- Whether the column of `position` is what the bytes from the start of its line up to
`offset` take. -/
def Names (table : LineTable) (text : Text) (position : Position) (offset : Nat) : Prop :=
  table.startOf position.line ≤ offset ∧
    table.unit.textLength (text.slice ⟨table.startOf position.line, offset⟩) =
      position.character

instance (table : LineTable) (text : Text) (position : Position) (offset : Nat) :
    Decidable (table.Names text position offset) :=
  inferInstanceAs (Decidable (_ ∧ _))

theorem lineText_past {text : Text} {line : Nat} (past : text.count '\n' < line) :
    (ofText unit text).lineText text line = [] := by
  have atEnd : (ofText unit text).lineSpan line = ⟨byteLength text, byteLength text⟩ := by
    rw [lineSpan, startOf_past unit past, startOf_past unit (Nat.lt_succ_of_lt past)]
  have admissible : Span.Admissible ⟨byteLength text, byteLength text⟩ text :=
    ⟨Nat.le_refl _, isBoundary_byteLength text, isBoundary_byteLength text⟩
  rw [lineText, atEnd]
  exact (slice_eq_nil_iff admissible).2 rfl

theorem clamp_character_of_not_inBounds {table : LineTable} {text : Text}
    {position : Position} (outside : ¬ table.InBounds text position)
    (nonempty : 0 < table.lineCount) :
    (table.clamp text position).character =
      table.lineLength text (table.clamp text position).line := by
  rw [clamp]
  split
  · rfl
  · rename_i onText
    rw [lastLine] at onText
    refine Nat.min_eq_right (Nat.le_of_not_le fun within => outside ⟨?_, within⟩)
    omega

theorem inBounds_of_cutsCharacter {text : Text} {position : Position}
    (cuts : unit.CutsCharacter ((ofText unit text).lineText text position.line)
      position.character) :
    (ofText unit text).InBounds text position := by
  have short := cuts.lt_textLength
  constructor
  case line =>
    rw [lt_lineCount_iff]
    refine Nat.le_of_not_lt fun past => ?_
    rw [lineText_past unit past, unit.textLength_nil] at short
    exact Nat.not_lt_zero _ short
  case character => exact Nat.le_of_lt short

/-- Clamping leaves a column inside a character if it is there, and puts none inside. -/
theorem cutsCharacter_clamp_iff (text : Text) (position : Position) :
    let table := ofText unit text
    let clamped := table.clamp text position
    unit.CutsCharacter (table.lineText text clamped.line) clamped.character ↔
      unit.CutsCharacter (table.lineText text position.line) position.character := by
  intro table clamped
  have lines : table.lineCount = text.count '\n' + 1 := lineCount_ofText unit text
  by_cases inBounds : table.InBounds text position
  · have stays : clamped = position := inBounds.clamp_eq
    rw [stays]
  · have atEnd : clamped.character = table.lineLength text clamped.line :=
      clamp_character_of_not_inBounds inBounds (by omega)
    refine iff_of_false ?_ ?_
    · intro cuts
      exact Nat.ne_of_lt cuts.lt_textLength atEnd
    · intro cuts
      exact inBounds (inBounds_of_cutsCharacter unit cuts)

theorem slice_startOf_offsetAt {text : Text} {position : Position}
    (inside : position.line ≤ text.count '\n') :
    let table := ofText unit text
    let line := table.lineText text position.line
    table.startOf position.line ≤ table.offsetAt text position ∧
      text.slice ⟨table.startOf position.line, table.offsetAt text position⟩ =
        takeBytes line (unit.byteOffset line position.character) := by
  intro table line
  obtain ⟨before, content, after, cut⟩ := LineCut.exists_of_le inside
  have onLine := Nat.min_eq_left inside
  have resolved : table.offsetAt text position =
      byteLength before + unit.byteOffset content position.character :=
    offsetAt_eq unit (by rw [onLine]; exact cut)
  have start : table.startOf position.line = byteLength before := cut.startOf_eq unit
  have sameLine : line = content := cut.lineText_eq unit
  obtain ⟨front, back, split, length⟩ := (isBoundary_iff _ _).1
    (unit.isBoundary_byteOffset content position.character)
  have whole : text = before ++ front ++ (back ++ after) := by
    rw [cut.split, split]
    simp only [List.append_assoc]
  rw [resolved, start, sameLine, ← length]
  constructor
  · exact Nat.le_add_right _ _
  · rw [whole, ← byteLength_append, slice_append, split, takeBytes_append]

theorem names_offsetAt_clamp_iff (text : Text) (position : Position) :
    let table := ofText unit text
    let clamped := table.clamp text position
    table.Names text clamped (table.offsetAt text clamped) ↔
      ¬ unit.CutsCharacter (table.lineText text position.line) position.character := by
  intro table clamped
  have lines : table.lineCount = text.count '\n' + 1 := lineCount_ofText unit text
  have inBounds : table.InBounds text clamped := inBounds_clamp (by omega) position
  have onText : clamped.line ≤ text.count '\n' := by
    have inside := inBounds.line
    omega
  obtain ⟨behindStart, leading⟩ := slice_startOf_offsetAt unit onText
  calc table.Names text clamped (table.offsetAt text clamped)
      ↔ unit.textLength (takeBytes (table.lineText text clamped.line)
          (unit.byteOffset (table.lineText text clamped.line) clamped.character)) =
          clamped.character := by
        rw [Names, leading]
        exact and_iff_right behindStart
    _ ↔ ¬ unit.CutsCharacter (table.lineText text clamped.line) clamped.character :=
        unit.textLength_takeBytes_byteOffset_eq_iff inBounds.character
    _ ↔ ¬ unit.CutsCharacter (table.lineText text position.line) position.character :=
        not_congr (cutsCharacter_clamp_iff unit text position)

end Names

end LineTable

namespace Buffer

/-- The range that a replacement hands back resolves to the bytes that were replaced. An
end of it names the end of these bytes exactly if the range that was sent does not end
inside a character there. -/
theorem replace_names_target_iff (unit : ColumnUnit) (text : Text) (range : Range)
    (inserted : Text) :
    let buffer := ofText unit text
    let replaced := buffer.replace range inserted
    let span := buffer.target range
    let cuts (position : Position) : Prop :=
      unit.CutsCharacter (buffer.table.lineText text position.line) position.character
    (span.Admissible text ∧ replaced.2.text = text.splice span inserted ∧
        buffer.table.spanOf text replaced.1 = span) ∧
      (buffer.table.Names text replaced.1.start span.start ↔ ¬ cuts range.ordered.start) ∧
      (buffer.table.Names text replaced.1.stop span.stop ↔ ¬ cuts range.ordered.stop) := by
  intro buffer replaced span cuts
  refine ⟨⟨admissible_target unit text range, rfl, rfl⟩, ?_, ?_⟩
  · exact LineTable.names_offsetAt_clamp_iff unit text range.ordered.start
  · exact LineTable.names_offsetAt_clamp_iff unit text range.ordered.stop

/-- Half of a character is sent. The whole character is replaced, and half of it comes
back. -/
theorem replace_half_of_a_character :
    let text : Text := ['a', '😀', 'b']
    let buffer := ofText .utf16 text
    let half : Range := ⟨⟨0, 2⟩, ⟨0, 3⟩⟩
    let replaced := buffer.replace half []
    let span := buffer.target half
    replaced.1 = half ∧ replaced.2.text = ['a', 'b'] ∧ span = ⟨1, 5⟩ ∧
      replaced.2.text = text.splice span [] ∧
      ¬ (buffer.table.Names text replaced.1.start span.start ∧
        buffer.table.Names text replaced.1.stop span.stop) := by
  decide +kernel

end Buffer

end LiveDocument
