import LiveDocument.LineTable.Basic
import LiveDocument.Range

/-!
# Clamped positions and ranges

Clamping brings a position into the text. A line past the last one becomes the end of
the text here, whereas `LineTable.offsetAt` keeps the column and looks it up on the
last line.
-/

namespace LiveDocument

namespace LineTable

/-- The nearest position of the text to `position`: the end of the text for a line
past the last one, the end of its line for a column past that. -/
def clamp (table : LineTable) (text : Text) (position : Position) : Position :=
  if table.lastLine < position.line then
    ⟨table.lastLine, table.lineLength text table.lastLine⟩
  else
    ⟨position.line, min position.character (table.lineLength text position.line)⟩

def clampRange (table : LineTable) (text : Text) (range : Range) : Range :=
  ⟨table.clamp text range.ordered.start, table.clamp text range.ordered.stop⟩

def spanOf (table : LineTable) (text : Text) (range : Range) : Span :=
  ⟨table.offsetAt text range.start, table.offsetAt text range.stop⟩

theorem clampRange_eq_of_ordered_eq (table : LineTable) (text : Text)
    {first second : Range} (same : first.ordered = second.ordered) :
    table.clampRange text first = table.clampRange text second := by
  rw [clampRange, clampRange, same]

end LineTable

end LiveDocument
