import LiveDocument.LineTable.Clamp
import LiveDocument.LineTable.Patch

/-!
# Texts with their tables

A buffer is a text with a line table that is mended with every replacement.
-/

namespace LiveDocument

/-- A text together with a line table that follows it. -/
structure Buffer where
  text : Text
  table : LineTable
deriving DecidableEq, Repr

namespace Buffer

def ofText (unit : ColumnUnit) (text : Text) : Buffer :=
  ⟨text, LineTable.ofText unit text⟩

def target (buffer : Buffer) (range : Range) : Span :=
  buffer.table.spanOf buffer.text (buffer.table.clampRange buffer.text range)

def splice (buffer : Buffer) (span : Span) (inserted : Text) : Buffer :=
  ⟨buffer.text.splice span inserted, buffer.table.patch span inserted⟩

/-- Replaces `range`, brought into the text, by `inserted`. The range that comes
back is the one brought into the text. -/
def replace (buffer : Buffer) (range : Range) (inserted : Text) : Range × Buffer :=
  (buffer.table.clampRange buffer.text range,
    buffer.splice (buffer.target range) inserted)

def isFresh (buffer : Buffer) : Bool :=
  buffer.table = LineTable.ofText buffer.table.unit buffer.text

end Buffer

end LiveDocument
