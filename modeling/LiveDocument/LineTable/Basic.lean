import LiveDocument.ColumnUnit
import LiveDocument.LineTable.Search
import LiveDocument.LineTable.Starts
import LiveDocument.Position
import LiveDocument.Text.Span

/-!
# Line tables

A line table knows where the lines of a text start. With the text at hand it turns
positions into byte offsets and offsets into positions. Both directions are total:
what lies outside the text is brought to its nearest part.
-/

namespace LiveDocument

/-- Where the lines of a text start. The table does not hold the text: what
needs columns takes the text as an argument. -/
structure LineTable where
  starts : Array Nat
  length : Nat
  unit : ColumnUnit
deriving DecidableEq, Repr

namespace LineTable

def ofText (unit : ColumnUnit) (text : Text) : LineTable :=
  ⟨lineStarts text true 0, text.byteLength, unit⟩

def lineCount (table : LineTable) : Nat := table.starts.size

/-- The index of the last line. A table always has a line. -/
def lastLine (table : LineTable) : Nat := table.lineCount - 1

def isEmpty (table : LineTable) : Bool := table.length = 0

/-- The byte at which `line` starts; lines past the last one start at the end of
the text. -/
def startOf (table : LineTable) (line : Nat) : Nat :=
  table.starts.getD line table.length

/-- The bytes of `line`, its line feed included. -/
def lineSpan (table : LineTable) (line : Nat) : Span :=
  ⟨table.startOf line, table.startOf (line + 1)⟩

def lineSpan? (table : LineTable) (line : Nat) : Option Span :=
  if line < table.lineCount then some (table.lineSpan line) else none

def lineText (table : LineTable) (text : Text) (line : Nat) : Text :=
  text.slice (table.lineSpan line)

def lineLength (table : LineTable) (text : Text) (line : Nat) : Nat :=
  table.unit.textLength (table.lineText text line)

def lineLength? (table : LineTable) (text : Text) (line : Nat) : Option Nat :=
  (table.lineSpan? line).map fun span => table.unit.textLength (text.slice span)

/-- The line that holds the byte at `offset`; the last line for offsets past the
end. -/
def lineOf (table : LineTable) (offset : Nat) : Nat :=
  partitionPoint table.starts (· ≤ offset) - 1

/-- The byte offset of `position`. A line past the last one counts as the last
line, and a column past the end of its line as the end of that line. -/
def offsetAt (table : LineTable) (text : Text) (position : Position) : Nat :=
  let line := min position.line table.lastLine
  table.startOf line +
    table.unit.byteOffset (table.lineText text line) position.character

/-- The position of the byte at `offset`. An offset past the end counts as the
end, and one inside a character as the start of that character. -/
def positionAt (table : LineTable) (text : Text) (offset : Nat) : Position :=
  let boundary := text.floorBoundary (min offset table.length)
  let line := table.lineOf boundary
  ⟨line, table.unit.textLength (text.slice ⟨table.startOf line, boundary⟩)⟩

theorem lineSpan?_isSome (table : LineTable) (line : Nat) :
    (table.lineSpan? line).isSome = true ↔ line < table.lineCount := by
  rw [lineSpan?]
  split <;> simp_all

theorem lineLength?_eq (table : LineTable) (text : Text) {line : Nat}
    (inside : line < table.lineCount) :
    table.lineLength? text line = some (table.lineLength text line) := by
  rw [lineLength?, lineSpan?, if_pos inside]
  rfl

end LineTable

end LiveDocument
