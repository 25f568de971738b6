import LiveDocument.Proofs.LineFeeds
import LiveDocument.Proofs.Places

/-!
# The line of an offset

The starts of lines are in order, so a binary search tells those up to an offset from those
behind it (`le_lineOf_iff`). The last one up to the offset is the start of the line that
holds the byte there, and its index counts the line feeds before the offset
(`lineOf_locates`).
-/

namespace LiveDocument

open Text

namespace LineTable

variable (unit : ColumnUnit)

theorem getD_starts {table : LineTable} {line : Nat} (inside : line < table.lineCount)
    (default : Nat) : table.starts.getD line default = table.startOf line := by
  rw [lineCount] at inside
  rw [startOf, Array.getD, dif_pos inside, Array.getD, dif_pos inside]

/-- The search parts the starts of the lines at the offset. -/
private theorem partitionPoint_starts (text : Text) (offset : Nat) :
    partitionPoint (ofText unit text).starts (· ≤ offset) ≤ (ofText unit text).lineCount ∧
      ∀ line, line < (ofText unit text).lineCount →
        (line < partitionPoint (ofText unit text).starts (· ≤ offset) ↔
          (ofText unit text).startOf line ≤ offset) := by
  have downward (first second : Nat) (inOrder : first ≤ second)
      (inside : second < (ofText unit text).lineCount)
      (upTo : decide ((ofText unit text).starts.getD second 0 ≤ offset) = true) :
      decide ((ofText unit text).starts.getD first 0 ≤ offset) = true := by
    rw [getD_starts inside, decide_eq_true_eq] at upTo
    rw [getD_starts (Nat.lt_of_le_of_lt inOrder inside), decide_eq_true_eq]
    exact Nat.le_trans (startOf_mono unit inOrder) upTo
  obtain ⟨bound, splits⟩ :=
    @partitionPoint_splits (ofText unit text).starts (· ≤ offset) downward
  refine ⟨bound, fun line inside => ?_⟩
  rw [splits line inside, getD_starts inside, decide_eq_true_eq]

/-- Every text has a start up to any offset, which is why the search can go back by one. -/
private theorem partitionPoint_starts_pos (text : Text) (offset : Nat) :
    0 < partitionPoint (ofText unit text).starts (· ≤ offset) := by
  have lines : (ofText unit text).lineCount = text.count '\n' + 1 := lineCount_ofText unit text
  rw [(partitionPoint_starts unit text offset).2 0 (by omega), startOf_zero]
  exact Nat.zero_le offset

theorem lineOf_lt_lineCount (text : Text) (offset : Nat) :
    (ofText unit text).lineOf offset < (ofText unit text).lineCount := by
  have bound := (partitionPoint_starts unit text offset).1
  have positive := partitionPoint_starts_pos unit text offset
  rw [lineOf]
  omega

/-- The lines up to the line of an offset are those that start at or before the offset. -/
theorem le_lineOf_iff {text : Text} {line : Nat}
    (inside : line < (ofText unit text).lineCount) (offset : Nat) :
    line ≤ (ofText unit text).lineOf offset ↔ (ofText unit text).startOf line ≤ offset := by
  have positive := partitionPoint_starts_pos unit text offset
  rw [← (partitionPoint_starts unit text offset).2 line inside, lineOf]
  omega

theorem startOf_lineOf_le (text : Text) (offset : Nat) :
    (ofText unit text).startOf ((ofText unit text).lineOf offset) ≤ offset :=
  (le_lineOf_iff unit (lineOf_lt_lineCount unit text offset) offset).1 (Nat.le_refl _)

theorem lineOf_mono (text : Text) {first second : Nat} (inOrder : first ≤ second) :
    (ofText unit text).lineOf first ≤ (ofText unit text).lineOf second := by
  rw [le_lineOf_iff unit (lineOf_lt_lineCount unit text first)]
  exact Nat.le_trans (startOf_lineOf_le unit text first) inOrder

theorem lineOf_startOf {text : Text} {line : Nat}
    (inside : line < (ofText unit text).lineCount) :
    (ofText unit text).lineOf ((ofText unit text).startOf line) = line := by
  refine Nat.le_antisymm ?_ ((le_lineOf_iff unit inside _).2 (Nat.le_refl _))
  refine Nat.le_of_not_lt fun later => ?_
  have startsLater := startOf_lt unit later (lineOf_lt_lineCount unit text _)
  exact Nat.not_lt.2 (startOf_lineOf_le unit text _) startsLater

theorem lineOf_eq_iff {text : Text} {offset : Nat} (short : offset < byteLength text)
    {line : Nat} (inside : line < (ofText unit text).lineCount) :
    line = (ofText unit text).lineOf offset ↔
      (ofText unit text).startOf line ≤ offset ∧
        offset < (ofText unit text).startOf (line + 1) := by
  have lines : (ofText unit text).lineCount = text.count '\n' + 1 := lineCount_ofText unit text
  have onText := lineOf_lt_lineCount unit text offset
  have here := le_lineOf_iff unit inside offset
  by_cases last : line + 1 < (ofText unit text).lineCount
  · have next := le_lineOf_iff unit last offset
    omega
  · have past : (ofText unit text).startOf (line + 1) = byteLength text :=
      startOf_past unit (by omega)
    omega

theorem exists_lineSpan?_iff {text : Text} {offset : Nat} (short : offset < byteLength text)
    (line : Nat) :
    (∃ span, (ofText unit text).lineSpan? line = some span ∧ span.start ≤ offset ∧
        offset < span.stop) ↔
      line = (ofText unit text).lineOf offset := by
  rw [lineSpan?]
  by_cases inside : line < (ofText unit text).lineCount
  · rw [if_pos inside, lineOf_eq_iff unit short inside]
    constructor
    · rintro ⟨span, here, holds⟩
      cases here
      exact holds
    · intro holds
      exact ⟨(ofText unit text).lineSpan line, rfl, holds⟩
  · rw [if_neg inside]
    constructor
    · rintro ⟨span, nowhere, _⟩
      cases nowhere
    · intro same
      rw [same] at inside
      exact absurd (lineOf_lt_lineCount unit text offset) inside

/-- Starts are boundaries, so an offset inside a character is on the line of the
character. -/
theorem lineOf_byteLength_takeBytes (text : Text) (offset : Nat) :
    (ofText unit text).lineOf (byteLength (takeBytes text offset)) =
      (ofText unit text).lineOf offset := by
  have sameStarts (line : Nat) (inside : line < (ofText unit text).lineCount) :
      line ≤ (ofText unit text).lineOf (byteLength (takeBytes text offset)) ↔
        line ≤ (ofText unit text).lineOf offset := by
    rw [le_lineOf_iff unit inside, le_lineOf_iff unit inside]
    exact le_byteLength_takeBytes_iff (isBoundary_startOf unit text line) offset
  have front := sameStarts _ (lineOf_lt_lineCount unit text (byteLength (takeBytes text offset)))
  have back := sameStarts _ (lineOf_lt_lineCount unit text offset)
  omega

theorem lineOf_eq_count (text : Text) (offset : Nat) :
    (ofText unit text).lineOf offset = (takeBytes text offset).count '\n' := by
  have place := lineOf_append unit (takeBytes text offset) (dropBytes text offset)
  rwa [takeBytes_append_dropBytes, lineOf_byteLength_takeBytes] at place

/-- The line of an offset is the number of line feeds among the bytes before the offset,
and one of the lines of the text. For an offset of the text it is the one line that holds
the byte there. Later offsets are not on earlier lines, and the start of a line is on that
line. -/
theorem lineOf_locates (unit : ColumnUnit) (text : Text) :
    let table := ofText unit text
    (∀ offset,
        table.lineOf offset =
            ((bytes text).take (min offset (byteLength text))).count lineFeed ∧
          table.lineOf offset < table.lineCount) ∧
      (∀ offset, offset < byteLength text → ∀ line,
        (∃ span, table.lineSpan? line = some span ∧ span.start ≤ offset ∧
            offset < span.stop) ↔
          line = table.lineOf offset) ∧
      (∀ first second, first ≤ second → table.lineOf first ≤ table.lineOf second) ∧
      ∀ line start, table.starts[line]? = some start → table.lineOf start = line := by
  intro table
  refine ⟨fun offset => ⟨?_, lineOf_lt_lineCount unit text offset⟩, ?_, ?_, ?_⟩
  · rw [← length_bytes, ← List.take_eq_take_min, count_take_bytes]
    exact lineOf_eq_count unit text offset
  · intro offset short line
    exact exists_lineSpan?_iff unit short line
  · intro first second inOrder
    exact lineOf_mono unit text inOrder
  · intro line start found
    obtain ⟨inside, _⟩ := Array.getElem?_eq_some_iff.1 found
    have starts := lineOf_startOf unit inside
    rwa [startOf, Array.getD_eq_getD_getElem?, found, Option.getD_some] at starts

/-- An offset inside a character, the start of the line behind a carriage return and line
feed, and an offset past a line feed that ends the text. -/
theorem lineOf_locates_around_line_feeds :
    let text : Text := ['a', '\r', '\n', '😀', '\n']
    let table := ofText .utf16 text
    table.starts = #[0, 3, 8] ∧
      (5 < byteLength text ∧
        ∃ span, table.lineSpan? 1 = some span ∧ span.start ≤ 5 ∧ 5 < span.stop) ∧
      (table.starts[1]? = some 3 ∧ table.lineOf 3 = 1) ∧
      table.lineOf 20 = ((bytes text).take 8).count lineFeed ∧
      (5 ≤ 20 ∧ table.lineOf 5 ≤ table.lineOf 20) := by
  intro text table
  obtain ⟨counts, holds, inOrder, starts⟩ := lineOf_locates .utf16 text
  have short : 5 < byteLength text := by decide
  have found : table.starts[1]? = some 3 := by decide
  refine ⟨by decide, ⟨short, (holds 5 short 1).2 ?_⟩, ⟨found, starts 1 3 found⟩, ?_, ?_⟩
  · exact (by decide +kernel : 1 = table.lineOf 5)
  · exact (counts 20).1
  · exact ⟨by decide, inOrder 5 20 (by decide)⟩

end LineTable

end LiveDocument
