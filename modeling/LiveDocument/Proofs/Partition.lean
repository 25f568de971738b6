import Mathlib.Algebra.GroupWithZero.Nat
import Mathlib.Data.List.Basic
import LiveDocument.Proofs.Columns
import LiveDocument.Proofs.LineFeeds
import LiveDocument.Proofs.Mending

/-!
# Lines as a partition of a text

A table is made from a text and kept up with the replacements in it. Its lines, read one
after the other, are the text (`flatten_lines`). They are cut behind the line feeds and
nowhere else, and their lengths add up to the length of the text (`Maintained.partitions`).
-/

namespace LiveDocument

open Text

namespace LineCut

variable {text before content after : Text} {line : Nat}

theorem closed_of_lt (cut : LineCut text line before content after)
    (notLast : line < text.count '\n') :
    ∃ initial, content = initial ++ ['\n'] ∧ '\n' ∉ initial := by
  rcases cut.closes with closed | ⟨_, noFeed⟩
  · exact closed
  · exact absurd (cut.eq_count_iff.2 noFeed) (Nat.ne_of_lt notLast)

/-- Nothing is on the last line of a text that ends with a line feed. -/
theorem eq_nil_iff_endsLine (cut : LineCut text line before content after)
    (noFeed : '\n' ∉ content) : content = [] ↔ EndsLine text := by
  have whole : text = before ++ content := by
    rcases cut.closes with ⟨initial, rfl, _⟩ | ⟨rfl, _⟩
    · exact absurd (List.mem_append_right initial List.mem_cons_self) noFeed
    · rw [cut.split, List.append_nil]
  constructor
  · rintro rfl
    rw [whole, List.append_nil]
    exact cut.opens
  · rintro (empty | ⟨initial, ends⟩)
    · rw [empty] at whole
      exact (List.append_eq_nil_iff.1 whole.symm).2
    · refine Classical.byContradiction fun nonempty => noFeed (List.mem_of_getLast? ?_)
      rw [← List.getLast?_append_of_ne_nil before nonempty, ← whole, ends]
      exact List.getLast?_concat

end LineCut

namespace LineTable

/-- The lines of a text in order, each with its line feed. -/
def lines (table : LineTable) (text : Text) : List Text :=
  (List.range table.lineCount).map (table.lineText text)

/-- The starts of a table cut a text into its lines. -/
structure Partitions (table : LineTable) (text : Text) : Prop where
  length_eq : table.length = byteLength text
  first : table.starts[0]? = some 0
  ascending : table.starts.toList.Pairwise (· < ·)
  bounded : ∀ start ∈ table.starts, start ≤ table.length
  /-- Every line but the first starts behind a line feed, and a line starts behind each. -/
  start_iff : ∀ start, 0 < start →
    (start ∈ table.starts ↔ (bytes text)[start - 1]? = some lineFeed)
  span_iff : ∀ line, (table.lineSpan? line).isSome = true ↔ line < table.lineCount
  /-- The lines are what their spans read. -/
  read : ∀ line, (table.lineSpan? line).bind (slice? text) = (table.lines text)[line]?
  whole : (table.lines text).flatten = text
  closed : ∀ line content, (table.lines text)[line]? = some content →
    line ≠ table.lastLine → ∃ initial, content = initial ++ ['\n'] ∧ '\n' ∉ initial
  last : ∃ content, (table.lines text)[table.lastLine]? = some content ∧
    '\n' ∉ content ∧ (content = [] ↔ EndsLine text)
  /-- No line starts behind a carriage return, but one does behind the line feed that
  follows it. -/
  carriageReturn : ∀ before after, text = before ++ '\r' :: after →
    byteLength before + 1 ∉ table.starts ∧
      ∀ rest, after = '\n' :: rest → byteLength before + 2 ∈ table.starts
  lineLength : ∀ line,
    table.lineLength? text line = (table.lines text)[line]?.map table.unit.textLength
  totalLength :
    ((List.range table.lineCount).filterMap (table.lineLength? text)).sum =
      table.unit.textLength text

/-- A table that was made from a text, or mended when a part of its text was replaced. -/
inductive Maintained (unit : ColumnUnit) : LineTable → Text → Prop where
  | made (text : Text) : Maintained unit (ofText unit text) text
  | mended {table : LineTable} {text : Text} (before : Maintained unit table text)
      {span : Span} (admissible : span.Admissible text) (inserted : Text) :
      Maintained unit (table.patch span inserted) (text.splice span inserted)

theorem Maintained.eq_ofText {unit : ColumnUnit} {table : LineTable} {text : Text}
    (maintained : Maintained unit table text) : table = ofText unit text := by
  induction maintained with
  | made text => rfl
  | mended before admissible inserted ih =>
      rw [ih]
      exact patch_ofText unit admissible inserted

section Starts

variable (unit : ColumnUnit) {text : Text} {start : Nat}

theorem mem_starts_ofText_iff (positive : 0 < start) :
    start ∈ (ofText unit text).starts ↔
      ∃ before after, text = before ++ '\n' :: after ∧ start = byteLength before + 1 := by
  rw [ofText, lineStarts_true, Array.mem_append, Array.mem_singleton, mem_lineStarts_iff]
  simp only [Nat.zero_add]
  exact or_iff_right (Nat.ne_of_gt positive)

theorem mem_starts_ofText_iff_lineFeed (positive : 0 < start) :
    start ∈ (ofText unit text).starts ↔ (bytes text)[start - 1]? = some lineFeed := by
  rw [mem_starts_ofText_iff unit positive, getElem?_bytes_eq_lineFeed_iff]
  refine exists_congr fun before => exists_congr fun after => and_congr_right fun _ => ?_
  omega

theorem le_byteLength_of_mem_starts (member : start ∈ (ofText unit text).starts) :
    start ≤ byteLength text := by
  rw [ofText] at member
  have within := (within_of_mem_lineStarts member).2
  rwa [Nat.zero_add] at within

theorem not_mem_starts_of_carriageReturn (before after : Text) :
    byteLength before + 1 ∉ (ofText unit (before ++ '\r' :: after)).starts := by
  rw [mem_starts_ofText_iff unit (Nat.succ_pos _)]
  rintro ⟨other, rest, split, length⟩
  have sameFront : before = other := by
    rw [← takeBytes_append before ('\r' :: after), split, Nat.succ.inj length]
    exact takeBytes_append other ('\n' :: rest)
  rw [sameFront] at split
  have sameCharacter := (List.cons.inj (List.append_cancel_left split)).1
  exact absurd sameCharacter (by decide)

theorem mem_starts_of_crlf (before rest : Text) :
    byteLength before + 2 ∈ (ofText unit (before ++ '\r' :: '\n' :: rest)).starts := by
  rw [mem_starts_ofText_iff unit (Nat.succ_pos _)]
  refine ⟨before ++ ['\r'], rest, List.append_cons before '\r' _, ?_⟩
  rw [byteLength_append]
  rfl

end Starts

/-! ## Lines one after the other -/

section Lines

variable (unit : ColumnUnit) (text : Text)

theorem getElem?_lines (table : LineTable) (line : Nat) :
    (table.lines text)[line]? = (table.lineSpan? line).map text.slice := by
  rw [lines, List.getElem?_map, lineSpan?]
  by_cases inside : line < table.lineCount
  · rw [if_pos inside, List.getElem?_range inside]
    rfl
  · have outside : (List.range table.lineCount).length ≤ line := by
      rw [List.length_range]
      exact Nat.le_of_not_lt inside
    rw [if_neg inside, List.getElem?_eq_none outside]
    rfl

/-- A line of the list is what is cut out of the text for it. -/
theorem exists_cut_of_getElem?_lines {line : Nat} {content : Text}
    (here : ((ofText unit text).lines text)[line]? = some content) :
    line < (ofText unit text).lineCount ∧
      ∃ before after, LineCut text line before content after := by
  rw [getElem?_lines, lineSpan?] at here
  by_cases inside : line < (ofText unit text).lineCount
  · rw [if_pos inside, Option.map_some] at here
    have onText := (lt_lineCount_iff unit).1 inside
    obtain ⟨before, cutLine, after, cut⟩ := LineCut.exists_of_le onText
    have same : cutLine = content := (cut.lineText_eq unit).symm.trans (Option.some.inj here)
    exact ⟨inside, before, after, same ▸ cut⟩
  · rw [if_neg inside] at here
    cases here

theorem read_lines (line : Nat) :
    ((ofText unit text).lineSpan? line).bind (slice? text) =
      ((ofText unit text).lines text)[line]? := by
  rw [getElem?_lines, lineSpan?]
  by_cases inside : line < (ofText unit text).lineCount
  · rw [if_pos inside]
    exact slice?_of_admissible (admissible_lineSpan unit text line)
  · rw [if_neg inside]
    rfl

/-- The first lines of a text are the text up to the start of the line behind them. Lines
past the last one add nothing, so the number of lines need not be bounded. -/
theorem flatten_map_lineText (count : Nat) :
    ((List.range count).map ((ofText unit text).lineText text)).flatten =
      takeBytes text ((ofText unit text).startOf count) := by
  induction count with
  | zero =>
      rw [startOf_zero, takeBytes_zero]
      rfl
  | succ line ih =>
      rw [List.range_succ, List.map_append, List.map_singleton, List.flatten_concat, ih]
      exact takeBytes_append_slice (admissible_lineSpan unit text line)

theorem flatten_lines : ((ofText unit text).lines text).flatten = text := by
  have past : text.count '\n' < (ofText unit text).lineCount := by
    rw [lineCount_ofText]
    exact Nat.lt_succ_self _
  rw [lines, flatten_map_lineText, startOf_past unit past, takeBytes_byteLength]

theorem lineLength?_eq_lines (table : LineTable) (line : Nat) :
    table.lineLength? text line = (table.lines text)[line]?.map table.unit.textLength := by
  rw [getElem?_lines, Option.map_map]
  rfl

theorem sum_map_textLength (parts : List Text) :
    (parts.map unit.textLength).sum = unit.textLength parts.flatten := by
  induction parts with
  | nil => exact (unit.textLength_nil).symm
  | cons part rest ih =>
      rw [List.flatten_cons, ColumnUnit.textLength_append, ← ih, List.map_cons,
        List.sum_cons]

theorem sum_lineLength? :
    ((List.range (ofText unit text).lineCount).filterMap
        ((ofText unit text).lineLength? text)).sum = unit.textLength text := by
  have measured : (List.range (ofText unit text).lineCount).filterMap
      ((ofText unit text).lineLength? text) =
        (List.range (ofText unit text).lineCount).map
          ((ofText unit text).lineLength text) :=
    List.filterMap_eq_map_iff_forall_eq_some.2 fun line member =>
      lineLength?_eq _ text (List.mem_range.1 member)
  have lengths : (List.range (ofText unit text).lineCount).map
      ((ofText unit text).lineLength text) =
        ((ofText unit text).lines text).map unit.textLength :=
    (List.map_map).symm
  rw [measured, lengths, sum_map_textLength, flatten_lines]

end Lines

theorem partitions_ofText (unit : ColumnUnit) (text : Text) :
    (ofText unit text).Partitions text := by
  have lineCount := lineCount_ofText unit text
  have lastLine := lastLine_ofText unit text
  constructor
  case length_eq => rfl
  case first =>
    rw [ofText, lineStarts_true]
    exact Array.getElem?_append_left Nat.one_pos
  case ascending => exact pairwise_starts_ofText unit text
  case bounded =>
    intro start member
    exact le_byteLength_of_mem_starts unit member
  case start_iff =>
    intro start positive
    exact mem_starts_ofText_iff_lineFeed unit positive
  case span_iff => exact lineSpan?_isSome _
  case read => exact read_lines unit text
  case whole => exact flatten_lines unit text
  case closed =>
    intro line content here notLast
    obtain ⟨inside, before, after, cut⟩ := exists_cut_of_getElem?_lines unit text here
    refine cut.closed_of_lt ?_
    omega
  case last =>
    obtain ⟨before, content, after, cut⟩ :=
      LineCut.exists_of_le (Nat.le_refl (text.count '\n'))
    have noFeed := cut.eq_count_iff.1 rfl
    refine ⟨content, ?_, noFeed, cut.eq_nil_iff_endsLine noFeed⟩
    rw [getElem?_lines, lastLine, lineSpan?, if_pos (by omega)]
    exact congrArg some (cut.lineText_eq unit)
  case carriageReturn =>
    rintro before after rfl
    refine ⟨not_mem_starts_of_carriageReturn unit before after, ?_⟩
    rintro rest rfl
    exact mem_starts_of_crlf unit before rest
  case lineLength => exact lineLength?_eq_lines text _
  case totalLength => exact sum_lineLength? unit text

/-- A table cuts its text into lines, however often the text was changed since the table
was made. -/
theorem Maintained.partitions {unit : ColumnUnit} {table : LineTable} {text : Text}
    (maintained : Maintained unit table text) :
    table.unit = unit ∧ table.Partitions text := by
  rw [maintained.eq_ofText]
  exact ⟨rfl, partitions_ofText unit text⟩

/-- A carriage return that is alone and one before a line feed, a character of several
bytes, and a line feed put in at the end. -/
theorem Maintained.partitions_carriage_returns :
    let text : Text := ['é', '\r', 'b', '\r', '\n', '😀']
    let table := (ofText .utf16 text).patch ⟨10, 10⟩ ['\n']
    let changed : Text := ['é', '\r', 'b', '\r', '\n', '😀', '\n']
    Maintained .utf16 table changed ∧
      table.lines changed = [['é', '\r', 'b', '\r', '\n'], ['😀', '\n'], []] ∧
      table.starts = #[0, 6, 11] ∧ table.unit = .utf16 ∧ table.Partitions changed := by
  intro text table changed
  have maintained : Maintained .utf16 table changed :=
    .mended (.made text) (by decide : Span.Admissible ⟨10, 10⟩ text) ['\n']
  exact ⟨maintained, by decide +kernel, by decide +kernel, maintained.partitions⟩

end LineTable

end LiveDocument
