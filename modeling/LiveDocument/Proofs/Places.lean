import LiveDocument.LineTable.Clamp
import LiveDocument.Proofs.Columns
import LiveDocument.Proofs.Lines

/-!
# Positions and offsets

Positions resolve to boundaries of the text, in reading order as long as their lines
are in the text (`offsetAt_mono`). The position of a boundary resolves to it
(`offsetAt_positionAt`). Clamping keeps reading order (`clamp_mono`) and leaves the
positions of boundaries alone (`clamp_positionAt`), so a clamped range covers whole
characters (`admissible_spanOf_clampRange`).
-/

namespace LiveDocument

open Text

namespace LineTable

variable (unit : ColumnUnit)

theorem offsetAt_eq {text before content after : Text} {position : Position}
    (cut : LineCut text (min position.line (text.count '\n')) before content after) :
    (ofText unit text).offsetAt text position =
      byteLength before + unit.byteOffset content position.character := by
  rw [offsetAt, lastLine_ofText]
  simp only [cut.startOf_eq, cut.lineText_eq]
  rfl

theorem offsetAt_zero (text : Text) : (ofText unit text).offsetAt text ⟨0, 0⟩ = 0 := by
  have nothingPassed := unit.byteOffset_textLength [] ((ofText unit text).lineText text 0)
  rw [List.nil_append, ColumnUnit.textLength_nil, byteLength_nil] at nothingPassed
  rw [offsetAt, Nat.zero_min, startOf_zero, Nat.zero_add]
  exact nothingPassed

private theorem exists_cut_of_position (text : Text) (position : Position) :
    ∃ before content after,
      LineCut text (min position.line (text.count '\n')) before content after :=
  LineCut.exists_of_le (Nat.min_le_right _ _)

theorem isBoundary_offsetAt (text : Text) (position : Position) :
    isBoundary text ((ofText unit text).offsetAt text position) = true := by
  obtain ⟨before, content, after, cut⟩ := exists_cut_of_position text position
  rw [offsetAt_eq unit cut, cut.split]
  exact isBoundary_append_add after (unit.isBoundary_byteOffset content _)

/-- A position resolves to a place from the start of its line to the start of the
next. -/
theorem offsetAt_bounds (text : Text) (position : Position) :
    (ofText unit text).startOf (min position.line (text.count '\n')) ≤
        (ofText unit text).offsetAt text position ∧
      (ofText unit text).offsetAt text position ≤
        (ofText unit text).startOf (min position.line (text.count '\n') + 1) := by
  obtain ⟨before, content, after, cut⟩ := exists_cut_of_position text position
  rw [offsetAt_eq unit cut, cut.startOf_eq, cut.startOf_succ_eq, byteLength_append]
  have bound := unit.byteOffset_le_byteLength content position.character
  omega

/-- Positions on lines of the text resolve in reading order. -/
theorem offsetAt_mono {text : Text} {first second : Position} (inOrder : first ≤ second)
    (inside : second.line ≤ text.count '\n') :
    (ofText unit text).offsetAt text first ≤ (ofText unit text).offsetAt text second := by
  rcases Position.le_iff.1 inOrder with earlierLine | ⟨sameLine, columns⟩
  · calc (ofText unit text).offsetAt text first
        ≤ (ofText unit text).startOf (min first.line (text.count '\n') + 1) :=
          (offsetAt_bounds unit text first).2
      _ ≤ (ofText unit text).startOf (min second.line (text.count '\n')) :=
          startOf_mono unit (by omega)
      _ ≤ (ofText unit text).offsetAt text second := (offsetAt_bounds unit text second).1
  · obtain ⟨before, content, after, cut⟩ := exists_cut_of_position text first
    rw [offsetAt_eq unit cut, offsetAt_eq unit (sameLine ▸ cut)]
    exact Nat.add_le_add_left (unit.byteOffset_mono content columns) _

/-! ## From offsets to positions -/

/-- The position of a place counts the line feeds before it and the units since the
last of them. -/
theorem positionAt_eq {lead tail : Text} (opens : EndsLine lead) (noFeed : '\n' ∉ tail)
    (after : Text) :
    (ofText unit (lead ++ tail ++ after)).positionAt (lead ++ tail ++ after)
        (byteLength (lead ++ tail)) =
      ⟨lead.count '\n', unit.textLength tail⟩ := by
  have atBoundary := isBoundary_append (lead ++ tail) after
  have within : min (byteLength (lead ++ tail)) (ofText unit (lead ++ tail ++ after)).length =
      byteLength (lead ++ tail) :=
    Nat.min_eq_left (le_byteLength_of_isBoundary atBoundary)
  have line : (ofText unit (lead ++ tail ++ after)).lineOf (byteLength (lead ++ tail)) =
      lead.count '\n' := by
    rw [lineOf_append, List.count_append, List.count_eq_zero.2 noFeed, Nat.add_zero]
  have start : (ofText unit (lead ++ tail ++ after)).startOf (lead.count '\n') =
      byteLength lead := by
    rw [List.append_assoc]
    exact startOf_ofText unit opens _
  rw [positionAt, within, floorBoundary_eq_self atBoundary]
  simp only [line, start, slice_append]
  rfl

/-- The position of a place does not depend on what comes after it. -/
theorem positionAt_append_congr (before first second : Text) :
    (ofText unit (before ++ first)).positionAt (before ++ first) (byteLength before) =
      (ofText unit (before ++ second)).positionAt (before ++ second) (byteLength before) := by
  obtain ⟨lead, tail, rfl, opens, noFeed⟩ := exists_lastLine before
  rw [positionAt_eq unit opens noFeed first, positionAt_eq unit opens noFeed second]

theorem exists_place {text : Text} {offset : Nat}
    (atBoundary : isBoundary text offset = true) :
    ∃ lead tail more rest, LineCut text (lead.count '\n') lead (tail ++ more) rest ∧
      '\n' ∉ tail ∧ byteLength (lead ++ tail) = offset ∧
      (ofText unit text).positionAt text offset =
        ⟨lead.count '\n', unit.textLength tail⟩ := by
  obtain ⟨before, after, rfl, rfl⟩ := (isBoundary_iff text offset).1 atBoundary
  obtain ⟨lead, tail, more, rest, rfl, rfl, noFeed, cut⟩ := LineCut.exists_of_append before after
  rw [← cut.feeds] at cut
  exact ⟨lead, tail, more, rest, cut, noFeed, rfl, positionAt_eq unit cut.opens noFeed _⟩

theorem offsetAt_positionAt {text : Text} {offset : Nat}
    (atBoundary : isBoundary text offset = true) :
    (ofText unit text).offsetAt text ((ofText unit text).positionAt text offset) =
      offset := by
  obtain ⟨lead, tail, more, rest, cut, noFeed, rfl, position⟩ := exists_place unit atBoundary
  have inside := Nat.min_eq_left cut.le_count
  rw [position, offsetAt_eq unit (by rw [inside]; exact cut), unit.byteOffset_textLength,
    byteLength_append]

theorem positionAt_mono {text : Text} {first second : Nat}
    (firstBoundary : isBoundary text first = true)
    (secondBoundary : isBoundary text second = true) (inOrder : first ≤ second) :
    (ofText unit text).positionAt text first ≤ (ofText unit text).positionAt text second := by
  obtain ⟨lead, tail, more, rest, cut, noFeed, rfl, position⟩ := exists_place unit firstBoundary
  obtain ⟨whole, after, split, rfl⟩ := (isBoundary_iff text second).1 secondBoundary
  have same : lead ++ tail ++ (more ++ rest) = whole ++ after := by
    rw [← split, cut.split]
    simp only [List.append_assoc]
  obtain ⟨extra, rfl⟩ := leads_of_byteLength_le same inOrder
  rw [position, split, Position.le_iff]
  by_cases feed : '\n' ∈ extra
  · obtain ⟨later, last, _, _, laterSplit, _, laterNoFeed, laterCut⟩ :=
      LineCut.exists_of_append (lead ++ tail ++ extra) after
    have place := positionAt_eq unit laterCut.opens laterNoFeed after
    have feeds := laterCut.feeds
    rw [← laterSplit] at place
    rw [List.count_append, List.count_append] at feeds
    have more := List.count_pos_iff.2 feed
    rw [place]
    exact Or.inl (by simp only; omega)
  · have stillNoFeed : '\n' ∉ tail ++ extra := fun member =>
      (List.mem_append.1 member).elim noFeed feed
    have place := positionAt_eq unit cut.opens stillNoFeed after
    rw [← List.append_assoc lead] at place
    rw [place]
    refine Or.inr ⟨rfl, ?_⟩
    simp only [ColumnUnit.textLength_append]
    exact Nat.le_add_right _ _

/-! ## Clamped positions -/

section Clamp

variable (table : LineTable) (text : Text)

theorem clamp_line_le (position : Position) :
    (table.clamp text position).line ≤ table.lastLine := by
  rw [clamp]
  split
  · exact Nat.le_refl _
  · exact Nat.le_of_not_lt ‹_›

theorem clamp_mono {first second : Position} (inOrder : first ≤ second) :
    table.clamp text first ≤ table.clamp text second := by
  rw [clamp, clamp]
  split
  · have past : table.lastLine < second.line := by
      rw [Position.le_iff] at inOrder
      omega
    rw [if_pos past]
    exact Position.le_refl _
  · split
    · rw [Position.le_iff]
      by_cases last : first.line = table.lastLine
      · refine Or.inr ⟨last, ?_⟩
        rw [last]
        exact Nat.min_le_right _ _
      · exact Or.inl (by simp only; omega)
    · rcases Position.le_iff.1 inOrder with earlier | ⟨sameLine, columns⟩
      · exact Position.le_iff.2 (Or.inl earlier)
      · refine Position.le_iff.2 (Or.inr ⟨sameLine, ?_⟩)
        simp only [sameLine]
        omega

variable {table text}

theorem clamp_eq_self {position : Position} (inside : position.line ≤ table.lastLine)
    (within : position.character ≤ table.lineLength text position.line) :
    table.clamp text position = position := by
  rw [clamp, if_neg (Nat.not_lt.2 inside), Nat.min_eq_left within]

theorem clampRange_eq_self {range : Range}
    (inOrder : range.start ≤ range.stop)
    (startStays : table.clamp text range.start = range.start)
    (stopStays : table.clamp text range.stop = range.stop) :
    table.clampRange text range = range := by
  rw [clampRange, Range.ordered_of_le inOrder, startStays, stopStays]

end Clamp

theorem clamp_positionAt {text : Text} {offset : Nat}
    (atBoundary : isBoundary text offset = true) :
    (ofText unit text).clamp text ((ofText unit text).positionAt text offset) =
      (ofText unit text).positionAt text offset := by
  obtain ⟨lead, tail, more, rest, cut, noFeed, rfl, position⟩ := exists_place unit atBoundary
  rw [position]
  refine clamp_eq_self ?_ ?_
  · rw [lastLine_ofText]
    exact cut.le_count
  · rw [lineLength, cut.lineText_eq]
    have sum := unit.textLength_append tail more
    exact Nat.le_trans (Nat.le_add_right _ _) (Nat.le_of_eq sum.symm)

theorem line_positionAt_le {text : Text} {offset : Nat}
    (atBoundary : isBoundary text offset = true) :
    ((ofText unit text).positionAt text offset).line ≤ text.count '\n' := by
  rw [← clamp_positionAt unit atBoundary, ← lastLine_ofText unit]
  exact clamp_line_le _ _ _

/-- A column past the end of its line resolves to the start of the next line. -/
theorem offsetAt_of_lineLength_le {text : Text} {position : Position}
    (inside : position.line ≤ text.count '\n')
    (past : (ofText unit text).lineLength text position.line ≤ position.character) :
    (ofText unit text).offsetAt text position =
      (ofText unit text).startOf (position.line + 1) := by
  obtain ⟨before, content, after, cut⟩ := LineCut.exists_of_le inside
  have onLine := Nat.min_eq_left inside
  rw [lineLength, cut.lineText_eq] at past
  rw [offsetAt_eq unit (by rw [onLine]; exact cut), unit.byteOffset_of_textLength_le past,
    cut.startOf_succ_eq, byteLength_append]

/-- Clamping a column does not change where the position resolves. -/
theorem offsetAt_clamp {text : Text} {position : Position}
    (inside : position.line ≤ text.count '\n') :
    (ofText unit text).offsetAt text ((ofText unit text).clamp text position) =
      (ofText unit text).offsetAt text position := by
  have notPast : ¬ (ofText unit text).lastLine < position.line := by
    rw [lastLine_ofText]
    exact Nat.not_lt.2 inside
  rw [clamp, if_neg notPast]
  rcases Nat.le_total position.character ((ofText unit text).lineLength text position.line)
    with within | past
  · rw [Nat.min_eq_left within]
  · rw [Nat.min_eq_right past, offsetAt_of_lineLength_le unit inside past]
    exact offsetAt_of_lineLength_le unit inside (Nat.le_refl _)

/-- Clamping takes a position past the last line to the end of the text. -/
theorem offsetAt_clamp_past {text : Text} {position : Position}
    (past : text.count '\n' < position.line) :
    (ofText unit text).offsetAt text ((ofText unit text).clamp text position) =
      byteLength text := by
  rw [clamp, lastLine_ofText, if_pos past, offsetAt_of_lineLength_le unit (Nat.le_refl _)
    (Nat.le_refl _)]
  exact startOf_past unit (Nat.lt_succ_self _)

/-- Clamping keeps the place to which a position resolves, unless the line is past the
last one and the column falls short of the end of the text. -/
theorem offsetAt_clamp_eq_iff {text : Text} {position : Position} :
    (ofText unit text).offsetAt text ((ofText unit text).clamp text position) =
        (ofText unit text).offsetAt text position ↔
      position.line < (ofText unit text).lineCount ∨
        (ofText unit text).offsetAt text position = byteLength text := by
  rw [lt_lineCount_iff]
  rcases Nat.lt_or_ge (text.count '\n') position.line with past | inside
  · rw [offsetAt_clamp_past unit past, or_iff_right (Nat.not_le.2 past)]
    exact eq_comm
  · exact iff_of_true (offsetAt_clamp unit inside) (Or.inl inside)

theorem admissible_spanOf {text : Text} {range : Range} (inOrder : range.start ≤ range.stop)
    (inside : range.stop.line ≤ text.count '\n') :
    ((ofText unit text).spanOf text range).Admissible text :=
  ⟨offsetAt_mono unit inOrder inside, isBoundary_offsetAt unit text _,
    isBoundary_offsetAt unit text _⟩

/-- A clamped range covers whole characters, whatever range was sent. -/
theorem admissible_spanOf_clampRange (text : Text) (range : Range) :
    ((ofText unit text).spanOf text ((ofText unit text).clampRange text range)).Admissible
      text := by
  refine admissible_spanOf unit (clamp_mono _ _ range.ordered_start_le_stop) ?_
  rw [← lastLine_ofText unit]
  exact clamp_line_le _ _ _

def rangeOf (table : LineTable) (text : Text) (span : Span) : Range :=
  ⟨table.positionAt text span.start, table.positionAt text span.stop⟩

theorem clampRange_rangeOf {text : Text} {span : Span} (admissible : span.Admissible text) :
    (ofText unit text).clampRange text ((ofText unit text).rangeOf text span) =
      (ofText unit text).rangeOf text span :=
  clampRange_eq_self
    (positionAt_mono unit admissible.2.1 admissible.2.2 admissible.1)
    (clamp_positionAt unit admissible.2.1) (clamp_positionAt unit admissible.2.2)

/-- A range between places of a text is the range of the bytes between them. -/
theorem rangeOf_spanOf {text : Text} {first last : Nat}
    (firstBoundary : isBoundary text first = true)
    (lastBoundary : isBoundary text last = true) {range : Range}
    (start : range.start = (ofText unit text).positionAt text first)
    (stop : range.stop = (ofText unit text).positionAt text last) :
    (ofText unit text).rangeOf text ((ofText unit text).spanOf text range) = range := by
  rw [rangeOf, spanOf, start, stop, offsetAt_positionAt unit firstBoundary,
    offsetAt_positionAt unit lastBoundary, ← start, ← stop]

/-- The range of a span does not depend on what comes after the span. -/
theorem rangeOf_takeBytes_append {text : Text} {span : Span}
    (admissible : span.Admissible text) (tail : Text) :
    (ofText unit (takeBytes text span.stop ++ tail)).rangeOf
        (takeBytes text span.stop ++ tail) span =
      (ofText unit text).rangeOf text span := by
  obtain ⟨before, inside, after, rfl, rfl⟩ := exists_parts_of_admissible admissible
  have start := positionAt_append_congr unit before (inside ++ tail) (inside ++ after)
  have stop := positionAt_append_congr unit (before ++ inside) tail after
  rw [← List.append_assoc, ← List.append_assoc] at start
  rw [takeBytes_append, rangeOf, rangeOf, start, stop]

theorem spanOf_rangeOf {text : Text} {span : Span} (admissible : span.Admissible text) :
    (ofText unit text).spanOf text ((ofText unit text).rangeOf text span) = span := by
  rw [spanOf, rangeOf, offsetAt_positionAt unit admissible.2.1,
    offsetAt_positionAt unit admissible.2.2]

end LineTable

end LiveDocument
