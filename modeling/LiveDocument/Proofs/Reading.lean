import LiveDocument.Proofs.SingleRange

/-!
# Reading a range

The ends of a range resolve in order unless the range turns back on the last line
(`Document.TurnsBack`): a line past the last one is taken for the last one, and there the
later end may have the smaller column. A document reads exactly the ranges that do not
(`Reachable.read_unless_turnsBack`).
-/

namespace LiveDocument

open Text

namespace LineTable

variable (unit : ColumnUnit)

theorem offsetAt_min_line (text : Text) (position : Position) :
    (ofText unit text).offsetAt text
        ⟨min position.line (ofText unit text).lastLine, position.character⟩ =
      (ofText unit text).offsetAt text position := by
  rw [offsetAt, offsetAt]
  simp only [Nat.min_assoc, Nat.min_self]

theorem offsetAt_of_lastLine_le {text : Text} {position : Position}
    (past : (ofText unit text).lastLine ≤ position.line) :
    (ofText unit text).offsetAt text position =
      (ofText unit text).startOf (ofText unit text).lastLine +
        unit.byteOffset
          ((ofText unit text).lineText text (ofText unit text).lastLine)
          position.character := by
  rw [offsetAt, Nat.min_eq_right past]
  rfl

/-- Positions in order resolve the wrong way round only if the second one is past the last
line, the first one on it or past it, and the columns are the wrong way round there. -/
theorem offsetAt_lt_iff_of_le {text : Text} {first second : Position}
    (inOrder : first ≤ second) :
    let table := ofText unit text
    let column (position : Position) : Nat :=
      unit.byteOffset (table.lineText text table.lastLine) position.character
    table.offsetAt text second < table.offsetAt text first ↔
      first.line < second.line ∧ table.lastLine ≤ first.line ∧
        column second < column first := by
  intro table column
  by_cases collapse : first.line < second.line ∧ table.lastLine ≤ first.line
  · obtain ⟨later, past⟩ := collapse
    have secondPast : table.lastLine ≤ second.line := by omega
    rw [offsetAt_of_lastLine_le unit past, offsetAt_of_lastLine_le unit secondPast,
      Nat.add_lt_add_iff_left]
    simp only [later, past, true_and, column]
    rfl
  · -- Taken for lines of the text, the positions are still in order.
    have stillInOrder : Position.mk (min first.line table.lastLine) first.character ≤
        ⟨min second.line table.lastLine, second.character⟩ := by
      rw [Position.le_iff] at inOrder ⊢
      simp only
      omega
    have inside : min second.line table.lastLine ≤ text.count '\n' := by
      rw [← lastLine_ofText unit]
      exact Nat.min_le_right _ _
    have resolved := offsetAt_mono unit stillInOrder inside
    rw [offsetAt_min_line, offsetAt_min_line] at resolved
    refine iff_of_false (Nat.not_lt.2 resolved) ?_
    intro turns
    exact collapse ⟨turns.1, turns.2.1⟩

end LineTable

namespace Document

/-- Whether the ends of `range` come in the wrong order once they are resolved: the earlier
one is on the last line or past it, the later one on a line behind that, and as columns of
the last line they go back. -/
def TurnsBack (document : Document) (range : Range) : Prop :=
  let column (position : Position) : Nat :=
    document.settings.unit.byteOffset
      (document.table.lineText document.text document.table.lastLine) position.character
  range.ordered.start.line < range.ordered.stop.line ∧
    document.table.lastLine ≤ range.ordered.start.line ∧
      column range.ordered.stop < column range.ordered.start

instance (document : Document) (range : Range) : Decidable (document.TurnsBack range) :=
  inferInstanceAs (Decidable (_ ∧ _ ∧ _))

/-- Whether `position` resolves to a place between two characters of its line or, if there
is no such line, of the last one. -/
def ResolvesOnLine (document : Document) (position : Position) : Prop :=
  ∃ line, document.table.lineSpan? (min position.line document.table.lastLine) = some line ∧
    line.start ≤ document.offsetAt position ∧ document.offsetAt position ≤ line.stop ∧
      isBoundary document.text (document.offsetAt position) = true

/-! ## What is read -/

namespace IsFresh

variable {document : Document} (fresh : document.IsFresh)

include fresh

theorem read?_eq_none_iff (range : Range) :
    document.read? range = none ↔ document.TurnsBack range := by
  have boundaries := fresh.isBoundary_spanOf range.ordered
  rw [read?, slice?_eq_none_iff boundaries.1 boundaries.2, TurnsBack, fresh.table_eq]
  exact LineTable.offsetAt_lt_iff_of_le _ range.ordered_start_le_stop

theorem exists_read {range : Range} (keepsOn : ¬ document.TurnsBack range) :
    ∃ before content after, document.text = before ++ content ++ after ∧
      Text.byteLength before = document.offsetAt range.ordered.start ∧
      Text.byteLength (before ++ content) = document.offsetAt range.ordered.stop ∧
      document.read? range = some content := by
  rw [← fresh.read?_eq_none_iff, read?] at keepsOn
  have admissible : (document.table.spanOf document.text range.ordered).Admissible
      document.text := by
    refine Classical.byContradiction fun notAdmissible => ?_
    exact keepsOn (if_neg notAdmissible)
  obtain ⟨before, content, after, split, start, stop⟩ := (admissible_iff _ _).1 admissible
  refine ⟨before, content, after, split, start, stop, ?_⟩
  have whole : document.table.spanOf document.text range.ordered =
      ⟨Text.byteLength before, Text.byteLength (before ++ content)⟩ :=
    Span.ext_of_eq start.symm stop.symm
  rw [read?, slice?_of_admissible admissible, whole, split, slice_append]

theorem resolvesOnLine (position : Position) : document.ResolvesOnLine position := by
  have bounds := LineTable.offsetAt_bounds document.settings.unit document.text position
  rw [← LineTable.lastLine_ofText document.settings.unit] at bounds
  have inside : min position.line document.table.lastLine < document.table.lineCount := by
    rw [fresh.table_eq]
    exact LineTable.min_lastLine_lt _ _ _
  refine ⟨document.table.lineSpan (min position.line document.table.lastLine),
    if_pos inside, ?_⟩
  rw [offsetAt, fresh.table_eq]
  exact ⟨bounds.1, bounds.2, LineTable.isBoundary_offsetAt _ _ _⟩

theorem admissible_spanOf {first last : Position} (inOrder : first ≤ last)
    (inside : last.line < document.lineCount) :
    (document.table.spanOf document.text ⟨first, last⟩).Admissible document.text := by
  rw [fresh.lt_lineCount_iff] at inside
  rw [fresh.table_eq]
  exact LineTable.admissible_spanOf _ inOrder inside

/-- The texts of two ranges of which one starts where the other stops are the text of the
range over both. -/
theorem read?_append {first middle last : Position} (front : first ≤ middle)
    (back : middle ≤ last) (inside : last.line < document.lineCount) :
    ∃ frontText backText, document.read? ⟨first, middle⟩ = some frontText ∧
      document.read? ⟨middle, last⟩ = some backText ∧
      document.read? ⟨first, last⟩ = some (frontText ++ backText) := by
  have middleInside : middle.line < document.lineCount := by
    rw [Position.le_iff] at back
    omega
  have frontAdmissible := fresh.admissible_spanOf front middleInside
  have backAdmissible := fresh.admissible_spanOf back inside
  have whole := Position.le_trans front back
  have wholeAdmissible := fresh.admissible_spanOf whole inside
  simp only [read?, Range.ordered_of_le, front, back, whole]
  refine ⟨_, _, slice?_of_admissible frontAdmissible, slice?_of_admissible backAdmissible, ?_⟩
  rw [slice?_of_admissible wholeAdmissible]
  exact congrArg some (slice_append_slice frontAdmissible backAdmissible).symm

end IsFresh

/-- A range that stays on the lines of the text does not turn back. -/
theorem not_turnsBack {document : Document} {range : Range}
    (startInside : range.start.line < document.lineCount)
    (stopInside : range.stop.line < document.lineCount) : ¬ document.TurnsBack range := by
  have inside := (range.ordered_ends_iff fun position =>
    position.line < document.lineCount).2 ⟨startInside, stopInside⟩
  intro turnsBack
  have later := turnsBack.1
  have past := turnsBack.2.1
  rw [LineTable.lastLine] at past
  have stop := inside.2
  rw [lineCount] at stop
  omega

/-- A range is read unless it turns back, and then what is read is the text between the
places to which its ends resolve, each on the line that its position is taken for. So a
range on lines of the text is always read, the two directions of a range are read alike,
and on lines of the text what is read of two ranges that meet adds up. -/
theorem Reachable.read_unless_turnsBack {document : Document}
    (reachable : Reachable document) :
    (∀ range : Range,
        (document.read? range = none ↔ document.TurnsBack range) ∧
          (¬ document.TurnsBack range →
            ∃ before content after, document.text = before ++ content ++ after ∧
              Text.byteLength before = document.offsetAt range.ordered.start ∧
              Text.byteLength (before ++ content) = document.offsetAt range.ordered.stop ∧
              document.read? range = some content) ∧
          document.ResolvesOnLine range.ordered.start ∧
          document.ResolvesOnLine range.ordered.stop ∧
          (range.start.line < document.lineCount → range.stop.line < document.lineCount →
            ∃ content, document.read? range = some content) ∧
          document.read? ⟨range.stop, range.start⟩ = document.read? range) ∧
      ∀ first middle last : Position, first ≤ middle → middle ≤ last →
        last.line < document.lineCount →
          ∃ front back, document.read? ⟨first, middle⟩ = some front ∧
            document.read? ⟨middle, last⟩ = some back ∧
            document.read? ⟨first, last⟩ = some (front ++ back) := by
  have fresh := reachable.isFresh
  constructor
  · intro range
    refine ⟨fresh.read?_eq_none_iff range, fresh.exists_read, fresh.resolvesOnLine _,
      fresh.resolvesOnLine _, ?_, ?_⟩
    · intro startInside stopInside
      obtain ⟨_, content, _, _, _, _, read⟩ :=
        fresh.exists_read (not_turnsBack startInside stopInside)
      exact ⟨content, read⟩
    · rw [read?, read?, Range.ordered_swap]
  · intro first middle last front back inside
    exact fresh.read?_append front back inside

/-- The first range starts on the last line and ends at column 0 of the next, so it is not
read. The second, the wrong way round, ends past the last line as well, but at a greater
column. The others stay on the lines of the text, and two of them meet inside a
character. -/
theorem read_unless_turnsBack_on_the_last_line :
    let document := ofText ⟨.utf16, .strict⟩ 1 ['a', '\n', 'b', '😀', 'c']
    Reachable document ∧
      document.TurnsBack ⟨⟨1, 1⟩, ⟨2, 0⟩⟩ ∧ document.read? ⟨⟨1, 1⟩, ⟨2, 0⟩⟩ = none ∧
      ¬ document.TurnsBack ⟨⟨2, 5⟩, ⟨1, 2⟩⟩ ∧
      (∃ before content after, document.text = before ++ content ++ after ∧
        Text.byteLength before = 3 ∧ Text.byteLength (before ++ content) = 8 ∧
        document.read? ⟨⟨2, 5⟩, ⟨1, 2⟩⟩ = some content) ∧
      (1 < document.lineCount ∧ 0 < document.lineCount) ∧
      (∃ content, document.read? ⟨⟨1, 9⟩, ⟨0, 1⟩⟩ = some content) ∧
      (Position.mk 0 1 ≤ ⟨1, 2⟩ ∧ Position.mk 1 2 ≤ ⟨1, 9⟩) ∧
      ∃ front back, document.read? ⟨⟨0, 1⟩, ⟨1, 2⟩⟩ = some front ∧
        document.read? ⟨⟨1, 2⟩, ⟨1, 9⟩⟩ = some back ∧
        document.read? ⟨⟨0, 1⟩, ⟨1, 9⟩⟩ = some (front ++ back) := by
  intro document
  have reachable : Reachable document := .opened _ _ _
  obtain ⟨ranges, parts⟩ := reachable.read_unless_turnsBack
  have turnsBack : document.TurnsBack ⟨⟨1, 1⟩, ⟨2, 0⟩⟩ := by decide +kernel
  have keepsOn : ¬ document.TurnsBack ⟨⟨2, 5⟩, ⟨1, 2⟩⟩ := by decide +kernel
  have inside : 1 < document.lineCount ∧ 0 < document.lineCount := by decide
  have inOrder : Position.mk 0 1 ≤ ⟨1, 2⟩ ∧ Position.mk 1 2 ≤ ⟨1, 9⟩ := by decide
  have resolved : document.offsetAt ⟨1, 2⟩ = 3 ∧ document.offsetAt ⟨2, 5⟩ = 8 := by
    decide +kernel
  have read := (ranges ⟨⟨2, 5⟩, ⟨1, 2⟩⟩).2.1 keepsOn
  have ends : (Range.mk ⟨2, 5⟩ ⟨1, 2⟩).ordered = ⟨⟨1, 2⟩, ⟨2, 5⟩⟩ := by decide
  rw [ends, resolved.1, resolved.2] at read
  exact ⟨reachable, turnsBack, (ranges _).1.2 turnsBack, keepsOn, read, inside,
    (ranges ⟨⟨1, 9⟩, ⟨0, 1⟩⟩).2.2.2.2.1 inside.1 inside.2, inOrder,
    parts _ _ _ inOrder.1 inOrder.2 inside.1⟩

end Document

end LiveDocument
