import LiveDocument.Proofs.Batches
import LiveDocument.Proofs.Freshness

/-!
# One range read, composed and changed

A change clamps its range before it resolves it. A batch and a question resolve theirs
as it was sent, so that a line past the last one counts as the last line with the same
column. The two agree on the ends that are within reach (`IsWithinReach`). A batch of
one edit means the same as the change for exactly these (`composed_single`), and what
is read of a range is what a deletion takes away for these and for ranges past the last
line that cover nothing (`read_delete`).
-/

namespace LiveDocument

open Text

namespace Text

private theorem start_not_lt_of_splice_eq {text : Text} {first second : Span}
    (firstBoundary : isBoundary text first.start = true)
    (secondBoundary : isBoundary text second.start = true)
    (agree : ∀ inserted, splice text first inserted = splice text second inserted) :
    ¬ first.start < second.start := by
  intro before
  obtain ⟨lead, rest, split, leadLength⟩ := (isBoundary_iff _ _).1 firstBoundary
  obtain ⟨longer, after, longerSplit, longerLength⟩ := (isBoundary_iff _ _).1 secondBoundary
  have shorter : byteLength lead ≤ byteLength longer := by
    rw [leadLength, longerLength]
    exact Nat.le_of_lt before
  obtain ⟨extra, rfl⟩ := leads_of_byteLength_le (split.symm.trans longerSplit) shorter
  have firstLead : takeBytes text first.start = lead := by
    rw [split, ← leadLength]
    exact takeBytes_append lead rest
  have secondLead : takeBytes text second.start = lead ++ extra := by
    rw [longerSplit, ← longerLength]
    exact takeBytes_append (lead ++ extra) after
  cases extra with
  | nil =>
      rw [List.append_nil, leadLength] at longerLength
      omega
  | cons c more =>
      -- Any character but `c` tells the two replacements apart.
      obtain ⟨other, different⟩ : ∃ other, other ≠ c := by
        by_cases same : c = 'a'
        · exact ⟨'b', by rw [same]; decide⟩
        · exact ⟨'a', fun equal => same equal.symm⟩
      have replaced := agree [other]
      rw [splice, splice, firstLead, secondLead, List.append_assoc, List.append_assoc,
        List.append_assoc, List.append_cancel_left_eq] at replaced
      exact different (List.cons.inj replaced).1

/-- Two replacements that give the same text whatever is put in replace the same
bytes. -/
theorem eq_of_splice_eq {text : Text} {first second : Span}
    (firstStart : isBoundary text first.start = true)
    (firstStop : isBoundary text first.stop = true)
    (secondStart : isBoundary text second.start = true)
    (secondStop : isBoundary text second.stop = true)
    (agree : ∀ inserted, splice text first inserted = splice text second inserted) :
    first = second := by
  have notBefore := start_not_lt_of_splice_eq firstStart secondStart agree
  have notAfter := start_not_lt_of_splice_eq secondStart firstStart
    fun inserted => (agree inserted).symm
  have start : first.start = second.start := by omega
  have deleted := agree []
  rw [splice, splice, start, List.append_cancel_left_eq] at deleted
  have lengthAfter {offset : Nat} (atBoundary : isBoundary text offset = true) :
      offset + byteLength (dropBytes text offset) = byteLength text := by
    have whole := congrArg byteLength (takeBytes_append_dropBytes text offset)
    rwa [byteLength_append, byteLength_takeBytes atBoundary] at whole
  have firstLength := lengthAfter firstStop
  have secondLength := lengthAfter secondStop
  have stop : first.stop = second.stop := by
    rw [deleted] at firstLength
    omega
  exact Span.ext_of_eq start stop

/-- What a deletion takes away is the text of its span. -/
theorem exists_rest_iff {text : Text} {span : Span} (admissible : span.Admissible text)
    (content : Text) :
    (∃ rest, text = takeBytes text span.start ++ content ++ rest ∧
        splice text span [] = takeBytes text span.start ++ rest) ↔
      content = slice text span := by
  obtain ⟨before, inside, after, rfl, rfl⟩ := exists_parts_of_admissible admissible
  have lead : takeBytes (before ++ inside ++ after) (byteLength before) = before := by
    rw [List.append_assoc]
    exact takeBytes_append before (inside ++ after)
  rw [splice_append, slice_append, lead, List.append_nil]
  constructor
  · rintro ⟨rest, whole, remaining⟩
    rw [List.append_cancel_left_eq] at remaining
    rw [remaining, List.append_cancel_right_eq, List.append_cancel_left_eq] at whole
    exact whole.symm
  · rintro rfl
    exact ⟨after, rfl, rfl⟩

end Text

theorem Batch.compose_singleton {table : LineTable} {text : Text} (edit : Edit)
    (stopBoundary : isBoundary text (table.offsetAt text edit.range.ordered.stop) = true) :
    compose table text [edit] =
      .ok (text.splice (table.spanOf text edit.range.ordered) edit.text) := by
  have alone : inReadingOrder [edit] = [edit.ordered] := List.mergeSort_singleton _
  have kept := slice_byteLength stopBoundary
  rw [compose, replacements, alone, List.map_singleton, pieces, if_neg (Nat.not_lt_zero _)]
  simp only [pieces, Except.map, List.flatMap_cons, List.flatMap_nil, Piece.render,
    List.append_nil]
  rw [slice_zero, LineTable.spanOf, splice]
  simp only [Edit.ordered, LineTable.spanOf, kept, List.append_assoc]

namespace Document

/-- Whether the line of `position` is in the text or, taken as a column of the last line,
the position still resolves to the end of the text. -/
def IsWithinReach (document : Document) (position : Position) : Prop :=
  position.line < document.lineCount ∨ document.offsetAt position = document.byteLength

theorem IsFresh.target_eq_iff {document : Document} (fresh : document.IsFresh)
    (range : Range) :
    document.buffer.target range = document.table.spanOf document.text range.ordered ↔
      document.IsWithinReach range.start ∧ document.IsWithinReach range.stop := by
  rw [← range.ordered_ends_iff document.IsWithinReach]
  simp only [IsWithinReach, lineCount, offsetAt, byteLength, fresh.buffer_eq,
    fresh.table_eq, ← LineTable.offsetAt_clamp_eq_iff]
  change Span.mk _ _ = Span.mk _ _ ↔ _
  rw [Span.mk.injEq]
  rfl

/-- Both ends of a range resolve to boundaries, clamped or not. -/
theorem IsFresh.isBoundary_spanOf {document : Document} (fresh : document.IsFresh)
    (range : Range) :
    isBoundary document.text (document.table.spanOf document.text range).start = true ∧
      isBoundary document.text (document.table.spanOf document.text range).stop = true := by
  rw [fresh.table_eq]
  exact ⟨LineTable.isBoundary_offsetAt _ _ _, LineTable.isBoundary_offsetAt _ _ _⟩

theorem IsFresh.composed_singleton {document : Document} (fresh : document.IsFresh)
    (range : Range) (inserted : Text) :
    document.composed [⟨range, inserted⟩] =
      .ok (document.text.splice (document.table.spanOf document.text range.ordered)
        inserted) :=
  Batch.compose_singleton ⟨range, inserted⟩ (fresh.isBoundary_spanOf range.ordered).2

/-- A batch of one edit is never refused. It gives the text that the change gives,
whatever is put in, exactly if both ends of the range are within reach. -/
theorem Reachable.composed_single {document : Document} (reachable : Reachable document)
    (range : Range) :
    (∀ inserted, ∃ composed, document.composed [⟨range, inserted⟩] = .ok composed) ∧
      ((∀ inserted, document.composed [⟨range, inserted⟩] =
          .ok (document.apply (.within range inserted)).text) ↔
        document.IsWithinReach range.start ∧ document.IsWithinReach range.stop) := by
  have fresh := reachable.isFresh
  refine ⟨fun inserted => ⟨_, fresh.composed_singleton range inserted⟩, ?_⟩
  rw [← fresh.target_eq_iff]
  constructor
  · intro agree
    have boundaries := fresh.isBoundary_spanOf range.ordered
    have admissible := fresh.admissible_target range
    refine eq_of_splice_eq admissible.2.1 admissible.2.2 boundaries.1 boundaries.2 ?_
    intro inserted
    have same := agree inserted
    rw [fresh.composed_singleton, Except.ok.injEq, fresh.text_apply_within] at same
    exact same.symm
  · intro sameSpan inserted
    rw [fresh.composed_singleton, fresh.text_apply_within, sameSpan]

/-- A range that comes the wrong way round, from a line past the last one to the middle
of a character. Its end is within reach, since its column is past the end of the last
line. -/
theorem composed_single_within_reach :
    let document := ofText ⟨.utf16, .strict⟩ 1 ['a', '😀', '\n', 'b']
    let range : Range := ⟨⟨7, 9⟩, ⟨0, 2⟩⟩
    Reachable document ∧
      (document.IsWithinReach range.start ∧ document.IsWithinReach range.stop) ∧
      ∀ inserted, document.composed [⟨range, inserted⟩] =
        .ok (document.apply (.within range inserted)).text := by
  intro document range
  have reachable : Reachable document := .opened _ _ _
  have reach : document.IsWithinReach range.start ∧ document.IsWithinReach range.stop :=
    ⟨Or.inr (by decide +kernel), Or.inl (by decide +kernel)⟩
  exact ⟨reachable, reach, (reachable.composed_single range).2.2 reach⟩

/-- A range that ends at the start of the line after the last one. The batch keeps the
last line, the change replaces it. -/
theorem composed_single_differs_past_the_end :
    let document := ofText ⟨.utf16, .strict⟩ 1 ['a', 'b', '\n', 'c', 'd']
    let whole : Range := ⟨⟨0, 0⟩, ⟨2, 0⟩⟩
    Reachable document ∧
      document.composed [⟨whole, ['X']⟩] = .ok ['X', 'c', 'd'] ∧
      (document.apply (.within whole ['X'])).text = ['X'] ∧
      document.composed [⟨whole, ['X']⟩] ≠
        .ok (document.apply (.within whole ['X'])).text := by
  intro document whole
  have reachable : Reachable document := .opened _ _ _
  have composed : document.composed [⟨whole, ['X']⟩] = .ok ['X', 'c', 'd'] := by
    rw [reachable.isFresh.composed_singleton]
    decide +kernel
  have changed : (document.apply (.within whole ['X'])).text = ['X'] := by decide +kernel
  refine ⟨reachable, composed, changed, ?_⟩
  rw [composed, changed]
  decide

/-! ## Reading and deleting -/

/-- A range whose end is on a line of the text resolves in order. -/
theorem IsFresh.offsetAt_ordered_le {document : Document} (fresh : document.IsFresh)
    {range : Range} (inside : range.ordered.stop.line < document.lineCount) :
    document.offsetAt range.ordered.start ≤ document.offsetAt range.ordered.stop := by
  rw [fresh.lt_lineCount_iff] at inside
  rw [offsetAt, offsetAt, fresh.table_eq]
  exact LineTable.offsetAt_mono _ range.ordered_start_le_stop inside

/-- A range past the last line becomes the empty one at the end of the text. -/
theorem IsFresh.target_past {document : Document} (fresh : document.IsFresh) {range : Range}
    (past : document.lineCount ≤ range.ordered.start.line) :
    document.buffer.target range = ⟨document.byteLength, document.byteLength⟩ := by
  rw [← Nat.not_lt, fresh.lt_lineCount_iff, Nat.not_le] at past
  have lines := range.ordered_start_le_stop
  rw [Position.le_iff] at lines
  have stopPast : document.text.count '\n' < range.ordered.stop.line := by omega
  rw [fresh.buffer_eq]
  exact Span.ext_of_eq (LineTable.offsetAt_clamp_past _ past)
    (LineTable.offsetAt_clamp_past _ stopPast)

/-- What is read of a range that resolves in order is what a deletion takes away exactly
if both ends are within reach, or both are past the last line and nothing is between
them. -/
theorem IsFresh.slice_eq_iff {document : Document} (fresh : document.IsFresh) {range : Range}
    (inOrder : document.offsetAt range.ordered.start ≤ document.offsetAt range.ordered.stop) :
    document.text.slice (document.table.spanOf document.text range.ordered) =
        document.text.slice (document.buffer.target range) ↔
      document.IsWithinReach range.start ∧ document.IsWithinReach range.stop ∨
        document.lineCount ≤ range.ordered.start.line ∧
          document.offsetAt range.ordered.start = document.offsetAt range.ordered.stop := by
  have admissible := fresh.admissible_target range
  have sentAdmissible : (document.table.spanOf document.text range.ordered).Admissible
      document.text := ⟨inOrder, fresh.isBoundary_spanOf range.ordered⟩
  rw [← fresh.target_eq_iff]
  rcases Nat.lt_or_ge range.ordered.start.line document.lineCount with inside | past
  · have sameStart := fresh.target_start_eq inside
    rw [or_iff_left fun both => Nat.not_le.2 inside both.1]
    constructor
    · intro same
      exact eq_of_slice_eq admissible sentAdmissible sameStart same.symm
    · intro same
      rw [same]
  · -- The change deletes nothing, so the question has to read nothing.
    have theEnd := fresh.target_past past
    have nothing : document.text.slice (document.buffer.target range) = [] :=
      (slice_eq_nil_iff admissible).2 (by rw [theEnd])
    rw [nothing, slice_eq_nil_iff sentAdmissible]
    constructor
    · intro same
      exact Or.inr ⟨past, same⟩
    · rintro (same | ⟨_, same⟩)
      · rw [← same, theEnd]
      · exact same

/-- A range that resolves in order is read, and if its end is on a line of the text it
does. The text read is what a deletion of the range takes away exactly if both ends are
within reach, or both are past the last line and nothing is between them. -/
theorem Reachable.read_delete {document : Document} (reachable : Reachable document)
    (range : Range) :
    let first := range.ordered.start
    let last := range.ordered.stop
    let before := takeBytes document.text
      (document.offsetAt (document.clampRange range).start)
    (last.line < document.lineCount → document.offsetAt first ≤ document.offsetAt last) ∧
      (document.offsetAt first ≤ document.offsetAt last →
        ∃ content, document.read? range = some content ∧
          ((∃ rest, document.text = before ++ content ++ rest ∧
              (document.apply (.within range [])).text = before ++ rest) ↔
            document.IsWithinReach first ∧ document.IsWithinReach last ∨
              document.lineCount ≤ first.line ∧
                document.offsetAt first = document.offsetAt last)) := by
  intro first last before
  have fresh := reachable.isFresh
  refine ⟨fresh.offsetAt_ordered_le, fun inOrder => ?_⟩
  have admissible : (document.table.spanOf document.text range.ordered).Admissible
      document.text := ⟨inOrder, fresh.isBoundary_spanOf range.ordered⟩
  refine ⟨_, if_pos admissible, ?_⟩
  rw [range.ordered_ends_iff document.IsWithinReach, ← fresh.slice_eq_iff inOrder,
    fresh.text_apply_within]
  exact exists_rest_iff (fresh.admissible_target range) _

/-- A range that comes the wrong way round, from past the end of the last line to the
middle of a character. -/
theorem read_delete_reversed :
    let document := ofText ⟨.utf16, .strict⟩ 1 ['a', '😀', '\n', 'b']
    let range : Range := ⟨⟨1, 5⟩, ⟨0, 2⟩⟩
    let before := takeBytes document.text
      (document.offsetAt (document.clampRange range).start)
    Reachable document ∧ range.ordered.stop.line < document.lineCount ∧
      document.offsetAt range.ordered.start ≤ document.offsetAt range.ordered.stop ∧
      ∃ content, document.read? range = some content ∧
        ∃ rest, document.text = before ++ content ++ rest ∧
          (document.apply (.within range [])).text = before ++ rest := by
  intro document range before
  have reachable : Reachable document := .opened _ _ _
  have inside : range.ordered.stop.line < document.lineCount := by decide +kernel
  obtain ⟨resolves, reads⟩ := reachable.read_delete range
  obtain ⟨content, read, agrees⟩ := reads (resolves inside)
  have reach : document.IsWithinReach range.ordered.start ∧
      document.IsWithinReach range.ordered.stop :=
    ⟨Or.inl (by decide +kernel), Or.inl inside⟩
  exact ⟨reachable, inside, resolves inside, content, read, agrees.2 (Or.inl reach)⟩

/-- A range that ends at the start of the line after the last one. The last line is not
read, and a deletion takes it away. -/
theorem read_delete_differ_past_the_end :
    let document := ofText ⟨.utf16, .strict⟩ 1 ['a', 'b', '\n', 'c', 'd']
    let whole : Range := ⟨⟨0, 0⟩, ⟨2, 0⟩⟩
    let before := takeBytes document.text
      (document.offsetAt (document.clampRange whole).start)
    Reachable document ∧ document.read? whole = some ['a', 'b', '\n'] ∧
      (document.apply (.within whole [])).text = [] ∧
      ¬ ∃ content rest, document.read? whole = some content ∧
        document.text = before ++ content ++ rest ∧
          (document.apply (.within whole [])).text = before ++ rest := by
  intro document whole before
  have read : document.read? whole = some ['a', 'b', '\n'] := by decide +kernel
  have deleted : (document.apply (.within whole [])).text = [] := by decide +kernel
  refine ⟨.opened _ _ _, read, deleted, ?_⟩
  rintro ⟨content, rest, readAgain, parts, remaining⟩
  rw [read, Option.some.injEq] at readAgain
  rw [deleted] at remaining
  obtain ⟨nothingBefore, nothingAfter⟩ := List.append_eq_nil_iff.1 remaining.symm
  rw [nothingBefore, nothingAfter, ← readAgain] at parts
  exact absurd parts (by decide)

end Document

end LiveDocument
