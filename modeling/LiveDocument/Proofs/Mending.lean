import LiveDocument.LineTable.Patch
import LiveDocument.Proofs.Lines

/-!
# Mended tables

Mending the table of a text gives the table of the text after the replacement
(`patch_ofText`), and the indices and differences that mending uses are never out of
bounds (`exchangeInBounds_ofText`). Its sums have 32 bits exactly as long as the old text
and the inserted one together do (`patchInBounds_ofText_iff`). The short ways of mending
lead to where the long one leads (`patch_rebuilds`).
-/

namespace LiveDocument

open Text

namespace LineTable

variable (unit : ColumnUnit) (before inside after : Text)

private theorem lineStarts_parts :
    lineStarts (before ++ inside ++ after) true 0 =
      (#[0] ++ lineStarts before false 0) ++ lineStarts inside false (byteLength before) ++
        lineStarts after false (byteLength (before ++ inside)) := by
  rw [lineStarts_true, lineStarts_append, lineStarts_append, Nat.zero_add, Nat.zero_add]
  simp only [Array.append_assoc]

private theorem lineOf_start :
    (ofText unit (before ++ inside ++ after)).lineOf (byteLength before) =
      before.count '\n' := by
  rw [List.append_assoc]
  exact lineOf_append unit before (inside ++ after)

private theorem firstAffected_ofText :
    (ofText unit (before ++ inside ++ after)).firstAffected
        ⟨byteLength before, byteLength (before ++ inside)⟩ =
      (#[0] ++ lineStarts before false 0).size := by
  rw [firstAffected, lineOf_start, Array.size_append, size_lineStarts]
  exact Nat.add_comm _ 1

private theorem removedLines_ofText :
    (ofText unit (before ++ inside ++ after)).removedLines
        ⟨byteLength before, byteLength (before ++ inside)⟩ =
      (lineStarts inside false (byteLength before)).size := by
  rw [removedLines, lineOf_start, lineOf_append, List.count_append, size_lineStarts]
  exact Nat.add_sub_cancel_left _ _

/-- Both ways of exchanging starts put the new ones between those before and those
behind the replaced bytes. -/
private theorem exchangeStarts_ofText (added : Array Nat) :
    (ofText unit (before ++ inside ++ after)).exchangeStarts
        ⟨byteLength before, byteLength (before ++ inside)⟩ added =
      (#[0] ++ lineStarts before false 0) ++ added ++
        lineStarts after false (byteLength (before ++ inside)) := by
  rw [exchangeStarts, firstAffected_ofText, removedLines_ofText, ofText, lineStarts_parts]
  split
  · exact LineStarts.overwrite_append _ _ _ _ ‹_›
  · exact LineStarts.replace_append _ _ _ _

/-- The starts behind the replaced bytes move by the change in length. -/
private theorem moved_lineStarts (inserted : Text) :
    (lineStarts after false (byteLength (before ++ inside))).map
        (fun start => start + byteLength inserted - byteLength inside) =
      lineStarts after false (byteLength (before ++ inserted)) := by
  rw [lineStarts_eq_map_add after false (byteLength (before ++ inside)),
    lineStarts_eq_map_add after false (byteLength (before ++ inserted)), Array.map_map]
  refine Array.map_congr_left fun start _ => ?_
  simp only [Function.comp_apply, byteLength_append]
  omega

private theorem patch_parts (inserted : Text) :
    (ofText unit (before ++ inside ++ after)).patch
        ⟨byteLength before, byteLength (before ++ inside)⟩ inserted =
      ofText unit (before ++ inserted ++ after) := by
  have replaced : Span.length ⟨byteLength before, byteLength (before ++ inside)⟩ =
      byteLength inside := by
    rw [Span.length, byteLength_append]
    exact Nat.add_sub_cancel_left _ _
  have newLength : byteLength (before ++ inside ++ after) + byteLength inserted -
      byteLength inside = byteLength (before ++ inserted ++ after) := by
    simp only [byteLength_append]
    omega
  rw [patch, exchangeStarts_ofText, firstAffected_ofText, replaced, ← Array.size_append,
    LineStarts.shift_append, moved_lineStarts]
  simp only [ofText, newLength, lineStarts_parts, mk.injEq, and_true]
  split
  · have stays : byteLength (before ++ inside) = byteLength (before ++ inserted) := by
      simp only [byteLength_append]
      omega
    rw [stays]
  · rfl

/-- The mended table is the table of the text after the replacement. -/
theorem patch_ofText {text : Text} {span : Span} (admissible : span.Admissible text)
    (inserted : Text) :
    (ofText unit text).patch span inserted = ofText unit (text.splice span inserted) := by
  obtain ⟨before, inside, after, rfl, rfl⟩ := exists_parts_of_admissible admissible
  rw [patch_parts, splice_append]

/-! ## The bounds of mending -/

/-- What the indices and differences of `patch` rely on. A difference of natural
numbers is a difference in the integers only where it does not fall below zero. -/
structure ExchangeInBounds (table : LineTable) (span : Span) (inserted : Text) : Prop where
  spanOrdered : span.start ≤ span.stop
  spanWithin : span.stop ≤ table.length
  linesOrdered : table.lineOf span.start ≤ table.lineOf span.stop
  /-- As many starts as are added can be written over. -/
  overwritten :
    (lineStarts inserted false span.start).size = table.removedLines span →
      table.firstAffected span + (lineStarts inserted false span.start).size ≤
        table.starts.size
  /-- The starts that go are some of those there are. -/
  removed :
    table.firstAffected span ≤ table.lineOf span.stop + 1 ∧
      table.lineOf span.stop + 1 ≤ table.starts.size
  /-- The starts to be moved are some of those there are. -/
  moved :
    table.firstAffected span + (lineStarts inserted false span.start).size ≤
      (table.exchangeStarts span (lineStarts inserted false span.start)).size
  movedStart :
    ∀ index start,
      table.firstAffected span + (lineStarts inserted false span.start).size ≤ index →
      (table.exchangeStarts span (lineStarts inserted false span.start))[index]? =
          some start →
      span.length ≤ start + byteLength inserted ∧ start ≤ table.length
  newLength : span.length ≤ table.length + byteLength inserted

/-- What `patch` relies on where offsets have 32 bits. A start that moves and the length
are raised by what is inserted before they are lowered by what goes, so the sums have to
fit as well as the results. -/
structure PatchInBounds (table : LineTable) (span : Span) (inserted : Text) : Prop
    extends ExchangeInBounds table span inserted where
  addedStart : ∀ start ∈ lineStarts inserted false span.start, start < UInt32.size
  movedSum :
    ∀ index start,
      table.firstAffected span + (lineStarts inserted false span.start).size ≤ index →
      (table.exchangeStarts span (lineStarts inserted false span.start))[index]? =
          some start →
      start + byteLength inserted < UInt32.size
  lengthSum : table.length + byteLength inserted < UInt32.size

private theorem exchangeInBounds_parts (inserted : Text) :
    (ofText unit (before ++ inside ++ after)).ExchangeInBounds
      ⟨byteLength before, byteLength (before ++ inside)⟩ inserted := by
  have size : (ofText unit (before ++ inside ++ after)).starts.size =
      before.count '\n' + inside.count '\n' + after.count '\n' + 1 := by
    have lines := lineCount_ofText unit (before ++ inside ++ after)
    rw [List.count_append, List.count_append] at lines
    exact lines
  have firstLine := lineOf_start unit before inside after
  have lastLine := lineOf_append unit (before ++ inside) after
  rw [List.count_append] at lastLine
  have beforeLength := byteLength_append before inside
  have wholeLength := byteLength_append (before ++ inside) after
  have added := size_lineStarts inserted (byteLength before)
  constructor
  case spanOrdered => exact Nat.le.intro beforeLength.symm
  case spanWithin => exact Nat.le.intro wholeLength.symm
  case linesOrdered =>
    rw [firstLine, lastLine]
    exact Nat.le_add_right _ _
  case overwritten =>
    intro sameNumber
    rw [sameNumber, firstAffected, removedLines, firstLine, lastLine, size]
    omega
  case removed =>
    rw [firstAffected, firstLine, lastLine, size]
    omega
  case moved =>
    rw [firstAffected_ofText, exchangeStarts_ofText]
    simp only [Array.size_append]
    exact Nat.le_add_right _ _
  case movedStart =>
    intro index start behind found
    rw [firstAffected_ofText, ← Array.size_append] at behind
    rw [exchangeStarts_ofText, Array.getElem?_append_right behind] at found
    have bounds := bounds_of_mem_lineStarts (Array.mem_of_getElem? found)
    rw [Span.length, ofText]
    simp only
    omega
  case newLength =>
    rw [Span.length, ofText]
    simp only
    omega

/-- No index and no difference of mending leaves its bounds, for any span that covers
whole characters. -/
theorem exchangeInBounds_ofText {text : Text} {span : Span}
    (admissible : span.Admissible text) (inserted : Text) :
    (ofText unit text).ExchangeInBounds span inserted := by
  obtain ⟨before, inside, after, rfl, rfl⟩ := exists_parts_of_admissible admissible
  exact exchangeInBounds_parts unit before inside after inserted

/-- The sums of mending have 32 bits exactly if the old text and the inserted one have
together. It is not enough that each of them has, and the new text. -/
theorem patchInBounds_ofText_iff {text : Text} {span : Span}
    (admissible : span.Admissible text) (inserted : Text) :
    (ofText unit text).PatchInBounds span inserted ↔
      byteLength text + byteLength inserted < UInt32.size := by
  refine ⟨fun inBounds => inBounds.lengthSum, fun short => ?_⟩
  have exchange := exchangeInBounds_ofText unit admissible inserted
  refine { exchange with addedStart := ?_, movedSum := ?_, lengthSum := short }
  · intro start member
    have startWithin : span.start ≤ byteLength text :=
      Nat.le_trans exchange.spanOrdered exchange.spanWithin
    have bound := (bounds_of_mem_lineStarts member).2
    omega
  · intro index start behind found
    have within : start ≤ byteLength text := (exchange.movedStart index start behind found).2
    exact Nat.lt_of_le_of_lt (Nat.add_le_add_right within _) short

/-- A word of 32 bits that wraps at the sum is the right one again after the difference. -/
private theorem toNat_add_sub_words {start inserted removed : Nat}
    (notBelow : removed ≤ start + inserted) (short : start + inserted - removed < UInt32.size) :
    (UInt32.ofNat start + UInt32.ofNat inserted - UInt32.ofNat removed).toNat =
      start + inserted - removed := by
  have split : start + inserted = (start + inserted - removed) + removed := by omega
  rw [← UInt32.ofNat_add, split, UInt32.ofNat_add, UInt32.add_sub_cancel,
    UInt32.toNat_ofNat_of_lt' short, Nat.add_sub_cancel]

namespace ExchangeInBounds

variable {table : LineTable} {span : Span} {inserted : Text}
  (inBounds : table.ExchangeInBounds span inserted)

include inBounds

/-- With wrapping words the new length needs no bound but its own. -/
theorem length_patch_words (short : (table.patch span inserted).length < UInt32.size) :
    (UInt32.ofNat table.length + UInt32.ofNat inserted.byteLength -
        UInt32.ofNat span.length).toNat = (table.patch span inserted).length :=
  toNat_add_sub_words inBounds.newLength short

/-- With wrapping words a start that moves needs no bound but its own. -/
theorem movedStart_words {index start : Nat}
    (behind :
      table.firstAffected span + (lineStarts inserted false span.start).size ≤ index)
    (found :
      (table.exchangeStarts span (lineStarts inserted false span.start))[index]? = some start)
    (short : start + inserted.byteLength - span.length < UInt32.size) :
    (UInt32.ofNat start + UInt32.ofNat inserted.byteLength -
        UInt32.ofNat span.length).toNat = start + inserted.byteLength - span.length :=
  toNat_add_sub_words (inBounds.movedStart index start behind found).1 short

/-! ## The short ways of mending -/

theorem exchangeStarts_eq_replace :
    table.exchangeStarts span (lineStarts inserted false span.start) =
      LineStarts.replace table.starts (table.firstAffected span) (table.removedLines span)
        (lineStarts inserted false span.start) := by
  rw [exchangeStarts]
  split
  · rename_i sameNumber
    rw [LineStarts.overwrite_eq_replace (inBounds.overwritten sameNumber), sameNumber]
  · rfl

/-- The starts after mending are always the exchanged ones, moved from the first one
behind the replaced bytes on. -/
theorem starts_patch :
    (table.patch span inserted).starts =
      LineStarts.shift
        (LineStarts.replace table.starts (table.firstAffected span)
          (table.removedLines span) (lineStarts inserted false span.start))
        (table.firstAffected span + (lineStarts inserted false span.start).size)
        inserted.byteLength span.length := by
  rw [← inBounds.exchangeStarts_eq_replace, patch]
  simp only
  split
  · rename_i sameLength
    rw [sameLength, LineStarts.shift_self]
  · rfl

end ExchangeInBounds

/-- Mending gives the table that is made anew, wherever between two characters the
replaced bytes start and end. The starts can always be had by exchanging entries and
moving those behind. Where as many lines come as go, writing over entries does the same,
and where the length stays nothing moves. -/
theorem patch_rebuilds (text : Text) {start stop : Nat} (inOrder : start ≤ stop)
    (startBoundary : isBoundary text start = true)
    (stopBoundary : isBoundary text stop = true) (inserted : Text) :
    let table := ofText unit text
    let span : Span := ⟨start, stop⟩
    let rebuilt := ofText unit (takeBytes text start ++ inserted ++ dropBytes text stop)
    let added := lineStarts inserted false start
    let first := table.firstAffected span
    let exchanged := LineStarts.replace table.starts first (table.removedLines span) added
    table.patch span inserted = rebuilt ∧
      rebuilt.starts =
        LineStarts.shift exchanged (first + added.size) inserted.byteLength span.length ∧
      (added.size = table.removedLines span →
        LineStarts.overwrite table.starts first added = exchanged) ∧
      (inserted.byteLength = span.length → rebuilt.starts = exchanged) := by
  intro table span rebuilt added first exchanged
  have admissible : span.Admissible text := ⟨inOrder, startBoundary, stopBoundary⟩
  have inBounds := exchangeInBounds_ofText unit admissible inserted
  have mended : table.patch span inserted = rebuilt := patch_ofText unit admissible inserted
  have starts : rebuilt.starts =
      LineStarts.shift exchanged (first + added.size) inserted.byteLength span.length := by
    rw [← mended]
    exact inBounds.starts_patch
  refine ⟨mended, starts, fun sameNumber => ?_, fun sameLength => ?_⟩
  · rw [LineStarts.overwrite_eq_replace (inBounds.overwritten sameNumber)]
    exact congrArg (LineStarts.replace table.starts first · added) sameNumber
  · rw [starts, sameLength, LineStarts.shift_self]

/-- One replacement for each way of mending: as many lines or not, as many bytes or
not. -/
theorem patch_rebuilds_each_way :
    let text : Text := ['a', '\n', '😀', '\r', '\n', 'b']
    let table := ofText .utf16 text
    let way (span : Span) (inserted : Text) : Bool × Bool :=
      ((lineStarts inserted false span.start).size = table.removedLines span,
        inserted.byteLength = span.length)
    way ⟨1, 6⟩ ['é', '\n', 'c', 'd'] = (true, true) ∧
      table.patch ⟨1, 6⟩ ['é', '\n', 'c', 'd'] =
        ofText .utf16 ['a', 'é', '\n', 'c', 'd', '\r', '\n', 'b'] ∧
      way ⟨0, 2⟩ ['\n'] = (true, false) ∧
      table.patch ⟨0, 2⟩ ['\n'] = ofText .utf16 ['\n', '😀', '\r', '\n', 'b'] ∧
      way ⟨7, 9⟩ ['c', 'd'] = (false, true) ∧
      table.patch ⟨7, 9⟩ ['c', 'd'] = ofText .utf16 ['a', '\n', '😀', '\r', 'c', 'd'] ∧
      way ⟨2, 2⟩ ['c', '\n', '\n'] = (false, false) ∧
      table.patch ⟨2, 2⟩ ['c', '\n', '\n'] =
        ofText .utf16 ['a', '\n', 'c', '\n', '\n', '😀', '\r', '\n', 'b'] := by
  intro text table way
  have boundaries : isBoundary text 0 = true ∧ isBoundary text 1 = true ∧
      isBoundary text 2 = true ∧ isBoundary text 6 = true ∧ isBoundary text 7 = true ∧
      isBoundary text 9 = true := by decide
  obtain ⟨atZero, atOne, atTwo, atSix, atSeven, atNine⟩ := boundaries
  exact ⟨by decide +kernel,
    (patch_rebuilds .utf16 text (by decide) atOne atSix ['é', '\n', 'c', 'd']).1,
    by decide +kernel, (patch_rebuilds .utf16 text (by decide) atZero atTwo ['\n']).1,
    by decide +kernel, (patch_rebuilds .utf16 text (by decide) atSeven atNine ['c', 'd']).1,
    by decide +kernel,
    (patch_rebuilds .utf16 text (by decide) atTwo atTwo ['c', '\n', '\n']).1⟩

end LineTable

end LiveDocument
