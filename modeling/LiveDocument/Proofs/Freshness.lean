import LiveDocument.Document.Request
import LiveDocument.Proofs.Mending
import LiveDocument.Proofs.Places

/-!
# Fresh documents

A document is fresh when the table at hand, if there is one, is the table of its
text. Every request leaves a fresh document fresh (`isFresh_respond`), so every
document that requests lead to is (`Reachable.isFresh`), and no change can take it
out of bounds, as long as the old text and the inserted one have a length of 32 bits
together (`Reachable.change_inBounds`).
-/

namespace LiveDocument

open Text

namespace Buffer

variable (unit : ColumnUnit) (text : Text)

theorem admissible_target (range : Range) : ((ofText unit text).target range).Admissible text :=
  LineTable.admissible_spanOf_clampRange unit text range

/-- A range that a client has taken from a span, in either direction, leads back to the
span. -/
theorem target_eq_of_ordered_eq {text : Text} {span : Span} (admissible : span.Admissible text)
    {range : Range}
    (taken : range.ordered =
      ((LineTable.ofText unit text).rangeOf text span).ordered) :
    (ofText unit text).target range = span := by
  have clamped := LineTable.clampRange_eq_of_ordered_eq (LineTable.ofText unit text) text taken
  rw [LineTable.clampRange_rangeOf unit admissible] at clamped
  have resolved := LineTable.spanOf_rangeOf unit admissible
  rw [← clamped] at resolved
  exact resolved

theorem replace_ofText (range : Range) (inserted : Text) :
    ((ofText unit text).replace range inserted).2 =
      ofText unit (text.splice ((ofText unit text).target range) inserted) := by
  have mended := LineTable.patch_ofText unit (admissible_target unit text range) inserted
  rw [replace, splice]
  exact congrArg (Buffer.mk _) mended

end Buffer

namespace Document

/-! ## Freshness -/

def IsFresh (document : Document) : Prop :=
  ∀ table, document.table? = some table →
    table = LineTable.ofText document.settings.unit document.text

theorem isFresh_ofText (settings : Settings) (version : Int) (text : Text) :
    (ofText settings version text).IsFresh := by
  intro table present
  cases present

namespace IsFresh

variable {document : Document} (fresh : document.IsFresh)

include fresh

theorem table_eq : document.table = LineTable.ofText document.settings.unit document.text := by
  rw [table]
  cases present : document.table? with
  | none => rfl
  | some table => exact fresh table present

theorem lt_lineCount_iff {line : Nat} :
    line < document.lineCount ↔ line ≤ document.text.count '\n' := by
  rw [lineCount, fresh.table_eq]
  exact LineTable.lt_lineCount_iff _

theorem buffer_eq : document.buffer = Buffer.ofText document.settings.unit document.text := by
  rw [buffer, fresh.table_eq]
  rfl

/-- A change starts where its range does, if that is on a line of the text. -/
theorem target_start_eq {range : Range}
    (inside : range.ordered.start.line < document.lineCount) :
    (document.buffer.target range).start = document.offsetAt range.ordered.start := by
  rw [fresh.lt_lineCount_iff] at inside
  rw [fresh.buffer_eq, offsetAt, fresh.table_eq]
  exact LineTable.offsetAt_clamp _ inside

/-- A change ends where the text does, if its range ends on a line past the last one. -/
theorem target_stop_eq {range : Range}
    (past : document.text.count '\n' < range.ordered.stop.line) :
    (document.buffer.target range).stop = document.text.byteLength := by
  rw [fresh.buffer_eq]
  exact LineTable.offsetAt_clamp_past _ past

theorem indexed : document.indexed.IsFresh := by
  intro table present
  cases present
  exact fresh.table_eq

/-- A change of a range keeps a table at hand, which is the table of the new text. -/
theorem apply_within (range : Range) (inserted : Text) :
    document.apply (.within range inserted) =
      { document with
        text := document.text.splice (document.buffer.target range) inserted
        table? := some (LineTable.ofText document.settings.unit
          (document.text.splice (document.buffer.target range) inserted)) } := by
  rw [apply, fresh.buffer_eq, Buffer.replace_ofText]
  rfl

theorem text_apply_within (range : Range) (inserted : Text) :
    (document.apply (.within range inserted)).text =
      document.text.splice (document.buffer.target range) inserted := by
  rw [fresh.apply_within]

theorem admissible_target (range : Range) :
    (document.buffer.target range).Admissible document.text := by
  rw [fresh.buffer_eq]
  exact Buffer.admissible_target _ _ range

theorem apply (change : Change) : (document.apply change).IsFresh := by
  cases change with
  | full text =>
      intro table present
      cases present
  | within range inserted =>
      rw [fresh.apply_within]
      intro table present
      cases present
      rfl

omit fresh in
theorem applyAll {document : Document} (fresh : document.IsFresh) (changes : List Change) :
    (document.applyAll changes).IsFresh := by
  induction changes generalizing document with
  | nil => exact fresh
  | cons change rest ih => exact ih (fresh.apply change)

theorem update {version : Int} {changes : List Change} {updated : Document}
    (accepted : document.update version changes = .ok updated) : updated.IsFresh := by
  rw [Document.update] at accepted
  split at accepted
  · cases accepted
    exact fresh.applyAll changes
  · cases accepted

/-- No request makes a table that is not the one of the text. -/
theorem respond (request : Request) : (document.respond request).2.IsFresh := by
  cases request with
  | update version changes =>
      rw [Document.respond]
      split
      · exact fresh.update ‹_›
      · exact fresh
  | apply change => exact fresh.apply change
  | read range? =>
      cases range? with
      | none => exact fresh
      | some range => exact fresh.indexed
  | version => exact fresh
  | text => exact fresh
  | settings => exact fresh
  | lineCount => exact fresh.indexed
  | offsetAt position => exact fresh.indexed
  | positionAt offset => exact fresh.indexed
  | clampRange range => exact fresh.indexed
  | compose edits => exact fresh.indexed
  | checkTable => exact fresh.indexed

end IsFresh

/-! ## Reachable documents -/

/-- The documents that requests lead to. A copy of a document is the same value, so
copies need no rule of their own. -/
inductive Reachable : Document → Prop
  | opened (settings : Settings) (version : Int) (text : Text) :
      Reachable (ofText settings version text)
  | responded {document : Document} (request : Request) :
      Reachable document → Reachable (document.respond request).2

theorem Reachable.isFresh {document : Document} (reachable : Reachable document) :
    document.IsFresh := by
  induction reachable with
  | opened settings version text => exact isFresh_ofText settings version text
  | responded request _ ih => exact ih.respond request

/-- A change of any range replaces whole characters of the text, and no index and no
difference that mends the table for it leaves its bounds. The sums stay below 2^32 exactly
if the text and the inserted one do together. Every line of the table is a span of whole
characters as well. -/
theorem Reachable.change_inBounds {document : Document} (reachable : Reachable document)
    (range : Range) (inserted : Text) :
    (document.buffer.target range).Admissible document.text ∧
      (document.buffer.target range).stop ≤ document.text.byteLength ∧
      document.table.ExchangeInBounds (document.buffer.target range) inserted ∧
      (document.table.PatchInBounds (document.buffer.target range) inserted ↔
        document.text.byteLength + inserted.byteLength < UInt32.size) ∧
      0 < document.table.lineCount ∧
      ∀ line, line < document.table.lineCount →
        (document.table.lineSpan line).Admissible document.text := by
  have admissible := Buffer.admissible_target document.settings.unit document.text range
  rw [reachable.isFresh.buffer_eq, reachable.isFresh.table_eq]
  refine ⟨admissible, Text.le_byteLength_of_isBoundary admissible.2.2,
    LineTable.exchangeInBounds_ofText _ admissible inserted,
    LineTable.patchInBounds_ofText_iff _ admissible inserted, ?_, fun line inside => ?_⟩
  · rw [LineTable.lineCount_ofText]
    exact Nat.succ_pos _
  · rw [LineTable.lineCount_ofText] at inside
    obtain ⟨before, content, after, cut⟩ := LineCut.exists_of_le (Nat.le_of_lt_succ inside)
    exact cut.admissible_lineSpan _

/-- The range from the middle of a character to a line past the last one, after a
change that came the wrong way round. -/
theorem change_inBounds_past_the_end :
    let opened := ofText ⟨.utf16, .strict⟩ 1 ['a', '😀', 'b', '\n', 'c']
    let document := (opened.respond (.apply (.within ⟨⟨1, 1⟩, ⟨0, 3⟩⟩ ['\n']))).2
    let target := document.buffer.target ⟨⟨0, 2⟩, ⟨7, 0⟩⟩
    Reachable document ∧ target = ⟨1, 6⟩ ∧
      target.Admissible document.text ∧ target.stop ≤ document.text.byteLength ∧
      document.table.PatchInBounds target ['x', '\n'] ∧ 0 < document.table.lineCount ∧
      ∀ line, line < document.table.lineCount →
        (document.table.lineSpan line).Admissible document.text := by
  intro opened document target
  have reachable : Reachable document := .responded _ (.opened _ _ _)
  obtain ⟨whole, within, _, fits, lines⟩ :=
    reachable.change_inBounds ⟨⟨0, 2⟩, ⟨7, 0⟩⟩ ['x', '\n']
  have short : document.text.byteLength + Text.byteLength ['x', '\n'] < UInt32.size := by
    decide +kernel
  exact ⟨reachable, by decide +kernel, whole, within, fits.2 short, lines⟩

/-- The longest text is exchanged for one byte. Before and after the change every text is
short enough, but the sum of the lengths is not. -/
theorem change_outOfBounds_longest_text :
    let document := ofText ⟨.utf16, .strict⟩ 0 (List.replicate 4294967295 'a')
    let range : Range := ⟨⟨0, 0⟩, ⟨1, 0⟩⟩
    let inserted : Text := ['b']
    Reachable document ∧ document.text.byteLength < UInt32.size ∧
      inserted.byteLength < UInt32.size ∧
      (document.apply (.within range inserted)).text = inserted ∧
      document.table.length + inserted.byteLength = UInt32.size ∧
      ¬ document.table.PatchInBounds (document.buffer.target range) inserted := by
  intro document range inserted
  have fresh : document.IsFresh := isFresh_ofText _ _ _
  have length : document.text.byteLength = 4294967295 := byteLength_replicate 4294967295 'a'
  have oneLine : document.text.count '\n' = 0 := List.count_replicate ..
  have fromStart : (document.buffer.target range).start = 0 := by
    rw [fresh.target_start_eq (fresh.lt_lineCount_iff.2 (Nat.zero_le _)), offsetAt,
      fresh.table_eq]
    exact LineTable.offsetAt_zero _ _
  have toEnd : (document.buffer.target range).stop = document.text.byteLength :=
    fresh.target_stop_eq (by rw [oneLine]; exact Nat.one_pos)
  have covered : document.buffer.target range = ⟨0, document.text.byteLength⟩ :=
    Span.ext_of_eq fromStart toEnd
  have sum : document.table.length + inserted.byteLength = UInt32.size :=
    congrArg (· + 1) length
  refine ⟨.opened _ _ _, ?_, by decide, ?_, sum, fun inBounds => ?_⟩
  · rw [length]
    decide
  · rw [fresh.text_apply_within, covered, splice_whole]
  · exact absurd sum (Nat.ne_of_lt inBounds.lengthSum)

end Document

end LiveDocument
