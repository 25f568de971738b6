import LiveDocument.Proofs.Refinement

/-!
# Ranges that cover a document

A change of a range mends the text and the table, a change of the whole text throws both
away. Where the range covers the document nothing tells the two apart afterwards
(`Reachable.apply_covering`), however far past the last line the range ends.
-/

namespace LiveDocument

open Text

namespace LineTable

/-- Whether `position` is at the end of the text or past it, as a client counts. -/
def ReachesEnd (table : LineTable) (text : Text) (position : Position) : Prop :=
  table.lineCount ≤ position.line ∨
    position.line = table.lastLine ∧ table.lineLength text position.line ≤ position.character

instance (table : LineTable) (text : Text) (position : Position) :
    Decidable (table.ReachesEnd text position) :=
  inferInstanceAs (Decidable (_ ∨ _ ∧ _))

variable (unit : ColumnUnit)

theorem offsetAt_clamp_of_reachesEnd {text : Text} {position : Position}
    (reaches : (ofText unit text).ReachesEnd text position) :
    (ofText unit text).offsetAt text ((ofText unit text).clamp text position) =
      byteLength text := by
  rw [ReachesEnd, lineCount_ofText, lastLine_ofText] at reaches
  rcases reaches with past | ⟨onLast, columnPast⟩
  · exact offsetAt_clamp_past unit past
  · have inside := Nat.le_of_eq onLast
    rw [offsetAt_clamp unit inside, offsetAt_of_lineLength_le unit inside columnPast]
    exact startOf_past unit (by omega)

end LineTable

namespace Document

/-- Whether `range` goes from the start of the document to its end, or past that. -/
def Covers (document : Document) (range : Range) : Prop :=
  range.ordered.start = ⟨0, 0⟩ ∧
    document.table.ReachesEnd document.text range.ordered.stop

instance (document : Document) (range : Range) : Decidable (document.Covers range) :=
  inferInstanceAs (Decidable (_ ∧ _))

namespace IsFresh

variable {document : Document} (fresh : document.IsFresh)

include fresh

theorem target_of_covers {range : Range} (covers : document.Covers range) :
    document.buffer.target range = ⟨0, document.text.byteLength⟩ := by
  obtain ⟨fromStart, toEnd⟩ := covers
  have onFirstLine : range.ordered.start.line < document.lineCount := by
    rw [fromStart, fresh.lt_lineCount_iff]
    exact Nat.zero_le _
  refine Span.ext_of_eq ?_ ?_
  · rw [fresh.target_start_eq onFirstLine, fromStart, offsetAt, fresh.table_eq]
    exact LineTable.offsetAt_zero _ _
  · rw [fresh.table_eq] at toEnd
    rw [fresh.buffer_eq]
    exact LineTable.offsetAt_clamp_of_reachesEnd _ toEnd

/-- Where the range covers the document, mending ends with the text that was sent and the
table of that text. -/
theorem apply_within_of_covers {range : Range} (covers : document.Covers range)
    (text : Text) :
    document.apply (.within range text) =
      { document with
        text := text
        table? := some (LineTable.ofText document.settings.unit text) } := by
  rw [fresh.apply_within, fresh.target_of_covers covers, splice_whole]

end IsFresh

/-- A change of a range that covers the document does what a change of the whole text does.
The version and the settings stay, and the text and the line table are those of the text
that was sent. From then on both documents, held as they may be and copied or changed in
any way, give the same replies, and they go on to be the same but for whether a table is at
hand. -/
theorem Reachable.apply_covering {document : Document} (reachable : Reachable document)
    {range : Range} (covers : document.Covers range) (text : Text) :
    let changed := document.apply (.within range text)
    let replaced := document.apply (.full text)
    (changed.version = replaced.version ∧ changed.settings = replaced.settings ∧
        changed.text = text ∧ replaced.text = text ∧
        changed.table = LineTable.ofText document.settings.unit text ∧
        replaced.table = LineTable.ofText document.settings.unit text) ∧
      ∀ access steps,
        let afterChange := Session.run respond [⟨access, changed⟩] steps
        let afterReplacement := Session.run respond [⟨access, replaced⟩] steps
        afterChange.1 = afterReplacement.1 ∧
          afterChange.2.map Copy.indexed = afterReplacement.2.map Copy.indexed := by
  intro changed replaced
  have fresh := reachable.isFresh
  have mended : changed = _ := fresh.apply_within_of_covers covers text
  have samePlain : changed.plain = replaced.plain := by
    rw [mended]
    rfl
  constructor
  · rw [mended]
    exact ⟨rfl, rfl, rfl, rfl, rfl, rfl⟩
  · intro access steps
    refine Session.run_congr (Session.isFresh_singleton (fresh.apply _) access)
      (Session.isFresh_singleton (fresh.apply _) access) ?_ steps
    rw [List.map_singleton, List.map_singleton, Copy.plain, samePlain]
    rfl

/-- A range that came the wrong way round and ends past the last line, after a change that
has left a table at hand. The document is then copied, read across its end and updated. -/
theorem apply_covering_past_the_end :
    let opened := ofText ⟨.utf16, .strict⟩ 1 ['a', '😀', '\n', 'b']
    let document := (opened.respond (.apply (.within ⟨⟨1, 1⟩, ⟨1, 1⟩⟩ ['\r', '\n']))).2
    let range : Range := ⟨⟨7, 3⟩, ⟨0, 0⟩⟩
    let text : Text := ['é', '\n', '\n', 'c']
    let changed := document.apply (.within range text)
    let replaced := document.apply (.full text)
    let steps : List Session.Step :=
      [.copy 0 .shared, .ask 0 (.read (some ⟨⟨2, 1⟩, ⟨9, 0⟩⟩)),
        .ask 1 (.update 2 [.within ⟨⟨0, 1⟩, ⟨1, 0⟩⟩ []]), .ask 0 .text, .ask 1 .text]
    Reachable document ∧ document.Covers range ∧
      document.buffer.target range = ⟨0, 9⟩ ∧
      changed.text = text ∧ changed.table = replaced.table ∧
      (Session.run respond [⟨.direct, changed⟩] steps).1 =
        (Session.run respond [⟨.direct, replaced⟩] steps).1 := by
  intro opened document range text changed replaced steps
  have reachable : Reachable document := .responded _ (.opened _ _ _)
  have covers : document.Covers range := by decide +kernel
  obtain ⟨⟨_, _, sameText, _, changedTable, replacedTable⟩, later⟩ :=
    reachable.apply_covering covers text
  refine ⟨reachable, covers, by decide +kernel, sameText, ?_, (later .direct steps).1⟩
  exact changedTable.trans replacedTable.symm

end Document

end LiveDocument
