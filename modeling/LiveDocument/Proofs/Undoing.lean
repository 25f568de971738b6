import LiveDocument.Batch
import LiveDocument.Proofs.Freshness

/-!
# Changes taken back

A change is taken back by another one, which puts the old text in the place of the new
text and is stated by positions of the changed text. Taken back from the last to the
first, the changes of a run leave the document as it was before them
(`Reachable.takeBackAll_reversals`).
-/

namespace LiveDocument

open Text

namespace Document

/-- The bytes that a change replaces. -/
def targetOf (document : Document) : Change → Span
  | .full _ => ⟨0, document.byteLength⟩
  | .within range _ => document.buffer.target range

/-- What takes `change` back: the bytes that it puts in are replaced by the text that it
takes away. -/
def reversal (document : Document) (change : Change) : Batch.Replacement :=
  let target := document.targetOf change
  ⟨⟨target.start, target.start + change.text.byteLength⟩, document.text.slice target⟩

/-- The reversals of changes that are made one after the other, each in the document
that the one before it left. -/
def reversals : Document → List Change → List Batch.Replacement
  | _, [] => []
  | document, change :: rest =>
      document.reversal change :: reversals (document.apply change) rest

/-- The document after a replacement that is sent as a change of the range between the
positions of its bytes. -/
def takeBack (document : Document) (reversal : Batch.Replacement) : Document :=
  document.apply (.within
    ⟨document.positionAt reversal.span.start, document.positionAt reversal.span.stop⟩
    reversal.text)

/-- The document after all reversals, the last one first. -/
def takeBackAll (document : Document) (reversals : List Batch.Replacement) : Document :=
  reversals.foldr (fun reversal current => current.takeBack reversal) document

namespace IsFresh

variable {document : Document} (fresh : document.IsFresh)

include fresh

theorem admissible_targetOf (change : Change) :
    (document.targetOf change).Admissible document.text := by
  cases change with
  | full text => exact ⟨Nat.zero_le _, isBoundary_zero _, isBoundary_byteLength _⟩
  | within range text => exact fresh.admissible_target range

theorem text_apply (change : Change) :
    (document.apply change).text =
      document.text.splice (document.targetOf change) change.text := by
  cases change with
  | full text => exact (splice_whole document.text text).symm
  | within range text => exact fresh.text_apply_within range text

/-- The range between the positions of some bytes leads back to these bytes. -/
theorem text_takeBack {reversal : Batch.Replacement}
    (admissible : reversal.span.Admissible document.text) :
    (document.takeBack reversal).text = document.text.splice reversal.span reversal.text := by
  have target : document.buffer.target
      ⟨document.positionAt reversal.span.start, document.positionAt reversal.span.stop⟩ =
        reversal.span := by
    rw [positionAt, positionAt, fresh.buffer_eq, fresh.table_eq]
    exact Buffer.target_eq_of_ordered_eq _ admissible rfl
  rw [takeBack, fresh.text_apply_within, target]

/-- A reversal takes its change back wherever the change has led, whatever the document
is otherwise. -/
theorem text_takeBack_reversal {current : Document} (currentFresh : current.IsFresh)
    {change : Change} (changed : current.text = (document.apply change).text) :
    (current.takeBack (document.reversal change)).text = document.text := by
  obtain ⟨putAdmissible, restored⟩ :=
    splice_splice_slice (fresh.admissible_targetOf change) change.text
  rw [← fresh.text_apply, ← changed] at putAdmissible restored
  exact (currentFresh.text_takeBack putAdmissible).trans restored

end IsFresh

theorem takeBackAll_eq_applyAll (document : Document)
    (reversals : List Batch.Replacement) :
    ∃ changes, document.takeBackAll reversals = document.applyAll changes := by
  induction reversals with
  | nil => exact ⟨[], rfl⟩
  | cons first rest ih =>
      obtain ⟨changes, same⟩ := ih
      let last : Change := .within
        ⟨(document.takeBackAll rest).positionAt first.span.start,
          (document.takeBackAll rest).positionAt first.span.stop⟩ first.text
      refine ⟨changes ++ [last], ?_⟩
      rw [applyAll_append, ← same]
      rfl

theorem IsFresh.text_takeBackAll {document : Document} (fresh : document.IsFresh)
    (changes : List Change) :
    ((document.applyAll changes).takeBackAll (document.reversals changes)).text =
      document.text := by
  induction changes generalizing document with
  | nil => rfl
  | cons change rest ih =>
      have later := ih (fresh.apply change)
      obtain ⟨sent, same⟩ := takeBackAll_eq_applyAll ((document.apply change).applyAll rest)
        (reversals (document.apply change) rest)
      have laterFresh := ((fresh.apply change).applyAll rest).applyAll sent
      rw [← same] at laterFresh
      exact fresh.text_takeBack_reversal laterFresh later

/-- Every run of changes can be taken back, from the last change to the first, by changes
of ranges between positions of the document as it is then. The text and the line table
are then what they were before the run. -/
theorem Reachable.takeBackAll_reversals {document : Document}
    (reachable : Reachable document) (changes : List Change) :
    let undone := (document.applyAll changes).takeBackAll (document.reversals changes)
    undone.text = document.text ∧ undone.table = document.table ∧
      undone.version = document.version ∧ undone.settings = document.settings := by
  intro undone
  have fresh := reachable.isFresh
  have text : undone.text = document.text := fresh.text_takeBackAll changes
  obtain ⟨sent, same⟩ := takeBackAll_eq_applyAll (document.applyAll changes)
    (document.reversals changes)
  have whole : undone = document.applyAll (changes ++ sent) := by
    rw [applyAll_append]
    exact same
  have settings : undone.settings = document.settings := by
    rw [whole, settings_applyAll]
  have undoneFresh : undone.IsFresh := by
    rw [whole]
    exact fresh.applyAll _
  refine ⟨text, ?_, by rw [whole, version_applyAll], settings⟩
  rw [undoneFresh.table_eq, fresh.table_eq, settings, text]

/-- A deletion that came the wrong way round, from the middle of a character to the last
line, an insertion that opens a line, and a deletion to a line past the last one. -/
theorem takeBackAll_reversals_past_the_end :
    let opened := ofText ⟨.utf16, .strict⟩ 1 ['a', '😀', 'b', '\n', 'c']
    let document := (opened.respond .lineCount).2
    let changes : List Change :=
      [.within ⟨⟨1, 1⟩, ⟨0, 2⟩⟩ ['\n', 'é'], .within ⟨⟨0, 1⟩, ⟨0, 1⟩⟩ ['x', '\n'],
        .within ⟨⟨1, 0⟩, ⟨9, 9⟩⟩ []]
    Reachable document ∧
      (document.applyAll changes).text = ['a', 'x', '\n'] ∧
      document.reversals changes =
        [⟨⟨1, 4⟩, ['😀', 'b', '\n', 'c']⟩, ⟨⟨1, 3⟩, []⟩, ⟨⟨3, 3⟩, ['\n', 'é']⟩] ∧
      ((document.applyAll changes).takeBackAll (document.reversals changes)).text =
        ['a', '😀', 'b', '\n', 'c'] ∧
      ((document.applyAll changes).takeBackAll (document.reversals changes)).table =
        document.table := by
  intro opened document changes
  have reachable : Reachable document := .responded _ (.opened _ _ _)
  have undone := reachable.takeBackAll_reversals changes
  exact ⟨reachable, by decide +kernel, by decide +kernel, undone.1, undone.2.1⟩

end Document

end LiveDocument
