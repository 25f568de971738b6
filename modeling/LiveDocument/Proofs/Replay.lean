import LiveDocument.Proofs.Batches
import LiveDocument.Proofs.Freshness

/-!
# A batch sent as changes

An edit that names places of a text names the same bytes after everything behind it
has been replaced. So the edits of an accepted batch can be sent one by one, the last
in reading order first, and lead to the text that the batch composes
(`update_reversed_batch`).
-/

namespace LiveDocument

open Text

/-- The change that makes an edit alone. -/
def Edit.toChange (edit : Edit) : Change := .within edit.range edit.text

namespace Batch

/-- The edits as they came, sorted by where they start. Edits with the same start keep
the order in which they came. -/
def sentInReadingOrder (edits : List Edit) : List Edit :=
  edits.mergeSort fun first second => first.range.ordered.start ≤ second.range.ordered.start

theorem perm_sentInReadingOrder (edits : List Edit) :
    (sentInReadingOrder edits).Perm edits :=
  List.mergeSort_perm _ _

def replacementOf (table : LineTable) (text : Text) (edit : Edit) : Replacement :=
  ⟨table.spanOf text edit.range.ordered, edit.text⟩

theorem map_ordered_sentInReadingOrder (edits : List Edit) :
    (sentInReadingOrder edits).map Edit.ordered = inReadingOrder edits := by
  refine List.map_mergeSort ?_
  intro first _ second _
  rfl

theorem replacements_eq_map_sent (table : LineTable) (text : Text) (edits : List Edit) :
    replacements table text edits =
      (sentInReadingOrder edits).map (replacementOf table text) := by
  rw [replacements, ← map_ordered_sentInReadingOrder, List.map_map]
  rfl

end Batch

namespace Document

/-- Whether `position` is the position of a character of the text or of its end. -/
def IsPlace (document : Document) (position : Position) : Prop :=
  ∃ offset, isBoundary document.text offset = true ∧ position = document.positionAt offset

/-- Whether both ends of the range of `edit` are places. -/
def IsPlaced (document : Document) (edit : Edit) : Prop :=
  document.IsPlace edit.range.start ∧ document.IsPlace edit.range.stop

namespace IsFresh

variable {document : Document} (fresh : document.IsFresh)

include fresh

/-- The bytes between the places that an edit names, and the edit's range as the range
of these bytes. -/
theorem replacementOf_of_isPlaced {edit : Edit} (placed : document.IsPlaced edit) :
    let table := LineTable.ofText document.settings.unit document.text
    let span := (Batch.replacementOf table document.text edit).span
    span.Admissible document.text ∧ table.rangeOf document.text span = edit.range.ordered := by
  intro table span
  obtain ⟨⟨first, firstBoundary, start⟩, last, lastBoundary, stop⟩ :=
    (edit.range.ordered_ends_iff document.IsPlace).2 placed
  rw [positionAt, fresh.table_eq] at start stop
  refine ⟨?_, LineTable.rangeOf_spanOf _ firstBoundary lastBoundary start stop⟩
  refine LineTable.admissible_spanOf _ edit.range.ordered_start_le_stop ?_
  rw [stop]
  exact LineTable.line_positionAt_le _ lastBoundary

theorem admissible_replacementsOf {edits : List Edit}
    (placed : ∀ edit, edit ∈ edits → document.IsPlaced edit) :
    ∀ replacement,
      replacement ∈ edits.map (Batch.replacementOf document.table document.text) →
        replacement.span.Admissible document.text := by
  intro replacement member
  obtain ⟨edit, editMember, rfl⟩ := List.mem_map.1 member
  rw [fresh.table_eq]
  exact (fresh.replacementOf_of_isPlaced (placed edit editMember)).1

end IsFresh

/-- An edit still names the bytes that it named at first when the text has changed
behind these bytes alone. -/
theorem IsFresh.text_apply_toChange {document current : Document}
    (fresh : document.IsFresh) (currentFresh : current.IsFresh)
    (sameSettings : current.settings = document.settings) {edit : Edit}
    (placed : document.IsPlaced edit) {tail : Text}
    (kept : current.text = takeBytes document.text
      (Batch.replacementOf document.table document.text edit).span.stop ++ tail) :
    (current.apply edit.toChange).text =
      current.text.splice (Batch.replacementOf document.table document.text edit).span
        edit.text := by
  obtain ⟨admissible, taken⟩ := fresh.replacementOf_of_isPlaced placed
  rw [← fresh.table_eq] at admissible
  have stillTaken := LineTable.rangeOf_takeBytes_append document.settings.unit admissible tail
  have stillAdmissible := admissible_takeBytes_append admissible tail
  rw [← kept] at stillTaken stillAdmissible
  have target : current.buffer.target edit.range =
      (Batch.replacementOf document.table document.text edit).span := by
    rw [currentFresh.buffer_eq, sameSettings]
    refine Buffer.target_eq_of_ordered_eq _ stillAdmissible ?_
    rw [stillTaken, fresh.table_eq, taken, Range.ordered_ordered]
  rw [Edit.toChange, currentFresh.apply_within, target]

/-- Sent from the last to the first, the changes for edits in sequence make the
replacements that the edits named in the text that they were made for. -/
theorem IsFresh.text_applyAll_reverse {document : Document} (fresh : document.IsFresh)
    {edits : List Edit} (placed : ∀ edit, edit ∈ edits → document.IsPlaced edit)
    (inSequence : Batch.InSequence
      (edits.map (Batch.replacementOf document.table document.text))) :
    (document.applyAll (edits.reverse.map Edit.toChange)).text =
      Batch.spliceAll document.text
        (edits.map (Batch.replacementOf document.table document.text)) := by
  induction edits with
  | nil => rfl
  | cons first rest ih =>
      have restPlaced : ∀ edit, edit ∈ rest → document.IsPlaced edit :=
        fun edit member => placed edit (List.mem_cons_of_mem _ member)
      have later := ih restPlaced (List.isChain_cons.1 inSequence).2
      -- The changes before this one are those of the edits behind it, which have left
      -- everything up to the end of its bytes as it was.
      obtain ⟨all, _, kept⟩ := Batch.pieces_of_inSequence inSequence
        (fresh.admissible_replacementsOf placed)
      rw [← later] at kept
      have changed := fresh.text_apply_toChange
        (fresh.applyAll (rest.reverse.map Edit.toChange))
        (settings_applyAll document _) (placed first List.mem_cons_self) kept
      rw [List.reverse_cons, List.map_append, applyAll_append]
      exact changed.trans (congrArg (fun text => Text.splice text _ first.text) later)

/-- Whatever a batch between places of the text composes, an update gives the same
text, if it carries the edits of the batch as changes in the reverse of their reading
order. The line table is then the one of that text. -/
theorem Reachable.update_reversed_batch {document : Document}
    (reachable : Reachable document) {edits : List Edit}
    (placed : ∀ edit, edit ∈ edits → document.IsPlaced edit)
    {composed : Text} (success : document.composed edits = .ok composed) {version : Int}
    (accepts : document.settings.policy.accepts document.version version = true) :
    ∃ updated,
      document.update version
          ((Batch.sentInReadingOrder edits).reverse.map Edit.toChange) = .ok updated ∧
        updated.text = composed ∧
        updated.table = LineTable.ofText document.settings.unit composed := by
  have fresh := reachable.isFresh
  have sentPlaced : ∀ edit, edit ∈ Batch.sentInReadingOrder edits → document.IsPlaced edit :=
    fun edit member => placed edit (List.mem_mergeSort.1 member)
  have admissible := fresh.admissible_replacementsOf sentPlaced
  rw [← Batch.replacements_eq_map_sent] at admissible
  have inSequence := (Batch.compose_eq_ok_iff admissible).1 ⟨composed, success⟩
  have meaning := Batch.compose_of_inSequence admissible inSequence
  rw [← Document.composed, success, Except.ok.injEq] at meaning
  rw [Batch.replacements_eq_map_sent] at meaning inSequence
  have text := fresh.text_applyAll_reverse sentPlaced inSequence
  rw [← meaning] at text
  have updatedFresh := fresh.applyAll
    ((Batch.sentInReadingOrder edits).reverse.map Edit.toChange)
  refine ⟨_, update_of_accepts accepts _, text, ?_⟩
  have table := updatedFresh.table_eq
  rw [text, settings_applyAll] at table
  exact table

/-- An insertion at the start of a replaced range that takes a line feed with it, and an
edit of the next line with its ends the wrong way round. -/
theorem update_reversed_batch_touching :
    let opened := ofText ⟨.utf16, .strict⟩ 1 ['a', '😀', 'b']
    let document := (opened.respond (.apply (.within ⟨⟨0, 4⟩, ⟨0, 4⟩⟩ ['\n', 'c']))).2
    let edits : List Edit :=
      [⟨⟨⟨1, 1⟩, ⟨1, 0⟩⟩, ['d', '\n']⟩, ⟨⟨⟨0, 1⟩, ⟨0, 1⟩⟩, ['y']⟩, ⟨⟨⟨0, 1⟩, ⟨1, 0⟩⟩, ['x']⟩]
    Reachable document ∧
      (∀ edit, edit ∈ edits → document.IsPlaced edit) ∧
      document.composed edits = .ok ['a', 'y', 'x', 'd', '\n'] ∧
      document.settings.policy.accepts document.version 2 = true ∧
      ∃ updated,
        document.update 2 ((Batch.sentInReadingOrder edits).reverse.map Edit.toChange) =
            .ok updated ∧
          updated.text = ['a', 'y', 'x', 'd', '\n'] ∧
          updated.table = LineTable.ofText .utf16 ['a', 'y', 'x', 'd', '\n'] := by
  intro opened document edits
  have reachable : Reachable document := .responded _ (.opened _ _ _)
  have middle : document.IsPlace ⟨0, 1⟩ := ⟨1, by decide +kernel, by decide +kernel⟩
  have nextLine : document.IsPlace ⟨1, 0⟩ := ⟨7, by decide +kernel, by decide +kernel⟩
  have theEnd : document.IsPlace ⟨1, 1⟩ := ⟨8, by decide +kernel, by decide +kernel⟩
  have placed : ∀ edit, edit ∈ edits → document.IsPlaced edit := by
    simp [edits, IsPlaced, middle, nextLine, theEnd]
  have sorted : Batch.inReadingOrder edits =
      [⟨⟨⟨0, 1⟩, ⟨0, 1⟩⟩, ['y']⟩, ⟨⟨⟨0, 1⟩, ⟨1, 0⟩⟩, ['x']⟩,
        ⟨⟨⟨1, 0⟩, ⟨1, 1⟩⟩, ['d', '\n']⟩] := by
    simp [edits, Batch.inReadingOrder, Edit.ordered, Range.ordered, Position.le_iff,
      List.mergeSort, List.MergeSort.Internal.splitInTwo]
  have success : document.composed edits = .ok ['a', 'y', 'x', 'd', '\n'] := by
    rw [composed, Batch.compose, Batch.replacements, sorted]
    decide +kernel
  have accepts : document.settings.policy.accepts document.version 2 = true := by
    decide +kernel
  exact ⟨reachable, placed, success, accepts,
    reachable.update_reversed_batch placed success accepts⟩

end Document

end LiveDocument
