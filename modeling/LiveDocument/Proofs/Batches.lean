import Mathlib.Data.List.Chain
import LiveDocument.Batch
import LiveDocument.Proofs.Places
import LiveDocument.Proofs.ReadingOrder

/-!
# The meaning of a batch

A batch whose replacements are in sequence gives the text with the replacements made
one after the other from the last to the first; any other batch is refused at the
first replacement that starts before the end of the one before it
(`compose_meaning`).
-/

namespace LiveDocument

open Text

namespace Batch

theorem perm_inReadingOrder (edits : List Edit) :
    (inReadingOrder edits).Perm (edits.map Edit.ordered) :=
  List.mergeSort_perm _ _

theorem pairwise_inReadingOrder (edits : List Edit) :
    (inReadingOrder edits).Pairwise fun first second =>
      first.range.start ≤ second.range.start :=
  Position.pairwise_mergeSort_position (fun edit : Edit => edit.range.start) _

/-- Edits with the same start keep the order in which they came. -/
theorem filter_inReadingOrder (edits : List Edit) (position : Position) :
    (inReadingOrder edits).filter (·.range.start = position) =
      (edits.map Edit.ordered).filter (·.range.start = position) :=
  Position.filter_mergeSort_position (fun edit : Edit => edit.range.start) _ position

def InSequence (replacements : List Replacement) : Prop :=
  replacements.IsChain fun first second => first.span.stop ≤ second.span.start

instance (replacements : List Replacement) : Decidable (InSequence replacements) :=
  inferInstanceAs (Decidable (List.IsChain _ _))

/-- The text with the replacements made one after the other from the last to the
first. -/
def spliceAll (text : Text) (replacements : List Replacement) : Text :=
  replacements.foldr (fun replacement current =>
    current.splice replacement.span replacement.text) text

theorem exists_first_overlap {replacements : List Replacement}
    (overlapping : ¬ InSequence replacements) :
    ∃ earlier first second later,
      replacements = earlier ++ first :: second :: later ∧
        InSequence (earlier ++ [first]) ∧ second.span.start < first.span.stop := by
  induction replacements with
  | nil => exact absurd List.IsChain.nil overlapping
  | cons head tail ih =>
      cases tail with
      | nil => exact absurd (List.IsChain.singleton head) overlapping
      | cons next rest =>
          by_cases apart : head.span.stop ≤ next.span.start
          · have tailOverlapping : ¬ InSequence (next :: rest) := fun inSequence =>
              overlapping (List.isChain_cons_cons.2 ⟨apart, inSequence⟩)
            obtain ⟨earlier, first, second, later, split, inSequence, overlap⟩ :=
              ih tailOverlapping
            have headed : (earlier ++ [first]).head? = some next := by
              have heads := congrArg List.head? split
              cases earlier <;> exact heads.symm
            refine ⟨head :: earlier, first, second, later, by rw [split]; rfl, ?_, overlap⟩
            refine List.isChain_cons.2 ⟨fun following atHead => ?_, inSequence⟩
            obtain rfl := Option.some.inj (headed.symm.trans atHead)
            exact apart
          · exact ⟨[], head, next, rest, rfl, List.IsChain.singleton head,
              Nat.lt_of_not_le apart⟩

/-- From the end of one replacement on, the pieces of replacements in sequence are
what making the replacements leaves behind that place. -/
theorem pieces_of_inSequence {text : Text} {previous : Replacement}
    {replacements : List Replacement}
    (inSequence : InSequence (previous :: replacements))
    (admissible : ∀ replacement, replacement ∈ previous :: replacements →
      replacement.span.Admissible text) :
    ∃ all, pieces text.byteLength previous.span.stop replacements = .ok all ∧
      spliceAll text replacements =
        takeBytes text previous.span.stop ++ all.flatMap (Piece.render text) := by
  induction replacements generalizing previous with
  | nil =>
      have previousStop := (admissible previous List.mem_cons_self).2.2
      refine ⟨_, rfl, ?_⟩
      rw [List.flatMap_cons, List.flatMap_nil, List.append_nil, Piece.render,
        slice_byteLength previousStop]
      exact (takeBytes_append_dropBytes text _).symm
  | cons replacement later ih =>
      obtain ⟨behind, laterInSequence⟩ := List.isChain_cons_cons.1 inSequence
      obtain ⟨all, composed, spliced⟩ := ih laterInSequence
        fun other member => admissible other (List.mem_cons_of_mem _ member)
      have here := admissible replacement (List.mem_cons_of_mem _ List.mem_cons_self)
      have kept : Span.Admissible ⟨previous.span.stop, replacement.span.start⟩ text :=
        ⟨behind, (admissible previous List.mem_cons_self).2.2, here.2.1⟩
      refine ⟨_, by rw [pieces, if_neg (Nat.not_lt.2 behind), composed]; rfl, ?_⟩
      calc spliceAll text (replacement :: later)
          = splice (takeBytes text replacement.span.stop ++ all.flatMap (Piece.render text))
              replacement.span replacement.text := by rw [← spliced]; rfl
        _ = takeBytes text replacement.span.start ++ replacement.text ++
              all.flatMap (Piece.render text) := splice_takeBytes_append here _ _
        _ = takeBytes text previous.span.stop ++
              slice text ⟨previous.span.stop, replacement.span.start⟩ ++ replacement.text ++
              all.flatMap (Piece.render text) := by rw [takeBytes_append_slice kept]
        _ = _ := by simp only [List.flatMap_cons, Piece.render, List.append_assoc]

/-- A replacement that is in sequence with the later ones still covers whole
characters when these have been made. -/
theorem admissible_spliceAll {text : Text} {replacements : List Replacement}
    (inSequence : InSequence replacements)
    (admissible : ∀ replacement, replacement ∈ replacements →
      replacement.span.Admissible text)
    {earlier later : List Replacement} {replacement : Replacement}
    (split : replacements = earlier ++ replacement :: later) :
    replacement.span.Admissible (spliceAll text later) := by
  subst split
  have rest : InSequence (replacement :: later) :=
    List.IsChain.suffix inSequence (List.suffix_append earlier _)
  obtain ⟨all, _, spliced⟩ := pieces_of_inSequence rest
    fun other member => admissible other (List.mem_append_right earlier member)
  rw [spliced]
  refine admissible_takeBytes_append (admissible replacement ?_) _
  exact List.mem_append_right earlier List.mem_cons_self

/-- The first replacement that starts before the end of the one before it is the one
that is refused. -/
theorem pieces_of_first_overlap (length : Nat) {previous first second : Replacement}
    {earlier : List Replacement} (later : List Replacement)
    (inSequence : InSequence (previous :: (earlier ++ [first])))
    (overlap : second.span.start < first.span.stop) :
    pieces length previous.span.stop (earlier ++ first :: second :: later) =
      .error (.overlappingEdit second.span.start first.span.stop) := by
  induction earlier generalizing previous with
  | nil =>
      have behind := (List.isChain_cons_cons.1 inSequence).1
      rw [List.nil_append, pieces, if_neg (Nat.not_lt.2 behind), pieces, if_pos overlap]
      rfl
  | cons replacement between ih =>
      obtain ⟨behind, rest⟩ := List.isChain_cons_cons.1 inSequence
      rw [List.cons_append, pieces, if_neg (Nat.not_lt.2 behind), ih rest]
      rfl

/-! ## Composing a batch -/

section Compose

variable {table : LineTable} {text : Text} {edits : List Edit}

/-- The scan of a batch starts as if nothing had been put in at the start of the
text. -/
theorem inSequence_origin {replacements : List Replacement}
    (inSequence : InSequence replacements) :
    InSequence (⟨⟨0, 0⟩, []⟩ :: replacements) :=
  List.isChain_cons.2 ⟨fun _ _ => Nat.zero_le _, inSequence⟩

theorem compose_of_inSequence
    (admissible : ∀ replacement, replacement ∈ replacements table text edits →
      replacement.span.Admissible text)
    (inSequence : InSequence (replacements table text edits)) :
    compose table text edits = .ok (spliceAll text (replacements table text edits)) := by
  have allAdmissible : ∀ replacement,
      replacement ∈ ⟨⟨0, 0⟩, []⟩ :: replacements table text edits →
        replacement.span.Admissible text := by
    intro replacement member
    rcases List.mem_cons.1 member with rfl | later
    · exact ⟨Nat.le_refl 0, isBoundary_zero text, isBoundary_zero text⟩
    · exact admissible replacement later
  obtain ⟨all, composed, spliced⟩ :=
    pieces_of_inSequence (inSequence_origin inSequence) allAdmissible
  rw [compose, composed, spliced, takeBytes_zero]
  rfl

theorem compose_of_not_inSequence
    (overlapping : ¬ InSequence (replacements table text edits)) :
    ∃ earlier first second later,
      replacements table text edits = earlier ++ first :: second :: later ∧
        InSequence (earlier ++ [first]) ∧ second.span.start < first.span.stop ∧
        compose table text edits =
          .error (.overlappingEdit second.span.start first.span.stop) := by
  obtain ⟨earlier, first, second, later, split, inSequence, overlap⟩ :=
    exists_first_overlap overlapping
  have error := pieces_of_first_overlap text.byteLength later (inSequence_origin inSequence)
    overlap
  refine ⟨earlier, first, second, later, split, inSequence, overlap, ?_⟩
  rw [compose, split]
  exact congrArg (Except.map _) error

/-- Whether a batch is accepted is decided by its spans alone. -/
theorem compose_eq_ok_iff
    (admissible : ∀ replacement, replacement ∈ replacements table text edits →
      replacement.span.Admissible text) :
    (∃ composed, compose table text edits = .ok composed) ↔
      InSequence (replacements table text edits) := by
  constructor
  · rintro ⟨composed, success⟩
    refine Classical.byContradiction fun overlapping => ?_
    obtain ⟨_, _, _, _, _, _, _, failure⟩ := compose_of_not_inSequence overlapping
    rw [success] at failure
    cases failure
  · intro inSequence
    exact ⟨_, compose_of_inSequence admissible inSequence⟩

end Compose

theorem admissible_replacements (unit : ColumnUnit) {text : Text} {edits : List Edit}
    (inside : ∀ edit, edit ∈ edits →
      edit.range.start.line < (LineTable.ofText unit text).lineCount ∧
        edit.range.stop.line < (LineTable.ofText unit text).lineCount) :
    ∀ replacement, replacement ∈ replacements (LineTable.ofText unit text) text edits →
      replacement.span.Admissible text := by
  intro replacement member
  obtain ⟨edit, editMember, rfl⟩ := List.mem_map.1 member
  obtain ⟨sent, sentMember, rfl⟩ :=
    List.mem_map.1 ((perm_inReadingOrder edits).mem_iff.1 editMember)
  have lines := (sent.range.ordered_ends_iff
    fun position => position.line < (LineTable.ofText unit text).lineCount).2
      (inside sent sentMember)
  rw [LineTable.lt_lineCount_iff, LineTable.lt_lineCount_iff] at lines
  exact LineTable.admissible_spanOf unit sent.range.ordered_start_le_stop lines.2

/-- The exact meaning of a batch whose lines are all in the text. Its edits are taken
in reading order, those with the same start in the order in which they came. -/
theorem compose_meaning (unit : ColumnUnit) (text : Text) (edits : List Edit)
    (inside : ∀ edit, edit ∈ edits →
      edit.range.start.line < (LineTable.ofText unit text).lineCount ∧
        edit.range.stop.line < (LineTable.ofText unit text).lineCount) :
    let table := LineTable.ofText unit text
    let sorted := inReadingOrder edits
    let spans := replacements table text edits
    (sorted.Perm (edits.map Edit.ordered) ∧
        (sorted.Pairwise fun first second => first.range.start ≤ second.range.start) ∧
        ∀ position, sorted.filter (·.range.start = position) =
          (edits.map Edit.ordered).filter (·.range.start = position)) ∧
      (∀ replacement, replacement ∈ spans → replacement.span.Admissible text) ∧
      ((∃ composed, compose table text edits = .ok composed) ↔ InSequence spans) ∧
      (InSequence spans →
        compose table text edits = .ok (spliceAll text spans) ∧
          ∀ earlier replacement later, spans = earlier ++ replacement :: later →
            replacement.span.Admissible (spliceAll text later)) ∧
      (¬ InSequence spans →
        ∃ earlier first second later,
          spans = earlier ++ first :: second :: later ∧ InSequence (earlier ++ [first]) ∧
            second.span.start < first.span.stop ∧
            compose table text edits =
              .error (.overlappingEdit second.span.start first.span.stop)) := by
  intro table sorted spans
  have admissible := admissible_replacements unit inside
  refine ⟨⟨perm_inReadingOrder edits, pairwise_inReadingOrder edits,
    filter_inReadingOrder edits⟩, admissible, compose_eq_ok_iff admissible, ?_,
    compose_of_not_inSequence⟩
  intro inSequence
  refine ⟨compose_of_inSequence admissible inSequence, ?_⟩
  intro earlier replacement later split
  exact admissible_spliceAll inSequence admissible split

/-- An insertion at the start of a replaced range, which reaches past the end of its
line, and an edit of the next line with its ends the wrong way round. -/
theorem compose_meaning_touching :
    let text : Text := ['a', '😀', 'b', '\n', 'c']
    let edits : List Edit :=
      [⟨⟨⟨1, 9⟩, ⟨1, 0⟩⟩, ['d']⟩, ⟨⟨⟨0, 1⟩, ⟨0, 1⟩⟩, ['y']⟩, ⟨⟨⟨0, 1⟩, ⟨0, 9⟩⟩, ['x']⟩,
        ⟨⟨⟨0, 0⟩, ⟨0, 0⟩⟩, ['z']⟩]
    let table := LineTable.ofText .utf16 text
    (∀ edit, edit ∈ edits →
        edit.range.start.line < table.lineCount ∧ edit.range.stop.line < table.lineCount) ∧
      InSequence (replacements table text edits) ∧
      compose table text edits = .ok ['z', 'a', 'y', 'x', 'd'] := by
  intro text edits table
  have inside : ∀ edit, edit ∈ edits →
      edit.range.start.line < table.lineCount ∧ edit.range.stop.line < table.lineCount := by
    decide
  have sorted : inReadingOrder edits =
      [⟨⟨⟨0, 0⟩, ⟨0, 0⟩⟩, ['z']⟩, ⟨⟨⟨0, 1⟩, ⟨0, 1⟩⟩, ['y']⟩, ⟨⟨⟨0, 1⟩, ⟨0, 9⟩⟩, ['x']⟩,
        ⟨⟨⟨1, 0⟩, ⟨1, 9⟩⟩, ['d']⟩] := by
    simp [edits, inReadingOrder, Edit.ordered, Range.ordered, Position.le_iff,
      List.mergeSort, List.MergeSort.Internal.splitInTwo]
  have spans : replacements table text edits =
      [⟨⟨0, 0⟩, ['z']⟩, ⟨⟨1, 1⟩, ['y']⟩, ⟨⟨1, 7⟩, ['x']⟩, ⟨⟨7, 8⟩, ['d']⟩] := by
    rw [replacements, sorted]
    decide +kernel
  have inSequence : InSequence (replacements table text edits) := by
    rw [spans]
    decide
  have spliced : spliceAll text (replacements table text edits) = ['z', 'a', 'y', 'x', 'd'] := by
    rw [spans]
    decide
  have meaning := compose_meaning .utf16 text edits inside
  refine ⟨inside, inSequence, ?_⟩
  rw [← spliced]
  exact (meaning.2.2.2.1 inSequence).1

end Batch

end LiveDocument
