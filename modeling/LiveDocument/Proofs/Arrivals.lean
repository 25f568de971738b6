import Mathlib.Data.List.Pairwise
import LiveDocument.Proofs.Replay

/-!
# The order in which the edits of a batch arrive

Of the order in which edits arrive only that of edits with the same start matters
(`compose_of_sameTies`), whatever the edits are. Edits that have nothing in common can be
made in only one order of their bytes, so whenever a batch of them is accepted, it
composes the same text (`compose_apart`). It is accepted in every order of arrival that
leaves each insertion in front of the bytes at whose start it is, and refused in every
other.
-/

namespace LiveDocument

open Text

namespace Span

def IsEmpty (span : Span) : Prop := span.start = span.stop

instance (span : Span) : Decidable span.IsEmpty :=
  inferInstanceAs (Decidable (_ = _))

/-- Whether the spans have no byte in common, and are not both empty and at the same
place. -/
def Apart (first second : Span) : Prop :=
  (first.stop ≤ second.start ∨ second.stop ≤ first.start) ∧
    ¬ (first.IsEmpty ∧ second.IsEmpty ∧ first.start = second.start)

instance (first second : Span) : Decidable (first.Apart second) :=
  inferInstanceAs (Decidable (_ ∧ _))

theorem Apart.symm {first second : Span} (apart : first.Apart second) :
    second.Apart first :=
  ⟨apart.1.symm, fun ⟨secondEmpty, firstEmpty, same⟩ =>
    apart.2 ⟨firstEmpty, secondEmpty, same.symm⟩⟩

/-- Whether `insertion` is empty and at the start of the bytes of `replaced`. -/
def Opens (insertion replaced : Span) : Prop :=
  insertion.IsEmpty ∧ ¬ replaced.IsEmpty ∧ insertion.start = replaced.start

instance (insertion replaced : Span) : Decidable (insertion.Opens replaced) :=
  inferInstanceAs (Decidable (_ ∧ _ ∧ _))

/-- Spans that are apart come one behind the other, unless the second opens the
first. -/
theorem Apart.behind_or_opens {first second : Span} (apart : first.Apart second)
    (secondOrdered : second.start ≤ second.stop) (starts : first.start ≤ second.start) :
    first.stop ≤ second.start ∨ second.Opens first := by
  rcases apart with ⟨behind | before, distinct⟩
  · exact Or.inl behind
  · have secondEmpty : second.IsEmpty := by
      rw [IsEmpty]
      omega
    have sameStart : first.start = second.start := by omega
    exact Or.inr ⟨secondEmpty, fun firstEmpty => distinct ⟨firstEmpty, secondEmpty, sameStart⟩,
      sameStart.symm⟩

theorem not_behind_of_opens {first second : Span} (opens : second.Opens first)
    (firstOrdered : first.start ≤ first.stop) : ¬ first.stop ≤ second.start := by
  obtain ⟨_, nonempty, sameStart⟩ := opens
  rw [IsEmpty] at nonempty
  omega

end Span

namespace Batch

/-- Whether the replacements keep out of each other's bytes. -/
def AreApart (replacements : List Replacement) : Prop :=
  replacements.Pairwise fun first second => first.span.Apart second.span

instance (replacements : List Replacement) : Decidable (AreApart replacements) :=
  inferInstanceAs (Decidable (List.Pairwise _ _))

theorem AreApart.perm {first second : List Replacement} (apart : AreApart first)
    (perm : first.Perm second) : AreApart second :=
  perm.pairwise apart Span.Apart.symm

/-- The replacements sorted by where their bytes start, and those that put something in
at a place before those that replace bytes from that place on. -/
def inByteOrder (replacements : List Replacement) : List Replacement :=
  replacements.mergeSort fun first second =>
    first.span.start < second.span.start ∨
      first.span.start = second.span.start ∧ first.span.stop ≤ second.span.stop

theorem perm_inByteOrder (replacements : List Replacement) :
    (inByteOrder replacements).Perm replacements :=
  List.mergeSort_perm _ _

section InSequence

variable {replacements : List Replacement}
  (ordered : ∀ replacement, replacement ∈ replacements →
    replacement.span.start ≤ replacement.span.stop)

include ordered

theorem inSequence_iff_pairwise :
    InSequence replacements ↔
      replacements.Pairwise fun first second => first.span.stop ≤ second.span.start := by
  refine ⟨fun inSequence => ?_, List.Pairwise.isChain⟩
  induction replacements with
  | nil => exact List.Pairwise.nil
  | cons head tail ih =>
      have tailSequence : InSequence tail := (List.isChain_cons.1 inSequence).2
      have tailPairwise := ih
        (fun replacement member => ordered replacement (List.mem_cons_of_mem _ member))
        tailSequence
      refine List.pairwise_cons.2 ⟨fun replacement member => ?_, tailPairwise⟩
      cases tail with
      | nil => exact absurd member List.not_mem_nil
      | cons next rest =>
          have behind : head.span.stop ≤ next.span.start :=
            (List.isChain_cons_cons.1 inSequence).1
          rcases List.mem_cons.1 member with rfl | later
          · exact behind
          · have nextOrdered := ordered next (List.mem_cons_of_mem _ List.mem_cons_self)
            have further := (List.pairwise_cons.1 tailPairwise).1 replacement later
            omega

/-- Replacements that are apart have only one order in which they are in sequence. -/
theorem eq_of_inSequence {arranged : List Replacement} (apart : AreApart replacements)
    (perm : replacements.Perm arranged) (inSequence : InSequence replacements)
    (arrangedInSequence : InSequence arranged) : replacements = arranged := by
  have arrangedOrdered : ∀ replacement, replacement ∈ arranged →
      replacement.span.start ≤ replacement.span.stop :=
    fun replacement member => ordered replacement (perm.mem_iff.2 member)
  rw [inSequence_iff_pairwise ordered] at inSequence
  rw [inSequence_iff_pairwise arrangedOrdered] at arrangedInSequence
  refine List.Perm.eq_of_pairwise (fun first second firstMember secondMember behind before => ?_)
    inSequence arrangedInSequence perm
  refine Classical.byContradiction fun different => ?_
  have : Std.Symm fun first second : Replacement => first.span.Apart second.span :=
    ⟨fun _ _ => Span.Apart.symm⟩
  have separate := apart.forall firstMember (perm.mem_iff.2 secondMember) different
  have firstOrdered := ordered first firstMember
  have secondOrdered := arrangedOrdered second secondMember
  refine separate.2 ⟨?_, ?_, ?_⟩
  · rw [Span.IsEmpty]
    omega
  · rw [Span.IsEmpty]
    omega
  · omega

theorem inSequence_inByteOrder (apart : AreApart replacements) :
    InSequence (inByteOrder replacements) := by
  have perm := perm_inByteOrder replacements
  have sortedApart : AreApart (inByteOrder replacements) := apart.perm perm.symm
  have sorted : (inByteOrder replacements).Pairwise fun first second =>
      first.span.start < second.span.start ∨
        first.span.start = second.span.start ∧ first.span.stop ≤ second.span.stop := by
    refine (List.pairwise_mergeSort ?_ ?_ _).imp of_decide_eq_true
    · intro first second third firstSecond secondThird
      rw [decide_eq_true_eq] at *
      omega
    · intro first second
      rw [Bool.or_eq_true, decide_eq_true_eq, decide_eq_true_eq]
      omega
  refine (inSequence_iff_pairwise fun replacement member =>
    ordered replacement (perm.mem_iff.1 member)).2 ?_
  refine (sortedApart.and sorted).imp_of_mem ?_
  rintro first second firstMember secondMember ⟨separate, inOrder⟩
  have firstOrdered := ordered first (perm.mem_iff.1 firstMember)
  have secondOrdered := ordered second (perm.mem_iff.1 secondMember)
  have starts : first.span.start ≤ second.span.start := by omega
  refine (separate.behind_or_opens secondOrdered starts).resolve_right ?_
  rintro ⟨secondEmpty, firstNonempty, _⟩
  rw [Span.IsEmpty] at secondEmpty firstNonempty
  omega

theorem inByteOrder_eq_of_perm {others : List Replacement} (apart : AreApart replacements)
    (perm : replacements.Perm others) : inByteOrder replacements = inByteOrder others := by
  have sorted := perm_inByteOrder replacements
  have othersOrdered : ∀ replacement, replacement ∈ others →
      replacement.span.start ≤ replacement.span.stop :=
    fun replacement member => ordered replacement (perm.mem_iff.2 member)
  refine eq_of_inSequence (fun replacement member => ordered replacement (sorted.mem_iff.1 member))
    (apart.perm sorted.symm) ((sorted.trans perm).trans (perm_inByteOrder others).symm)
    (inSequence_inByteOrder ordered apart) ?_
  exact inSequence_inByteOrder othersOrdered (apart.perm perm)

end InSequence

/-! ## Edits with the same start -/

/-- The start of the range of an edit, which comes first in the text. -/
def startOf (edit : Edit) : Position := edit.range.ordered.start

/-- Whether the edits that start at a position come in the same order in both lists, for
every position. -/
def SameTies (first second : List Edit) : Prop :=
  ∀ place, first.filter (startOf · = place) = second.filter (startOf · = place)

theorem sentInReadingOrder_eq_iff {first second : List Edit} :
    sentInReadingOrder first = sentInReadingOrder second ↔ SameTies first second := by
  have kept (edits : List Edit) (place : Position) :
      (sentInReadingOrder edits).filter (startOf · = place) =
        edits.filter (startOf · = place) :=
    Position.filter_mergeSort_position startOf edits place
  constructor
  · intro same place
    rw [← kept first, same, kept second]
  · intro ties
    refine Position.eq_of_pairwise_of_filter_eq startOf
      (Position.pairwise_mergeSort_position startOf first)
      (Position.pairwise_mergeSort_position startOf second) fun place => ?_
    rw [kept first, kept second]
    exact ties place

theorem SameTies.perm {first second : List Edit} (ties : SameTies first second) :
    first.Perm second := by
  have sorted := perm_sentInReadingOrder first
  rw [sentInReadingOrder_eq_iff.2 ties] at sorted
  exact sorted.symm.trans (perm_sentInReadingOrder second)

/-- Only the order of edits with the same start matters to a batch, be the edits past the
end, overlapping or the wrong way round. Lists that agree on it hold the same edits, come
to the same reading order, and compose the same text or are refused for the same bytes. -/
theorem compose_of_sameTies (unit : ColumnUnit) (text : Text) {first second : List Edit}
    (ties : SameTies first second) :
    let table := LineTable.ofText unit text
    first.Perm second ∧
      replacements table text first = replacements table text second ∧
      compose table text first = compose table text second := by
  intro table
  have sameReplacements : replacements table text first = replacements table text second := by
    rw [replacements_eq_map_sent, replacements_eq_map_sent, sentInReadingOrder_eq_iff.2 ties]
  refine ⟨ties.perm, sameReplacements, ?_⟩
  rw [compose, compose, sameReplacements]

/-- Two insertions at the same position keep their order, and the third edit, which is past
the last line and ends before it starts, arrives in front of them or between them. -/
theorem compose_of_sameTies_past_the_end :
    let text : Text := ['a', 'b', '\n', 'c', 'd']
    let table := LineTable.ofText .utf16 text
    let insertion (c : Char) : Edit := ⟨⟨⟨0, 1⟩, ⟨0, 1⟩⟩, [c]⟩
    let past : Edit := ⟨⟨⟨8, 0⟩, ⟨7, 2⟩⟩, ['z']⟩
    let first : List Edit := [past, insertion 'x', insertion 'y']
    let second : List Edit := [insertion 'x', past, insertion 'y']
    SameTies first second ∧ first ≠ second ∧
      compose table text first = compose table text second ∧
      compose table text second =
        .ok ['a', 'x', 'y', 'b', '\n', 'c', 'd', 'z', 'c', 'd'] := by
  intro text table insertion past first second
  have starts : startOf past = ⟨7, 2⟩ ∧ ∀ c, startOf (insertion c) = ⟨0, 1⟩ :=
    ⟨by decide, fun _ => rfl⟩
  have ties : SameTies first second := by
    intro place
    simp only [first, second, List.filter_cons, List.filter_nil, starts.1, starts.2]
    by_cases atPast : (⟨7, 2⟩ : Position) = place
    · subst atPast
      rfl
    · simp [atPast]
  have sorted : inReadingOrder second =
      [insertion 'x', insertion 'y', ⟨⟨⟨7, 2⟩, ⟨8, 0⟩⟩, ['z']⟩] := by
    simp [second, insertion, past, inReadingOrder, Edit.ordered, Range.ordered,
      Position.le_iff, List.mergeSort, List.MergeSort.Internal.splitInTwo]
  refine ⟨ties, by decide, (compose_of_sameTies .utf16 text ties).2.2, ?_⟩
  rw [compose, replacements, sorted]
  decide +kernel

/-! ## Insertions and the bytes that they open -/

/-- Whether an insertion that opens the bytes of the other edit is the first of the two
in reading order, when `first` arrives before `second`. -/
def InsertionFirst (table : LineTable) (text : Text) (first second : Edit) : Prop :=
  let firstSpan := (replacementOf table text first).span
  let secondSpan := (replacementOf table text second).span
  (firstSpan.Opens secondSpan → startOf first ≤ startOf second) ∧
    (secondSpan.Opens firstSpan → startOf second < startOf first)

instance (table : LineTable) (text : Text) (first second : Edit) :
    Decidable (InsertionFirst table text first second) :=
  inferInstanceAs (Decidable (_ ∧ _))

/-- What `InsertionFirst` says of the places of two edits, whichever arrives first. -/
private def InsertionNotBehind (table : LineTable) (text : Text) (first second : Edit) :
    Prop :=
  let firstSpan := (replacementOf table text first).span
  let secondSpan := (replacementOf table text second).span
  (firstSpan.Opens secondSpan → startOf first ≤ startOf second) ∧
    (secondSpan.Opens firstSpan → startOf second ≤ startOf first)

private theorem InsertionNotBehind.symm {table : LineTable} {text : Text}
    {first second : Edit} (notBehind : InsertionNotBehind table text first second) :
    InsertionNotBehind table text second first :=
  ⟨notBehind.2, notBehind.1⟩

private theorem InsertionFirst.notBehind {table : LineTable} {text : Text}
    {first second : Edit} (insertionFirst : InsertionFirst table text first second) :
    InsertionNotBehind table text first second :=
  ⟨insertionFirst.1, fun opens => (Position.lt_iff_le_and_ne.1 (insertionFirst.2 opens)).1⟩

section Arrived

variable (unit : ColumnUnit) {text : Text} {edits : List Edit}
  (inside : ∀ edit, edit ∈ edits →
    edit.range.start.line < (LineTable.ofText unit text).lineCount ∧
      edit.range.stop.line < (LineTable.ofText unit text).lineCount)

include inside

theorem admissible_replacementOf {edit : Edit} (member : edit ∈ edits) :
    (replacementOf (LineTable.ofText unit text) text edit).span.Admissible text := by
  refine admissible_replacements unit inside _ ?_
  rw [replacements_eq_map_sent]
  exact List.mem_map_of_mem ((perm_sentInReadingOrder edits).mem_iff.2 member)

theorem start_replacementOf_le {first second : Edit} (member : second ∈ edits)
    (inOrder : startOf first ≤ startOf second) :
    (replacementOf (LineTable.ofText unit text) text first).span.start ≤
      (replacementOf (LineTable.ofText unit text) text second).span.start := by
  have lines := (second.range.ordered_ends_iff
    fun position => position.line < (LineTable.ofText unit text).lineCount).2
      (inside second member)
  rw [LineTable.lt_lineCount_iff] at lines
  exact LineTable.offsetAt_mono unit inOrder lines.1

/-- The replacements are in sequence when every edit ends before the next ones in
reading order start. -/
theorem inSequence_replacements_iff_pairwise :
    InSequence (replacements (LineTable.ofText unit text) text edits) ↔
      (sentInReadingOrder edits).Pairwise fun first second =>
        (replacementOf (LineTable.ofText unit text) text first).span.stop ≤
          (replacementOf (LineTable.ofText unit text) text second).span.start := by
  have admissible := admissible_replacements unit inside
  rw [inSequence_iff_pairwise fun replacement member => (admissible replacement member).1,
    replacements_eq_map_sent, List.pairwise_map]

theorem pairwise_insertionFirst_of_inSequence
    (inSequence : InSequence (replacements (LineTable.ofText unit text) text edits)) :
    edits.Pairwise (InsertionFirst (LineTable.ofText unit text) text) := by
  rw [inSequence_replacements_iff_pairwise unit inside] at inSequence
  have ordered {edit : Edit} (member : edit ∈ edits) :=
    (admissible_replacementOf unit inside member).1
  have notBehind : edits.Pairwise
      (InsertionNotBehind (LineTable.ofText unit text) text) := by
    have inOrder := Position.pairwise_mergeSort_position startOf edits
    refine (perm_sentInReadingOrder edits).pairwise ((inOrder.and inSequence).imp_of_mem ?_)
      InsertionNotBehind.symm
    intro first second firstMember _ both
    refine ⟨fun _ => both.1, fun opens => ?_⟩
    have firstOrdered := ordered ((perm_sentInReadingOrder edits).mem_iff.1 firstMember)
    exact absurd both.2 (Span.not_behind_of_opens opens firstOrdered)
  refine List.pairwise_of_forall_sublist fun {first second} came => ?_
  have places := List.pairwise_iff_forall_sublist.1 notBehind came
  refine ⟨places.1, fun opens => Position.not_le.1 fun inOrder => ?_⟩
  -- An insertion that came later and is not earlier in the text would be sorted behind.
  have sorted := Position.pair_sublist_mergeSort_position startOf inOrder came
  have behind := List.pairwise_iff_forall_sublist.1 inSequence sorted
  have firstOrdered := ordered (came.subset List.mem_cons_self)
  exact Span.not_behind_of_opens opens firstOrdered behind

theorem inSequence_of_pairwise_insertionFirst
    (apart : AreApart (edits.map (replacementOf (LineTable.ofText unit text) text)))
    (insertionFirst : edits.Pairwise (InsertionFirst (LineTable.ofText unit text) text)) :
    InSequence (replacements (LineTable.ofText unit text) text edits) := by
  rw [AreApart, List.pairwise_map] at apart
  rw [inSequence_replacements_iff_pairwise unit inside]
  have sortedApart := (perm_sentInReadingOrder edits).symm.pairwise apart Span.Apart.symm
  have notBehind := (perm_sentInReadingOrder edits).symm.pairwise
    (insertionFirst.imp InsertionFirst.notBehind) InsertionNotBehind.symm
  refine List.pairwise_of_forall_sublist fun {first second} sorted => ?_
  have places := List.pairwise_iff_forall_sublist.1
    (Position.pairwise_mergeSort_position startOf edits) sorted
  have separate := List.pairwise_iff_forall_sublist.1 sortedApart sorted
  have secondMember : second ∈ edits := (perm_sentInReadingOrder edits).mem_iff.1
    (sorted.subset (List.mem_cons_of_mem _ List.mem_cons_self))
  refine (separate.behind_or_opens (admissible_replacementOf unit inside secondMember).1
    (start_replacementOf_le unit inside secondMember places)).resolve_right fun opens => ?_
  -- The second edit opens the bytes of the first, so both start at the same position, and
  -- then they were sorted as they came.
  have notAfter := (List.pairwise_iff_forall_sublist.1 notBehind sorted).2 opens
  have samePlace := Position.le_antisymm places notAfter
  have came := Position.pair_sublist_of_mergeSort_position startOf samePlace sorted
  have before := (List.pairwise_iff_forall_sublist.1 insertionFirst came).2 opens
  exact Position.not_le.2 before places

theorem compose_of_pairwise_insertionFirst
    (apart : AreApart (edits.map (replacementOf (LineTable.ofText unit text) text)))
    (insertionFirst : edits.Pairwise (InsertionFirst (LineTable.ofText unit text) text)) :
    compose (LineTable.ofText unit text) text edits =
      .ok (spliceAll text
        (inByteOrder (edits.map (replacementOf (LineTable.ofText unit text) text)))) := by
  have admissible := admissible_replacements unit inside
  have inSequence := inSequence_of_pairwise_insertionFirst unit inside apart insertionFirst
  have perm : (replacements (LineTable.ofText unit text) text edits).Perm
      (edits.map (replacementOf (LineTable.ofText unit text) text)) := by
    rw [replacements_eq_map_sent]
    exact (perm_sentInReadingOrder edits).map _
  have spansOrdered := fun replacement member =>
    (admissible replacement (perm.mem_iff.2 member)).1
  rw [compose_of_inSequence admissible inSequence]
  refine congrArg (fun spans => Except.ok (spliceAll text spans)) ?_
  exact eq_of_inSequence (fun replacement member => (admissible replacement member).1)
    (apart.perm perm.symm) (perm.trans (perm_inByteOrder _).symm) inSequence
    (inSequence_inByteOrder spansOrdered apart)

theorem compose_of_not_pairwise_insertionFirst
    (insertionBehind :
      ¬ edits.Pairwise (InsertionFirst (LineTable.ofText unit text) text)) :
    ∃ start consumed, start < consumed ∧
      compose (LineTable.ofText unit text) text edits =
        .error (.overlappingEdit start consumed) := by
  have overlapping := fun inSequence =>
    insertionBehind (pairwise_insertionFirst_of_inSequence unit inside inSequence)
  obtain ⟨_, first, second, _, _, _, overlap, error⟩ := compose_of_not_inSequence overlapping
  exact ⟨second.span.start, first.span.stop, overlap, error⟩

theorem compose_eq_ok_iff_pairwise_insertionFirst
    (apart : AreApart (edits.map (replacementOf (LineTable.ofText unit text) text))) :
    compose (LineTable.ofText unit text) text edits =
        .ok (spliceAll text
          (inByteOrder (edits.map (replacementOf (LineTable.ofText unit text) text)))) ↔
      edits.Pairwise (InsertionFirst (LineTable.ofText unit text) text) := by
  refine ⟨fun success => ?_, compose_of_pairwise_insertionFirst unit inside apart⟩
  refine Classical.byContradiction fun insertionBehind => ?_
  obtain ⟨_, _, _, error⟩ :=
    compose_of_not_pairwise_insertionFirst unit inside insertionBehind
  rw [success] at error
  cases error

end Arrived

theorem pairwise_insertionFirst_of_none {table : LineTable} {text : Text} {edits : List Edit}
    (noneOpens : ∀ insertion, insertion ∈ edits → ∀ replaced, replaced ∈ edits →
      ¬ (replacementOf table text insertion).span.Opens
        (replacementOf table text replaced).span) :
    edits.Pairwise (InsertionFirst table text) := by
  refine List.pairwise_of_forall_mem_list fun first firstMember second secondMember => ?_
  exact ⟨fun opens => absurd opens (noneOpens first firstMember second secondMember),
    fun opens => absurd opens (noneOpens second secondMember first firstMember)⟩

/-- A batch of edits that are apart composes one text, whichever order they arrive in, or
is refused. It is refused exactly if an insertion that opens the bytes of another edit
comes behind that edit in reading order, where edits at the same position come as they
arrive. -/
theorem compose_apart (unit : ColumnUnit) (text : Text) (edits : List Edit)
    (inside : ∀ edit, edit ∈ edits →
      edit.range.start.line < (LineTable.ofText unit text).lineCount ∧
        edit.range.stop.line < (LineTable.ofText unit text).lineCount)
    (apart : AreApart (edits.map (replacementOf (LineTable.ofText unit text) text))) :
    let table := LineTable.ofText unit text
    let composed := spliceAll text (inByteOrder (edits.map (replacementOf table text)))
    (∀ arrived, arrived.Perm edits →
        (compose table text arrived = .ok composed ↔
            arrived.Pairwise (InsertionFirst table text)) ∧
          (¬ arrived.Pairwise (InsertionFirst table text) →
            ∃ start consumed, start < consumed ∧
              compose table text arrived = .error (.overlappingEdit start consumed))) ∧
      ((∀ insertion, insertion ∈ edits → ∀ replaced, replaced ∈ edits →
          ¬ (replacementOf table text insertion).span.Opens
            (replacementOf table text replaced).span) →
        ∀ arrived, arrived.Perm edits → compose table text arrived = .ok composed) := by
  intro table composed
  have ordered : ∀ replacement, replacement ∈ edits.map (replacementOf table text) →
      replacement.span.start ≤ replacement.span.stop := by
    intro replacement member
    obtain ⟨edit, editMember, rfl⟩ := List.mem_map.1 member
    exact (admissible_replacementOf unit inside editMember).1
  have accepted : ∀ arrived, arrived.Perm edits →
      (compose table text arrived = .ok composed ↔
        arrived.Pairwise (InsertionFirst table text)) := by
    intro arrived perm
    have samePlaces := perm.symm.map (replacementOf table text)
    have sameText := inByteOrder_eq_of_perm ordered apart samePlaces
    rw [← compose_eq_ok_iff_pairwise_insertionFirst unit
      (fun edit member => inside edit (perm.mem_iff.1 member)) (apart.perm samePlaces),
      ← sameText]
  refine ⟨fun arrived perm => ⟨accepted arrived perm, fun insertionBehind => ?_⟩, ?_⟩
  · exact compose_of_not_pairwise_insertionFirst unit
      (fun edit member => inside edit (perm.mem_iff.1 member)) insertionBehind
  · intro noneOpens arrived perm
    refine (accepted arrived perm).2 (pairwise_insertionFirst_of_none ?_)
    intro insertion insertionMember replaced replacedMember
    exact noneOpens insertion (perm.mem_iff.1 insertionMember) replaced
      (perm.mem_iff.1 replacedMember)

/-- An insertion in front of a range that came the wrong way round, and one past the end
of its line, which is accepted although it arrives after the edit that starts with the
next line. The first one is not accepted when it arrives last. -/
theorem compose_apart_touching :
    let text : Text := ['a', '😀', 'b', '\n', 'c', 'd']
    let insertion : Edit := ⟨⟨⟨0, 1⟩, ⟨0, 1⟩⟩, ['y']⟩
    let replaced : Edit := ⟨⟨⟨0, 3⟩, ⟨0, 1⟩⟩, ['x']⟩
    let others : List Edit :=
      [⟨⟨⟨1, 0⟩, ⟨1, 1⟩⟩, ['w']⟩, ⟨⟨⟨0, 4⟩, ⟨1, 0⟩⟩, []⟩, ⟨⟨⟨0, 9⟩, ⟨0, 9⟩⟩, ['z']⟩]
    let edits : List Edit := replaced :: insertion :: others
    let table := LineTable.ofText .utf16 text
    (∀ edit, edit ∈ edits →
        edit.range.start.line < table.lineCount ∧ edit.range.stop.line < table.lineCount) ∧
      AreApart (edits.map (replacementOf table text)) ∧
      compose table text (insertion :: others ++ [replaced]) =
        .ok ['a', 'y', 'x', 'b', 'z', 'w', 'd'] ∧
      ∃ start consumed, start < consumed ∧
        compose table text (others ++ [replaced, insertion]) =
          .error (.overlappingEdit start consumed) := by
  intro text insertion replaced others edits table
  have inside : ∀ edit, edit ∈ edits →
      edit.range.start.line < table.lineCount ∧ edit.range.stop.line < table.lineCount := by
    decide
  have spans : edits.map (replacementOf table text) =
      [⟨⟨1, 5⟩, ['x']⟩, ⟨⟨1, 1⟩, ['y']⟩, ⟨⟨7, 8⟩, ['w']⟩, ⟨⟨6, 7⟩, []⟩, ⟨⟨7, 7⟩, ['z']⟩] := by
    decide +kernel
  have apart : AreApart (edits.map (replacementOf table text)) := by
    rw [spans]
    decide
  have sorted : inByteOrder (edits.map (replacementOf table text)) =
      [⟨⟨1, 1⟩, ['y']⟩, ⟨⟨1, 5⟩, ['x']⟩, ⟨⟨6, 7⟩, []⟩, ⟨⟨7, 7⟩, ['z']⟩, ⟨⟨7, 8⟩, ['w']⟩] := by
    rw [spans]
    simp [inByteOrder, List.mergeSort, List.MergeSort.Internal.splitInTwo]
  have spliced : spliceAll text (inByteOrder (edits.map (replacementOf table text))) =
      ['a', 'y', 'x', 'b', 'z', 'w', 'd'] := by
    rw [sorted]
    decide
  have arrivals := (compose_apart .utf16 text edits inside apart).1
  refine ⟨inside, apart, ?_, ?_⟩
  · rw [← spliced]
    exact (arrivals _ (by decide)).1.2 (by decide +kernel)
  · exact (arrivals _ (by decide)).2 (by decide +kernel)

/-- An insertion at the start of a replaced range is refused when it arrives after the
replacement, although the two edits are apart. -/
theorem compose_apart_depends_on_arrival :
    let text : Text := ['a', 'b', 'c', 'd']
    let insertion : Edit := ⟨⟨⟨0, 1⟩, ⟨0, 1⟩⟩, ['y']⟩
    let replaced : Edit := ⟨⟨⟨0, 1⟩, ⟨0, 3⟩⟩, ['x']⟩
    let edits : List Edit := [replaced, insertion]
    let table := LineTable.ofText .utf16 text
    (∀ edit, edit ∈ edits →
        edit.range.start.line < table.lineCount ∧ edit.range.stop.line < table.lineCount) ∧
      AreApart (edits.map (replacementOf table text)) ∧
      compose table text [insertion, replaced] = .ok ['a', 'y', 'x', 'd'] ∧
      compose table text [replaced, insertion] = .error (.overlappingEdit 1 3) ∧
      ¬ ∃ composed, ∀ arrived, arrived.Perm edits →
        compose table text arrived = .ok composed := by
  intro text insertion replaced edits table
  have insertionFirst : inReadingOrder [insertion, replaced] = [insertion, replaced] := by
    simp [insertion, replaced, inReadingOrder, Edit.ordered, Range.ordered, Position.le_iff,
      List.mergeSort, List.MergeSort.Internal.splitInTwo]
  have insertionLast : inReadingOrder [replaced, insertion] = [replaced, insertion] := by
    simp [insertion, replaced, inReadingOrder, Edit.ordered, Range.ordered, Position.le_iff,
      List.mergeSort, List.MergeSort.Internal.splitInTwo]
  have accepted : compose table text [insertion, replaced] = .ok ['a', 'y', 'x', 'd'] := by
    rw [compose, replacements, insertionFirst]
    decide +kernel
  have refused : compose table text [replaced, insertion] = .error (.overlappingEdit 1 3) := by
    rw [compose, replacements, insertionLast]
    decide +kernel
  refine ⟨by decide, by decide +kernel, accepted, refused, ?_⟩
  rintro ⟨composed, always⟩
  have success := always edits (List.Perm.refl edits)
  rw [refused] at success
  cases success

end Batch

end LiveDocument
