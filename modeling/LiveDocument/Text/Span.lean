import LiveDocument.Text.Bytes

/-!
# Spans of a text

A span is a pair of byte offsets. An admissible span splits the text into what is
before it, in it and after it (`admissible_iff`); reading and replacing such a span
do what one expects of the three parts (`slice_append`, `splice_append`). Reading
and replacing are total, and `slice?` refuses a span that is not admissible.
-/

namespace LiveDocument

/-- The bytes of a text from `start` up to, but not including, `stop`. -/
structure Span where
  start : Nat
  stop : Nat
deriving DecidableEq, Repr

namespace Span

def length (span : Span) : Nat :=
  span.stop - span.start

theorem ext_of_eq {first second : Span} (sameStart : first.start = second.start)
    (sameStop : first.stop = second.stop) : first = second := by
  cases first
  cases second
  simp_all

/-- A span is admissible when it is in order and cuts `text` between
characters. -/
def Admissible (span : Span) (text : Text) : Prop :=
  span.start ≤ span.stop ∧
    Text.isBoundary text span.start = true ∧ Text.isBoundary text span.stop = true

instance (span : Span) (text : Text) : Decidable (span.Admissible text) :=
  inferInstanceAs (Decidable (_ ∧ _ ∧ _))

end Span

namespace Text

/-! ## Reading and replacing a span -/

def slice (text : Text) (span : Span) : Text :=
  takeBytes (dropBytes text span.start) span.length

def slice? (text : Text) (span : Span) : Option Text :=
  if span.Admissible text then some (slice text span) else none

theorem slice?_of_admissible {text : Text} {span : Span} (admissible : span.Admissible text) :
    slice? text span = some (slice text span) :=
  if_pos admissible

theorem slice?_eq_none_iff {text : Text} {span : Span}
    (startBoundary : isBoundary text span.start = true)
    (stopBoundary : isBoundary text span.stop = true) :
    slice? text span = none ↔ span.stop < span.start := by
  rw [slice?, ← Nat.not_le]
  by_cases inOrder : span.start ≤ span.stop
  · have admissible : span.Admissible text := ⟨inOrder, startBoundary, stopBoundary⟩
    simp [admissible, inOrder]
  · have notAdmissible : ¬ span.Admissible text := fun admissible => inOrder admissible.1
    simp [notAdmissible, inOrder]

/-- The text with the characters of `span` replaced by `inserted`. -/
def splice (text : Text) (span : Span) (inserted : Text) : Text :=
  takeBytes text span.start ++ inserted ++ dropBytes text span.stop

/-- An admissible span splits the text into what is before it, in it and after
it. -/
theorem admissible_iff (span : Span) (text : Text) :
    span.Admissible text ↔
      ∃ before inside after, text = before ++ inside ++ after ∧
        byteLength before = span.start ∧ byteLength (before ++ inside) = span.stop := by
  constructor
  · rintro ⟨ordered, startBoundary, stopBoundary⟩
    obtain ⟨before, rest, rfl, beforeLength⟩ := (isBoundary_iff _ _).1 startBoundary
    obtain ⟨whole, after, split, wholeLength⟩ := (isBoundary_iff _ _).1 stopBoundary
    have shorter : byteLength before ≤ byteLength whole := by
      rw [beforeLength, wholeLength]
      exact ordered
    obtain ⟨inside, rfl⟩ := leads_of_byteLength_le split shorter
    exact ⟨before, inside, after, split, beforeLength, wholeLength⟩
  · rintro ⟨before, inside, after, rfl, beforeLength, wholeLength⟩
    refine ⟨?_, (isBoundary_iff _ _).2 ⟨before, inside ++ after, by simp, beforeLength⟩,
      (isBoundary_iff _ _).2 ⟨before ++ inside, after, rfl, wholeLength⟩⟩
    rw [← beforeLength, ← wholeLength, byteLength_append]
    exact Nat.le_add_right _ _

theorem exists_parts_of_admissible {span : Span} {text : Text}
    (admissible : span.Admissible text) :
    ∃ before inside after, text = before ++ inside ++ after ∧
      span = ⟨byteLength before, byteLength (before ++ inside)⟩ := by
  obtain ⟨before, inside, after, split, startLength, stopLength⟩ :=
    (admissible_iff span text).1 admissible
  exact ⟨before, inside, after, split, by rw [startLength, stopLength]⟩

theorem slice_append (before inside after : Text) :
    slice (before ++ inside ++ after)
        ⟨byteLength before, byteLength (before ++ inside)⟩ = inside := by
  rw [slice, Span.length, List.append_assoc, dropBytes_append, byteLength_append,
    Nat.add_sub_cancel_left, takeBytes_append]

theorem splice_append (before inside after inserted : Text) :
    splice (before ++ inside ++ after)
        ⟨byteLength before, byteLength (before ++ inside)⟩ inserted =
      before ++ inserted ++ after := by
  rw [splice, dropBytes_append, List.append_assoc before inside after, takeBytes_append]

/-- A replacement of everything leaves nothing of the old text. -/
theorem splice_whole (text inserted : Text) :
    splice text ⟨0, byteLength text⟩ inserted = inserted := by
  have replaced := splice_append [] text [] inserted
  rwa [List.nil_append, List.append_nil, List.nil_append, List.append_nil] at replaced

theorem byteLength_slice {text : Text} {span : Span} (admissible : span.Admissible text) :
    byteLength (slice text span) = span.length := by
  obtain ⟨before, inside, after, rfl, rfl⟩ := exists_parts_of_admissible admissible
  rw [slice_append, Span.length, byteLength_append, Nat.add_sub_cancel_left]

theorem takeBytes_append_slice {text : Text} {span : Span}
    (admissible : span.Admissible text) :
    takeBytes text span.start ++ slice text span = takeBytes text span.stop := by
  obtain ⟨before, inside, after, rfl, rfl⟩ := exists_parts_of_admissible admissible
  rw [slice_append, takeBytes_append, List.append_assoc, takeBytes_append]

theorem slice_append_dropBytes {text : Text} {span : Span}
    (admissible : span.Admissible text) :
    slice text span ++ dropBytes text span.stop = dropBytes text span.start := by
  obtain ⟨before, inside, after, rfl, rfl⟩ := exists_parts_of_admissible admissible
  rw [slice_append, dropBytes_append, List.append_assoc, dropBytes_append]

/-- Two spans of which one starts where the other stops cover the text between them. -/
theorem slice_append_slice {text : Text} {first middle last : Nat}
    (front : Span.Admissible ⟨first, middle⟩ text)
    (back : Span.Admissible ⟨middle, last⟩ text) :
    slice text ⟨first, middle⟩ ++ slice text ⟨middle, last⟩ = slice text ⟨first, last⟩ := by
  have whole : Span.Admissible ⟨first, last⟩ text :=
    ⟨Nat.le_trans front.1 back.1, front.2.1, back.2.2⟩
  have same : takeBytes text first ++
      (slice text ⟨first, middle⟩ ++ slice text ⟨middle, last⟩) =
        takeBytes text first ++ slice text ⟨first, last⟩ := by
    rw [← List.append_assoc, takeBytes_append_slice front, takeBytes_append_slice back,
      takeBytes_append_slice whole]
  exact List.append_cancel_left same

/-- A replacement does not depend on what comes after the replaced bytes. -/
theorem splice_takeBytes_append {text : Text} {span : Span}
    (admissible : span.Admissible text) (tail inserted : Text) :
    splice (takeBytes text span.stop ++ tail) span inserted =
      takeBytes text span.start ++ inserted ++ tail := by
  obtain ⟨before, inside, after, rfl, rfl⟩ := exists_parts_of_admissible admissible
  rw [takeBytes_append, splice_append, List.append_assoc before inside, takeBytes_append]

theorem admissible_takeBytes_append {text : Text} {span : Span}
    (admissible : span.Admissible text) (tail : Text) :
    span.Admissible (takeBytes text span.stop ++ tail) := by
  obtain ⟨before, inside, after, rfl, rfl⟩ := exists_parts_of_admissible admissible
  rw [takeBytes_append]
  exact (admissible_iff _ _).2 ⟨before, inside, tail, rfl, rfl, rfl⟩

theorem slice_byteLength {text : Text} {offset : Nat}
    (atBoundary : isBoundary text offset = true) :
    slice text ⟨offset, byteLength text⟩ = dropBytes text offset := by
  obtain ⟨before, after, rfl, rfl⟩ := (isBoundary_iff text offset).1 atBoundary
  have whole := slice_append before after []
  rw [List.append_nil] at whole
  rw [whole, dropBytes_append]

theorem slice_eq_nil_iff {text : Text} {span : Span} (admissible : span.Admissible text) :
    slice text span = [] ↔ span.start = span.stop := by
  have length := byteLength_slice admissible
  constructor
  · intro nothing
    have ordered := admissible.1
    rw [nothing, byteLength_nil, Span.length] at length
    omega
  · intro same
    rw [slice, Span.length, same, Nat.sub_self]
    exact takeBytes_zero _

/-- Spans with the same start and the same text are the same. -/
theorem eq_of_slice_eq {text : Text} {first second : Span}
    (firstAdmissible : first.Admissible text) (secondAdmissible : second.Admissible text)
    (sameStart : first.start = second.start) (same : slice text first = slice text second) :
    first = second := by
  have firstLength := byteLength_slice firstAdmissible
  have secondLength := byteLength_slice secondAdmissible
  have firstOrdered := firstAdmissible.1
  have secondOrdered := secondAdmissible.1
  rw [same, secondLength, Span.length, Span.length] at firstLength
  have sameStop : first.stop = second.stop := by omega
  exact Span.ext_of_eq sameStart sameStop

/-- What is put in by a replacement can be exchanged again for what it took away. -/
theorem splice_splice_slice {text : Text} {span : Span} (admissible : span.Admissible text)
    (inserted : Text) :
    let changed := splice text span inserted
    let put : Span := ⟨span.start, span.start + byteLength inserted⟩
    put.Admissible changed ∧ splice changed put (slice text span) = text := by
  obtain ⟨before, inside, after, rfl, rfl⟩ := exists_parts_of_admissible admissible
  intro changed put
  have changedParts : changed = before ++ inserted ++ after := splice_append _ _ _ _
  have putParts : put = ⟨byteLength before, byteLength (before ++ inserted)⟩ := by
    rw [byteLength_append]
  rw [changedParts, putParts]
  refine ⟨(admissible_iff _ _).2 ⟨before, inserted, after, rfl, rfl, rfl⟩, ?_⟩
  rw [splice_append, slice_append]

theorem slice_zero (text : Text) (offset : Nat) :
    slice text ⟨0, offset⟩ = takeBytes text offset := by
  have nothingDropped : dropBytes text 0 = text := dropBytes_append [] text
  rw [slice, nothingDropped]
  rfl

end Text

end LiveDocument
