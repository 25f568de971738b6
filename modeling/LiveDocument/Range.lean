import LiveDocument.Position

/-!
# Ranges

A client may send the two ends of a range in either order. The ordered form of a
range does not depend on which (`ordered_swap`).
-/

namespace LiveDocument

/-- Two places in a text as a client sends them, which may be the wrong way
round. -/
structure Range where
  start : Position
  stop : Position
deriving DecidableEq, Repr, Inhabited

namespace Range

def point (position : Position) : Range := ⟨position, position⟩

def isEmpty (range : Range) : Bool := range.start = range.stop

def ordered (range : Range) : Range :=
  if range.start ≤ range.stop then range else ⟨range.stop, range.start⟩

/-- Whether `position` is at or after the earlier end and before the later one. -/
def contains (range : Range) (position : Position) : Bool :=
  range.ordered.start ≤ position && position < range.ordered.stop

instance : ToString Range := ⟨fun range => s!"{range.start}-{range.stop}"⟩

theorem ordered_of_le {range : Range} (inOrder : range.start ≤ range.stop) :
    range.ordered = range :=
  if_pos inOrder

theorem ordered_start_le_stop (range : Range) :
    range.ordered.start ≤ range.ordered.stop := by
  rw [ordered]
  split
  · assumption
  · exact (Position.le_total _ _).resolve_left ‹_›

theorem ordered_ends_iff (range : Range) (holds : Position → Prop) :
    (holds range.ordered.start ∧ holds range.ordered.stop) ↔
      holds range.start ∧ holds range.stop := by
  rw [ordered]
  split
  · rfl
  · exact And.comm

theorem ordered_ordered (range : Range) : range.ordered.ordered = range.ordered :=
  ordered_of_le range.ordered_start_le_stop

theorem ordered_swap (start stop : Position) :
    (Range.mk stop start).ordered = (Range.mk start stop).ordered := by
  simp only [ordered]
  split <;> split
  · have same := Position.le_antisymm ‹stop ≤ start› ‹start ≤ stop›
    rw [same]
  · rfl
  · rfl
  · exact absurd ((Position.le_total start stop).resolve_left ‹_›) ‹_›

theorem contains_swap (start stop position : Position) :
    (Range.mk stop start).contains position = (Range.mk start stop).contains position := by
  rw [contains, contains, ordered_swap]

theorem contains_iff_of_le {start stop position : Position} (inOrder : start ≤ stop) :
    (Range.mk start stop).contains position = true ↔ start ≤ position ∧ position < stop := by
  rw [contains, ordered, if_pos inOrder, Bool.and_eq_true, decide_eq_true_eq,
    decide_eq_true_eq]

end Range

end LiveDocument
