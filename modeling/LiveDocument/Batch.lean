import LiveDocument.Change
import LiveDocument.DocumentError
import LiveDocument.LineTable.Clamp

/-!
# Batches of edits

A batch is put in reading order, its ranges are turned into bytes, and the new text is
pieced together from left to right out of kept bytes and new texts. An edit that
starts before the end of the one before it spoils the batch.
-/

namespace LiveDocument

namespace Batch

/-- The edits with their ranges in order, sorted by where they start. Edits with
the same start keep the order in which they came. -/
def inReadingOrder (edits : List Edit) : List Edit :=
  (edits.map Edit.ordered).mergeSort fun first second =>
    first.range.start ≤ second.range.start

structure Replacement where
  span : Span
  text : Text
deriving DecidableEq, Repr

/-- The edits as replacements of bytes, in reading order. Ranges are not clamped:
on a line past the last one an edit may end before it starts. -/
def replacements (table : LineTable) (text : Text) (edits : List Edit) :
    List Replacement :=
  (inReadingOrder edits).map fun edit => ⟨table.spanOf text edit.range, edit.text⟩

/-- A piece of the new text: bytes kept from the text, or text put in. -/
inductive Piece where
  | kept (span : Span)
  | inserted (text : Text)
deriving DecidableEq, Repr

namespace Piece

def render (text : Text) : Piece → Text
  | kept span => text.slice span
  | inserted new => new

end Piece

/-- The pieces from byte `consumed` of a text of `length` bytes on, unless a
replacement starts before the end of the one before it. -/
def pieces (length : Nat) : Nat → List Replacement → Except DocumentError (List Piece)
  | consumed, [] => .ok [.kept ⟨consumed, length⟩]
  | consumed, replacement :: rest =>
      if replacement.span.start < consumed then
        .error (.overlappingEdit replacement.span.start consumed)
      else
        (pieces length replacement.span.stop rest).map fun later =>
          .kept ⟨consumed, replacement.span.start⟩ :: .inserted replacement.text :: later

def compose (table : LineTable) (text : Text) (edits : List Edit) :
    Except DocumentError Text :=
  (pieces text.byteLength 0 (replacements table text edits)).map fun all =>
    all.flatMap (Piece.render text)

end Batch

end LiveDocument
