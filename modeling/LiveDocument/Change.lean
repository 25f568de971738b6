import LiveDocument.Range
import LiveDocument.Text.Bytes

/-!
# Changes and edits

Changes are reported one after the other, each against the text that the one before
it left. Edits come in batches and are all stated against one text.
-/

namespace LiveDocument

/-- A change that a client reports: a new text for the whole document, or for one
range of it. -/
inductive Change where
  | full (text : Text)
  | within (range : Range) (text : Text)
deriving DecidableEq, Repr

namespace Change

/-- A change without a range replaces the whole document. -/
def ofParts : Option Range → Text → Change
  | none, text => full text
  | some range, text => within range text

def range? : Change → Option Range
  | full _ => none
  | within range _ => some range

def text : Change → Text
  | full text => text
  | within _ text => text

def isFull (change : Change) : Bool := change.range?.isNone

@[simp]
theorem ofParts_range?_text (change : Change) :
    ofParts change.range? change.text = change := by
  cases change <;> rfl

@[simp]
theorem range?_ofParts (range : Option Range) (text : Text) :
    (ofParts range text).range? = range := by
  cases range <;> rfl

@[simp]
theorem text_ofParts (range : Option Range) (text : Text) :
    (ofParts range text).text = text := by
  cases range <;> rfl

end Change

/-- A replacement of one range, stated against the text as it is before any other
replacement of its batch. -/
structure Edit where
  range : Range
  text : Text
deriving DecidableEq, Repr

namespace Edit

def ordered (edit : Edit) : Edit := ⟨edit.range.ordered, edit.text⟩

theorem ordered_ordered (edit : Edit) : edit.ordered.ordered = edit.ordered := by
  rw [ordered, ordered, Range.ordered_ordered]

end Edit

end LiveDocument
