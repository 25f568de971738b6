import LiveDocument.Batch
import LiveDocument.Buffer
import LiveDocument.Settings

/-!
# Documents

A document holds a text, its version and, once something has asked for it, its line
table. A change of a range mends the table, a change of the whole text drops it; no
answer depends on whether the table is at hand, the summary excepted.
-/

namespace LiveDocument

/-- The text of one open file, at the last version that the client reported. -/
structure Document where
  version : Int
  text : Text
  /-- The line table of the text, once something has asked for it. -/
  table? : Option LineTable
  settings : Settings
deriving DecidableEq, Repr

namespace Document

def ofText (settings : Settings) (version : Int) (text : Text) : Document :=
  ⟨version, text, none, settings⟩

def isIndexed (document : Document) : Bool := document.table?.isSome

def table (document : Document) : LineTable :=
  document.table?.getD (LineTable.ofText document.settings.unit document.text)

/-- The document with its table at hand. -/
def indexed (document : Document) : Document :=
  { document with table? := some document.table }

def buffer (document : Document) : Buffer := ⟨document.text, document.table⟩

def lineCount (document : Document) : Nat := document.table.lineCount

def offsetAt (document : Document) (position : Position) : Nat :=
  document.table.offsetAt document.text position

def positionAt (document : Document) (offset : Nat) : Position :=
  document.table.positionAt document.text offset

def clampRange (document : Document) (range : Range) : Range :=
  document.table.clampRange document.text range

/-- The text between the ends of `range`, which are put in order but not clamped.
There is none if the later end comes first in the text: a line past the last one
counts as the last line with the same column. -/
def read? (document : Document) (range : Range) : Option Text :=
  document.text.slice? (document.table.spanOf document.text range.ordered)

def composed (document : Document) (edits : List Edit) : Except DocumentError Text :=
  Batch.compose document.table document.text edits

/-- A change of the whole text drops the table, a change of a range mends it. -/
def apply (document : Document) : Change → Document
  | .full text => { document with text := text, table? := none }
  | .within range text =>
      let changed := (document.buffer.replace range text).2
      { document with text := changed.text, table? := some changed.table }

def applyAll (document : Document) (changes : List Change) : Document :=
  changes.foldl apply document

/-- Applies the changes of one notification in order and records its version,
unless the version policy refuses that. -/
def update (document : Document) (version : Int) (changes : List Change) :
    Except DocumentError Document :=
  if document.settings.policy.accepts document.version version then
    .ok { document.applyAll changes with version := version }
  else
    .error (.staleVersion document.version version)

/-- How a document is held: as a value of its own, or shared between the parts of
a program. -/
inductive Access where
  | direct
  | shared
deriving DecidableEq, Repr

def byteLength (document : Document) : Nat := document.text.byteLength

def summary (document : Document) : Access → String
  | .direct =>
      s!"TextDocument \x7b version: {document.version}, len: {document.byteLength}, "
        ++ s!"indexed: {document.isIndexed} \x7d"
  | .shared => s!"Document \x7b version: {document.version}, len: {document.byteLength} \x7d"

@[simp]
theorem table_indexed (document : Document) :
    document.indexed.table = document.table := rfl

@[simp]
theorem settings_apply (document : Document) (change : Change) :
    (document.apply change).settings = document.settings := by
  cases change <;> rfl

@[simp]
theorem version_apply (document : Document) (change : Change) :
    (document.apply change).version = document.version := by
  cases change <;> rfl

theorem update_of_accepts {document : Document} {version : Int}
    (accepts : document.settings.policy.accepts document.version version = true)
    (changes : List Change) :
    document.update version changes =
      .ok { document.applyAll changes with version := version } :=
  if_pos accepts

theorem update_of_not_accepts {document : Document} {version : Int}
    (refuses : ¬ document.settings.policy.accepts document.version version = true)
    (changes : List Change) :
    document.update version changes = .error (.staleVersion document.version version) :=
  if_neg refuses

theorem applyAll_append (document : Document) (first later : List Change) :
    document.applyAll (first ++ later) = (document.applyAll first).applyAll later :=
  List.foldl_append

theorem settings_applyAll (document : Document) (changes : List Change) :
    (document.applyAll changes).settings = document.settings := by
  induction changes generalizing document with
  | nil => rfl
  | cons change rest ih => exact (ih (document.apply change)).trans (settings_apply _ _)

theorem version_applyAll (document : Document) (changes : List Change) :
    (document.applyAll changes).version = document.version := by
  induction changes generalizing document with
  | nil => rfl
  | cons change rest ih => exact (ih (document.apply change)).trans (version_apply _ _)

end Document

end LiveDocument
