import LiveDocument.Document.Request

/-!
# Documents without a table

A plain document answers the same requests as a document, and makes the line table
anew each time. It says what the answers of a document have to be.
-/

namespace LiveDocument

/-- A document that keeps no line table and makes one anew whenever it needs one. -/
structure PlainDocument where
  version : Int
  text : Text
  settings : Settings
deriving DecidableEq, Repr

namespace PlainDocument

def ofText (settings : Settings) (version : Int) (text : Text) : PlainDocument :=
  ⟨version, text, settings⟩

def table (document : PlainDocument) : LineTable :=
  LineTable.ofText document.settings.unit document.text

def apply (document : PlainDocument) : Change → PlainDocument
  | .full text => { document with text := text }
  | .within range text =>
      let table := document.table
      let span := table.spanOf document.text (table.clampRange document.text range)
      { document with text := document.text.splice span text }

def applyAll (document : PlainDocument) (changes : List Change) : PlainDocument :=
  changes.foldl apply document

def update (document : PlainDocument) (version : Int) (changes : List Change) :
    Except DocumentError PlainDocument :=
  if document.settings.policy.accepts document.version version then
    .ok { document.applyAll changes with version := version }
  else
    .error (.staleVersion document.version version)

def respond (document : PlainDocument) :
    Document.Request → Document.Reply × PlainDocument
  | .update version changes =>
      match document.update version changes with
      | .ok updated => (.done, updated)
      | .error error => (.refused error, document)
  | .apply change => (.done, document.apply change)
  | .version => (.version document.version, document)
  | .text => (.text document.text, document)
  | .settings => (.settings document.settings, document)
  | .read none => (.text document.text, document)
  | .read (some range) =>
      (.ofText? (document.text.slice? (document.table.spanOf document.text range.ordered)),
        document)
  | .lineCount => (.count document.table.lineCount, document)
  | .offsetAt position =>
      (.offset (document.table.offsetAt document.text position), document)
  | .positionAt offset =>
      (.position (document.table.positionAt document.text offset), document)
  | .clampRange range => (.range (document.table.clampRange document.text range), document)
  | .compose edits =>
      (.ofComposed (Batch.compose document.table document.text edits), document)
  | .checkTable => (.verdict true, document)

end PlainDocument

namespace Document

def plain (document : Document) : PlainDocument :=
  ⟨document.version, document.text, document.settings⟩

end Document

end LiveDocument
