import LiveDocument.Document.Basic

/-!
# Requests to a document

All that can be asked of a document as one type, so that a run is a list of
requests.
-/

namespace LiveDocument

namespace Document

inductive Request where
  | update (version : Int) (changes : List Change)
  | apply (change : Change)
  | version
  | text
  | settings
  | lineCount
  /-- The text of a range, or the whole text. -/
  | read (range? : Option Range)
  | offsetAt (position : Position)
  | positionAt (offset : Nat)
  | clampRange (range : Range)
  | compose (edits : List Edit)
  /-- Whether the line table is the one of the text. -/
  | checkTable
deriving DecidableEq, Repr

inductive Reply where
  | done
  | refused (error : DocumentError)
  /-- The ends of a range to be read come in the wrong order in the text. -/
  | unreadable
  | version (version : Int)
  | text (text : Text)
  | settings (settings : Settings)
  | count (count : Nat)
  | offset (offset : Nat)
  | position (position : Position)
  | range (range : Range)
  | verdict (holds : Bool)
deriving DecidableEq, Repr

namespace Reply

def ofText? : Option Text → Reply
  | none => unreadable
  | some content => text content

def ofComposed : Except DocumentError Text → Reply
  | .ok content => text content
  | .error error => refused error

end Reply

/-- The reply to a request and the document after it. A request that needs the line
table leaves it at hand, also when it fails. -/
def respond (document : Document) : Request → Reply × Document
  | .update version changes =>
      match document.update version changes with
      | .ok updated => (.done, updated)
      | .error error => (.refused error, document)
  | .apply change => (.done, document.apply change)
  | .version => (.version document.version, document)
  | .text => (.text document.text, document)
  | .settings => (.settings document.settings, document)
  | .read none => (.text document.text, document)
  | .read (some range) => asking document fun ready => .ofText? (ready.read? range)
  | .lineCount => asking document fun ready => .count ready.lineCount
  | .offsetAt position => asking document fun ready => .offset (ready.offsetAt position)
  | .positionAt offset => asking document fun ready => .position (ready.positionAt offset)
  | .clampRange range => asking document fun ready => .range (ready.clampRange range)
  | .compose edits => asking document fun ready => .ofComposed (ready.composed edits)
  | .checkTable => asking document fun ready => .verdict ready.buffer.isFresh
where
  asking (document : Document) (question : Document → Reply) : Reply × Document :=
    (question document.indexed, document.indexed)

theorem settings_respond (document : Document) (request : Request) :
    (document.respond request).2.settings = document.settings := by
  cases request with
  | update version changes =>
      rw [respond, update]
      split
      · rename_i updated accepted
        split at accepted
        · cases accepted
          exact settings_applyAll document changes
        · cases accepted
      · rfl
  | apply change => exact settings_apply document change
  | read range? => cases range? <;> rfl
  | _ => rfl

end Document

end LiveDocument
