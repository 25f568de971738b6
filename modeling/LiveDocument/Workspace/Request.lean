import LiveDocument.Document.Request
import LiveDocument.Workspace.Basic

/-!
# Requests to a workspace

All that can be asked of a workspace as one type, so that a run is a list of
requests.
-/

namespace LiveDocument

namespace Workspace

inductive Request where
  | openDocument (uri : String) (version : Int) (text : Text)
  | changeDocument (uri : String) (version : Int) (changes : List Change)
  | closeDocument (uri : String)
  | lookUp (uri : String)
  | contains (uri : String)
  | uris
  | size
  | isEmpty
  | settings
  /-- Goes to a document itself, whether it is open or not. -/
  | direct (handle : Handle) (request : Document.Request)
deriving DecidableEq, Repr

inductive Reply where
  | opened (handle : Handle)
  | changed (version : Int)
  | refused (error : DocumentError)
  /-- A document as it is at the time of the reply. -/
  | found (handle : Handle) (version : Int) (text : Text)
  | notFound
  | verdict (holds : Bool)
  | uris (uris : List String)
  | count (count : Nat)
  | settings (settings : Settings)
  | direct (reply : Document.Reply)
deriving DecidableEq, Repr

def Reply.ofLookUp : Option (Handle × Document) → Reply
  | none => notFound
  | some (handle, document) => found handle document.version document.text

variable {μ : Type} [OrderedMap μ Handle]

/-- The reply to a request and the workspace after it. -/
def respond (workspace : Workspace μ) : Request → Reply × Workspace μ
  | .openDocument uri version text =>
      let (handle, next) := workspace.openDocument uri version text
      (.opened handle, next)
  | .changeDocument uri version changes =>
      match workspace.changeDocument uri version changes with
      | .ok next => (.changed version, next)
      | .error error => (.refused error, workspace)
  | .closeDocument uri => (.ofLookUp (workspace.lookUp? uri), workspace.closeDocument uri)
  | .lookUp uri => (.ofLookUp (workspace.lookUp? uri), workspace)
  | .contains uri => (.verdict (workspace.contains uri), workspace)
  | .uris => (.uris workspace.uris, workspace)
  | .size => (.count workspace.size, workspace)
  | .isEmpty => (.verdict workspace.isEmpty, workspace)
  | .settings => (.settings workspace.settings, workspace)
  | .direct handle request =>
      match workspace.document? handle with
      | none => (.notFound, workspace)
      | some document =>
        let (reply, next) := document.respond request
        (.direct reply, workspace.setDocument handle next)

/-- The replies to the requests in order, and the workspace at the end. -/
def run : Workspace μ → List Request → List Reply × Workspace μ
  | workspace, [] => ([], workspace)
  | workspace, first :: rest =>
      let (reply, next) := workspace.respond first
      let (replies, last) := run next rest
      (reply :: replies, last)

end Workspace

end LiveDocument
