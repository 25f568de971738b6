import LiveDocument.Document.Basic
import LiveDocument.Registry

/-!
# Workspaces

A workspace keeps the open documents of a client under their URIs. Documents are known
by handles, which outlive their opening: a document that was closed or replaced can
still be asked, and no longer takes part in what happens under its URI.
-/

namespace LiveDocument

abbrev Handle := Nat

/-- The documents of a client. A handle stays good after its document was closed or
another one was opened under its URI. The handles of the open documents are kept in an
ordered map, which is a registry unless it is said to be another one. -/
structure Workspace (μ : Type := Registry Handle) where
  settings : Settings
  /-- Every document that was opened, by handle. -/
  documents : Array Document
  /-- The open documents, in the order in which their URIs were opened. -/
  bindings : μ
deriving DecidableEq, Repr

namespace Workspace

variable {μ : Type} [OrderedMap μ Handle]

/-- The workspace without documents, with any ordered map. -/
def emptyOver (μ : Type) [OrderedMap μ Handle] (settings : Settings) : Workspace μ :=
  ⟨settings, #[], OrderedMap.empty⟩

def empty (settings : Settings) : Workspace := emptyOver (Registry Handle) settings

instance : Inhabited Workspace := ⟨empty default⟩

def find? (workspace : Workspace μ) (uri : String) : Option Handle :=
  OrderedMap.find? workspace.bindings uri

def contains (workspace : Workspace μ) (uri : String) : Bool :=
  (workspace.find? uri).isSome

def uris (workspace : Workspace μ) : List String := OrderedMap.names workspace.bindings

def size (workspace : Workspace μ) : Nat := workspace.uris.length

def isEmpty (workspace : Workspace μ) : Bool := workspace.size = 0

def document? (workspace : Workspace μ) (handle : Handle) : Option Document :=
  workspace.documents[handle]?

/-! ## Opening, changing and closing -/

/-- Opens a document and gives it the next handle. A URI that is open keeps its
place and passes to the new document. -/
def openDocument (workspace : Workspace μ) (uri : String) (version : Int) (text : Text) :
    Handle × Workspace μ :=
  let handle := workspace.documents.size
  (handle,
    { workspace with
      documents := workspace.documents.push (.ofText workspace.settings version text)
      bindings := OrderedMap.insert workspace.bindings uri handle })

def lookUp? (workspace : Workspace μ) (uri : String) : Option (Handle × Document) :=
  (workspace.find? uri).bind fun handle =>
    (workspace.document? handle).map fun document => (handle, document)

def openDocuments (workspace : Workspace μ) : List (String × Document) :=
  workspace.uris.filterMap fun uri =>
    (workspace.lookUp? uri).map fun (_, document) => (uri, document)

def setDocument (workspace : Workspace μ) (handle : Handle) (document : Document) :
    Workspace μ :=
  { workspace with documents := workspace.documents.setIfInBounds handle document }

def changeDocument (workspace : Workspace μ) (uri : String) (version : Int)
    (changes : List Change) : Except DocumentError (Workspace μ) :=
  match workspace.lookUp? uri with
  | none => .error (.unknownDocument uri)
  | some (handle, document) =>
      match document.update version changes with
      | .ok updated => .ok (workspace.setDocument handle updated)
      | .error error => .error error

def closeDocument (workspace : Workspace μ) (uri : String) : Workspace μ :=
  { workspace with bindings := OrderedMap.erase workspace.bindings uri }

end Workspace

end LiveDocument
