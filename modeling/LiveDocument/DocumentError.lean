/-!
# Errors of documents

The reasons for which a document or a workspace refuses a request, and their
wording.
-/

namespace LiveDocument

inductive DocumentError where
  /-- An edit starts at byte `start`, before the `consumed` bytes that earlier
  edits of its batch have replaced or passed over. -/
  | overlappingEdit (start consumed : Nat)
  /-- An update to version `received` came when the document was at `current`. -/
  | staleVersion (current received : Int)
  | unknownDocument (uri : String)
deriving DecidableEq, Repr

namespace DocumentError

def message : DocumentError → String
  | overlappingEdit start consumed =>
      s!"overlapping edit: starts at byte {start} but bytes up to {consumed} are already replaced"
  | staleVersion current received =>
      s!"stale version {received} (document is at version {current})"
  | unknownDocument uri => s!"document not open: {uri}"

end DocumentError

end LiveDocument
