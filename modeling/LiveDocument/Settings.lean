import LiveDocument.ColumnUnit

/-!
# Settings of a document

The unit of columns and the policy on versions.
-/

namespace LiveDocument

/-- Which versions an update may carry. -/
inductive VersionPolicy where
  /-- Every update has a greater version than the one before. -/
  | strict
  | permissive
deriving DecidableEq, Repr, Inhabited

namespace VersionPolicy

def accepts : VersionPolicy → Int → Int → Bool
  | strict, current, received => current < received
  | permissive, _, _ => true

end VersionPolicy

structure Settings where
  unit : ColumnUnit
  policy : VersionPolicy
deriving DecidableEq, Repr, Inhabited

end LiveDocument
