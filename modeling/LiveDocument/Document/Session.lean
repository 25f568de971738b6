import LiveDocument.Document.Request

/-!
# Copies of a document

A session holds copies that were made of one document or of each other. Each copy goes
its own way.
-/

namespace LiveDocument

/-- A document, of whatever kind, and how it is held. -/
structure Copy (α : Type) where
  access : Document.Access
  document : α
deriving DecidableEq, Repr

/-- The copies of a document in the order in which they were made. -/
abbrev Session (α : Type) := List (Copy α)

namespace Session

variable {α : Type}

inductive Step where
  | ask (index : Nat) (request : Document.Request)
  | copy (index : Nat) (access : Document.Access)
deriving DecidableEq, Repr

/-- The reply to a step, if there is a copy at its index, and the copies after
it. Each copy answers for itself. -/
def step (respond : α → Document.Request → Document.Reply × α) (session : Session α) :
    Step → Option Document.Reply × Session α
  | .ask index request =>
      match session[index]? with
      | none => (none, session)
      | some held =>
        let (reply, document) := respond held.document request
        (some reply, session.set index { held with document := document })
  | .copy index access =>
      match session[index]? with
      | none => (none, session)
      | some held => (some .done, session ++ [⟨access, held.document⟩])

/-- The replies to the steps in order, and the copies at the end. -/
def run (respond : α → Document.Request → Document.Reply × α) :
    Session α → List Step → List (Option Document.Reply) × Session α
  | session, [] => ([], session)
  | session, first :: rest =>
      let (reply, next) := session.step respond first
      let (replies, last) := run respond next rest
      (reply :: replies, last)

def summary? (session : Session Document) (index : Nat) : Option String :=
  session[index]?.map fun held => held.document.summary held.access

end Session

end LiveDocument
