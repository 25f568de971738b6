import LiveDocument.Proofs.Freshness

/-!
# A client and its server stay in step

A client edits its own text and reports each edit by the positions of the replaced
bytes. However the reports are grouped into notifications, a server that started with
the text of the client takes every one of them and then has the text of the client
(`deliver_inStep`).
-/

namespace LiveDocument

open Text

/-! ## The client -/

structure OwnEdit where
  span : Span
  text : Text
  /-- Whether the client reports the end of the replaced bytes before their start. -/
  endFirst : Bool
deriving DecidableEq, Repr

namespace OwnEdit

def apply (text : Text) (edit : OwnEdit) : Text :=
  text.splice edit.span edit.text

def applyAll (text : Text) (edits : List OwnEdit) : Text :=
  edits.foldl apply text

def report (unit : ColumnUnit) (text : Text) (edit : OwnEdit) : Change :=
  let range := (LineTable.ofText unit text).rangeOf text edit.span
  .within (if edit.endFirst then ⟨range.stop, range.start⟩ else range) edit.text

/-- The changes for edits that are made one after the other, each in the text that
the one before it left. -/
def reports (unit : ColumnUnit) : Text → List OwnEdit → List Change
  | _, [] => []
  | text, edit :: rest => edit.report unit text :: reports unit (edit.apply text) rest

/-- Each edit replaces whole characters of the text that it is made in. -/
def Possible : Text → List OwnEdit → Prop
  | _, [] => True
  | text, edit :: rest => edit.span.Admissible text ∧ Possible (edit.apply text) rest

instance decidablePossible : ∀ (text : Text) (edits : List OwnEdit),
    Decidable (Possible text edits)
  | _, [] => inferInstanceAs (Decidable True)
  | text, edit :: rest =>
      haveI := decidablePossible (edit.apply text) rest
      inferInstanceAs (Decidable (edit.span.Admissible text ∧ _))

theorem applyAll_append (text : Text) (first later : List OwnEdit) :
    applyAll text (first ++ later) = applyAll (applyAll text first) later :=
  List.foldl_append

theorem possible_append {text : Text} {first later : List OwnEdit} :
    Possible text (first ++ later) ↔
      Possible text first ∧ Possible (applyAll text first) later := by
  induction first generalizing text with
  | nil => exact ⟨fun possible => ⟨trivial, possible⟩, fun possible => possible.2⟩
  | cons edit rest ih =>
      simp only [List.cons_append, Possible, ih, and_assoc]
      rfl

end OwnEdit

/-- The edits that a client reports together, and the version that they lead to. -/
structure Notification where
  version : Int
  edits : List OwnEdit
deriving DecidableEq, Repr

namespace Notification

/-- The server after the notifications about edits of `text` in order, unless it
refuses one. -/
def deliver (unit : ColumnUnit) :
    Text → Document → List Notification → Except DocumentError Document
  | _, server, [] => .ok server
  | text, server, notification :: rest =>
      match server.update notification.version
          (OwnEdit.reports unit text notification.edits) with
      | .error error => .error error
      | .ok updated => deliver unit (OwnEdit.applyAll text notification.edits) updated rest

end Notification

/-! ## The server -/

theorem VersionPolicy.accepts_of_lt (policy : VersionPolicy) {current received : Int}
    (greater : current < received) : policy.accepts current received = true := by
  cases policy with
  | strict => exact decide_eq_true greater
  | permissive => rfl

namespace Document

/-- A report replaces in the server the bytes that the client has replaced. -/
theorem IsFresh.text_apply_report {server : Document} (fresh : server.IsFresh)
    {edit : OwnEdit} (possible : edit.span.Admissible server.text) :
    (server.apply (edit.report server.settings.unit server.text)).text =
      edit.apply server.text := by
  let range := (LineTable.ofText server.settings.unit server.text).rangeOf server.text edit.span
  have sent : (if edit.endFirst then Range.mk range.stop range.start else range).ordered =
      range.ordered := by
    split
    · exact Range.ordered_swap range.start range.stop
    · rfl
  have target : server.buffer.target
      (if edit.endFirst then Range.mk range.stop range.start else range) = edit.span := by
    rw [fresh.buffer_eq]
    exact Buffer.target_eq_of_ordered_eq _ possible sent
  rw [OwnEdit.report, fresh.apply_within, target]
  rfl

theorem IsFresh.text_applyAll_reports {server : Document} (fresh : server.IsFresh)
    {edits : List OwnEdit} (possible : OwnEdit.Possible server.text edits) :
    (server.applyAll (OwnEdit.reports server.settings.unit server.text edits)).text =
      OwnEdit.applyAll server.text edits := by
  induction edits generalizing server with
  | nil => rfl
  | cons edit rest ih =>
      have first := fresh.text_apply_report possible.1
      have later := ih (fresh.apply (edit.report server.settings.unit server.text))
        (first ▸ possible.2)
      rw [settings_apply, first] at later
      exact later

end Document

namespace Notification

/-- The server takes a notification that advances its version, and then has the text
of the client again. -/
theorem exists_update {server : Document} (fresh : server.IsFresh)
    {notification : Notification} (greater : server.version < notification.version)
    (possible : OwnEdit.Possible server.text notification.edits) :
    ∃ updated,
      server.update notification.version
          (OwnEdit.reports server.settings.unit server.text notification.edits) =
        .ok updated ∧
      updated.IsFresh ∧ updated.version = notification.version ∧
      updated.settings = server.settings ∧
      updated.text = OwnEdit.applyAll server.text notification.edits := by
  have accepted := server.settings.policy.accepts_of_lt greater
  refine ⟨_, Document.update_of_accepts accepted _, ?_, rfl, ?_, ?_⟩
  · exact fresh.applyAll _
  · exact Document.settings_applyAll server _
  · exact fresh.text_applyAll_reports possible

theorem exists_deliver {server : Document} (fresh : server.IsFresh)
    {notifications : List Notification}
    (increasing : (server.version :: notifications.map version).Pairwise (· < ·))
    (possible : OwnEdit.Possible server.text (notifications.flatMap edits)) :
    ∃ last,
      deliver server.settings.unit server.text server notifications = .ok last ∧
      last.IsFresh ∧ last.settings = server.settings ∧
      last.text = OwnEdit.applyAll server.text (notifications.flatMap edits) := by
  induction notifications generalizing server with
  | nil => exact ⟨server, rfl, fresh, rfl, rfl⟩
  | cons notification rest ih =>
      rw [List.flatMap_cons, OwnEdit.possible_append] at possible
      obtain ⟨greater, increasingRest⟩ := List.pairwise_cons.1 increasing
      obtain ⟨updated, accepted, updatedFresh, updatedVersion, updatedSettings, updatedText⟩ :=
        exists_update fresh (greater _ List.mem_cons_self) possible.1
      obtain ⟨last, delivered, lastFresh, lastSettings, lastText⟩ := ih updatedFresh
        (by rw [updatedVersion]; exact increasingRest)
        (by rw [updatedText]; exact possible.2)
      refine ⟨last, ?_, lastFresh, lastSettings.trans updatedSettings, ?_⟩
      · rw [deliver, accepted]
        rw [updatedSettings, updatedText] at delivered
        exact delivered
      · rw [lastText, updatedText, List.flatMap_cons, OwnEdit.applyAll_append]

/-- A server takes every notification of a client that started with the same text,
whatever is edited, however the ends of the edits are ordered and however the edits
are grouped, as long as the versions increase. After each of them it has the text of
the client and the line table of that text. -/
theorem deliver_inStep (settings : Settings) (version : Int) (text : Text)
    (notifications : List Notification)
    (increasing : (version :: notifications.map Notification.version).Pairwise (· < ·))
    (possible : OwnEdit.Possible text (notifications.flatMap edits)) :
    ∀ sent later, notifications = sent ++ later →
      ∃ server,
        deliver settings.unit text (Document.ofText settings version text) sent =
          .ok server ∧
        server.text = OwnEdit.applyAll text (sent.flatMap edits) ∧
        server.table = LineTable.ofText settings.unit server.text := by
  rintro sent later rfl
  rw [List.map_append, ← List.cons_append] at increasing
  rw [List.flatMap_append, OwnEdit.possible_append] at possible
  obtain ⟨server, delivered, fresh, sameSettings, sameText⟩ :=
    exists_deliver (Document.isFresh_ofText settings version text)
      (List.pairwise_append.1 increasing).1 possible.1
  refine ⟨server, delivered, sameText, ?_⟩
  rw [fresh.table_eq, sameSettings]
  rfl

/-- Two notifications about a text with a character of two units, the first with the
ends of one edit the wrong way round. -/
theorem deliver_inStep_surrogates :
    let text : Text := ['a', '😀', '\n', 'b']
    let notifications : List Notification :=
      [⟨3, [⟨⟨1, 6⟩, ['\n', 'é'], true⟩, ⟨⟨2, 4⟩, [], false⟩]⟩, ⟨7, [⟨⟨0, 3⟩, ['c'], true⟩]⟩]
    (1 :: notifications.map Notification.version).Pairwise (· < ·) ∧
      OwnEdit.Possible text (notifications.flatMap edits) ∧
      ∀ sent later, notifications = sent ++ later →
        ∃ server,
          deliver .utf16 text (Document.ofText ⟨.utf16, .strict⟩ 1 text) sent = .ok server ∧
          server.text = OwnEdit.applyAll text (sent.flatMap edits) ∧
          server.table = LineTable.ofText .utf16 server.text := by
  intro text notifications
  have increasing : (1 :: notifications.map Notification.version).Pairwise (· < ·) := by decide
  have possible : OwnEdit.Possible text (notifications.flatMap edits) := by decide
  exact ⟨increasing, possible,
    deliver_inStep ⟨.utf16, .strict⟩ 1 text notifications increasing possible⟩

end Notification

end LiveDocument
