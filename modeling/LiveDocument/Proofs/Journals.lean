import LiveDocument.Proofs.Histories
import LiveDocument.Proofs.Refinement

/-!
# Journals of documents

The journal of a handle lists the changes that were accepted for its document: those of
its URI while it was the open document there, and those sent to the document itself.
Whatever a client sends in whatever order, each document is what its journal makes of
the text that it was opened with (`plain_document?_reached`).
-/

namespace LiveDocument

/-- Changes of a document that were accepted together, and the version that they lead to
unless it stays as it was. -/
structure JournalEntry where
  version? : Option Int
  changes : List Change
deriving DecidableEq, Repr

namespace PlainDocument

def enter (document : PlainDocument) (entry : JournalEntry) : PlainDocument :=
  { document.applyAll entry.changes with
    version := entry.version?.getD document.version }

end PlainDocument

namespace Document

/-- What a request and its reply put into the journal of the document. -/
def Request.recorded? : Request → Reply → Option JournalEntry
  | .update received changes, .done => some ⟨some received, changes⟩
  | .apply change, .done => some ⟨none, [change]⟩
  | _, _ => none

/-- A request changes a document as its journal says, and not at all if it puts nothing
into it. -/
theorem IsFresh.plain_respond {document : Document} (fresh : document.IsFresh)
    (request : Request) :
    (document.respond request).2.plain =
      (request.recorded? (document.respond request).1).toList.foldl PlainDocument.enter
        document.plain := by
  cases request with
  | update version changes =>
      by_cases accepts : document.settings.policy.accepts document.version version = true
      · rw [Document.respond, update_of_accepts accepts]
        simp only [Request.recorded?, Option.toList_some, List.foldl_cons, List.foldl_nil,
          PlainDocument.enter, fresh.applyAll_plain]
        rfl
      · rw [Document.respond, update_of_not_accepts accepts]
        rfl
  | apply change =>
      have sameVersion : (document.apply change).plain =
          { (document.apply change).plain with version := document.version } := by
        rw [← document.version_apply change]
        rfl
      simp only [Document.respond, Request.recorded?, Option.toList_some, List.foldl_cons,
        List.foldl_nil, PlainDocument.enter, fresh.applyAll_plain, Option.getD_none]
      exact sameVersion
  | read range? => cases range? <;> rfl
  | _ => rfl

end Document

namespace Workspace

variable {μ : Type} [OrderedMap μ Handle]

instance (history : List Request) (uri : String) (handle : Handle) :
    Decidable (OpenUnder history uri handle) :=
  decidable_of_iff ((reached (Registry Handle) default history).find? uri = some handle)
    (find?_reached_iff (Registry Handle) default history uri handle)

/-! ## Journals -/

/-- What an exchange after the requests `earlier` puts into the journal of `handle`: an
accepted change of the URI under which it is open, or of the document itself. -/
def recorded? (handle : Handle) (earlier : List Request) : Request × Reply → Option JournalEntry
  | (.changeDocument uri version changes, .changed _) =>
      if OpenUnder earlier uri handle then some ⟨some version, changes⟩ else none
  | (.direct other request, .direct reply) =>
      if other = handle then request.recorded? reply else none
  | _ => none

/-- The entries for `handle` in the order of the exchanges, which come after the requests
`earlier`. -/
def entries (handle : Handle) : List Request → List (Request × Reply) → List JournalEntry
  | _, [] => []
  | earlier, exchange :: later =>
      (recorded? handle earlier exchange).toList ++
        entries handle (earlier ++ [exchange.1]) later

/-- The changes that a run from an empty workspace has accepted for the document under
`handle`. -/
def journal (μ : Type) [OrderedMap μ Handle] (settings : Settings) (history : List Request)
    (handle : Handle) : List JournalEntry :=
  entries handle [] ((emptyOver μ settings).exchanges history)

theorem entries_append_singleton (handle : Handle) (earlier : List Request)
    (exchanges : List (Request × Reply)) (last : Request × Reply) :
    entries handle earlier (exchanges ++ [last]) =
      entries handle earlier exchanges ++
        (recorded? handle (earlier ++ exchanges.map Prod.fst) last).toList := by
  induction exchanges generalizing earlier with
  | nil => simp [entries]
  | cons first rest ih => simp [entries, ih]

theorem journal_append_singleton (settings : Settings) (history : List Request)
    (request : Request) (handle : Handle) :
    journal μ settings (history ++ [request]) handle =
      journal μ settings history handle ++
        (recorded? handle history
          (request, ((reached μ settings history).respond request).1)).toList := by
  rw [journal, exchanges_append_singleton, entries_append_singleton, map_fst_exchanges]
  rfl

theorem recorded?_change_of_not_openUnder {handle : Handle} {history : List Request}
    {uri : String} (elsewhere : ¬ OpenUnder history uri handle) (version : Int)
    (changes : List Change) (reply : Reply) :
    recorded? handle history (.changeDocument uri version changes, reply) = none := by
  cases reply with
  | changed received => exact if_neg elsewhere
  | _ => rfl

theorem recorded?_direct_of_ne {handle target : Handle} (elsewhere : target ≠ handle)
    (history : List Request) (asked : Document.Request) (reply : Reply) :
    recorded? handle history (.direct target asked, reply) = none := by
  cases reply with
  | direct answer => exact if_neg elsewhere
  | _ => rfl

variable [LawfulOrderedMap μ Handle]

/-- A request changes a document of a workspace as its journal says, and not at all if
it puts nothing into it. -/
theorem plain_document?_respond {settings : Settings} {history : List Request}
    {handle : Handle} {document : Document}
    (known : (reached μ settings history).document? handle = some document)
    (request : Request) :
    (((reached μ settings history).respond request).2.document? handle).map Document.plain =
      some ((recorded? handle history
          (request, ((reached μ settings history).respond request).1)).toList.foldl
        PlainDocument.enter document.plain) := by
  have sound := isSound_reached μ settings history
  have fresh := (sound.documents known).1
  rw [sound.document?_respond known, Option.map_some, Option.some_inj]
  cases request with
  | changeDocument uri version changes =>
      have bound := find?_reached_iff μ settings history uri handle
      rw [Request.forHandle?]
      by_cases here : (reached μ settings history).find? uri = some handle
      · rw [if_pos here]
        by_cases accepts : document.settings.policy.accepts document.version version = true
        · have answered := fresh.plain_respond (.update version changes)
          rw [Document.respond, Document.update_of_accepts accepts] at answered
          rw [respond_change_of_accepts here known accepts, recorded?, if_pos (bound.1 here)]
          simp only [Document.respond, Document.update_of_accepts accepts]
          exact answered
        · rw [respond_change_of_not_accepts here known accepts]
          simp only [Document.respond, Document.update_of_not_accepts accepts]
          rfl
      · rw [if_neg here, recorded?_change_of_not_openUnder fun under => here (bound.2 under)]
        rfl
  | direct target asked =>
      rw [Request.forHandle?]
      by_cases here : target = handle
      · subst target
        rw [if_pos rfl, respond_direct known, recorded?, if_pos rfl]
        exact fresh.plain_respond asked
      · rw [if_neg here, recorded?_direct_of_ne here]
        rfl
  | _ => rfl

/-- Nothing is in the journal of a handle before its document is opened. -/
theorem journal_eq_nil {settings : Settings} {history : List Request} {handle : Handle}
    (unopened : openings history ≤ handle) : journal μ settings history handle = [] := by
  induction history using List.reverseRecOn with
  | nil => rfl
  | append_singleton earlier request ih =>
      rw [openings_append_singleton] at unopened
      have before : openings earlier ≤ handle := Nat.le_of_add_right_le unopened
      have sound := isSound_reached μ settings earlier
      have size := size_documents_reached μ settings earlier
      rw [journal_append_singleton, ih before, List.nil_append]
      cases request with
      | changeDocument uri version changes =>
          have elsewhere : ¬ OpenUnder earlier uri handle := by
            intro under
            have inRange := sound.bound ((find?_reached_iff μ settings _ _ _).2 under)
            exact Nat.not_le.2 (size ▸ inRange) before
          rw [recorded?_change_of_not_openUnder elsewhere]
          rfl
      | direct target asked =>
          by_cases here : target = handle
          · have unknown : (reached μ settings earlier).document? target = none :=
              Array.getElem?_eq_none (size ▸ here ▸ before)
            rw [respond, unknown]
            rfl
          · rw [recorded?_direct_of_ne here]
            rfl
      | _ => rfl

/-- Every document is what its journal makes of the text and version that it was opened
with. -/
theorem plain_document?_reached (settings : Settings) {earlier later : List Request}
    {uri : String} {version : Int} {text : Text} :
    ((reached μ settings (earlier ++ .openDocument uri version text :: later)).document?
        (openings earlier)).map Document.plain =
      some ((journal μ settings (earlier ++ .openDocument uri version text :: later)
          (openings earlier)).foldl PlainDocument.enter
        (.ofText settings version text)) := by
  induction later using List.reverseRecOn with
  | nil =>
      have size := size_documents_reached μ settings earlier
      rw [reached_append_singleton, document?_respond_opening, if_pos size.symm,
        settings_reached, journal_append_singleton, journal_eq_nil (Nat.le_refl _)]
      rfl
  | append_singleton before request ih =>
      obtain ⟨document, known, same⟩ := Option.map_eq_some_iff.1 ih
      rw [← List.cons_append, ← List.append_assoc, reached_append_singleton,
        plain_document?_respond known, journal_append_singleton, List.foldl_append, same]

/-! ## Replies about a URI -/

theorem openUnder_iff_eq {settings : Settings} {history : List Request} {uri : String}
    {handle : Handle} (found : (reached μ settings history).find? uri = some handle)
    (other : Handle) : OpenUnder history uri other ↔ other = handle := by
  rw [← find?_reached_iff μ settings, found, Option.some_inj, eq_comm]

theorem not_openUnder {settings : Settings} {history : List Request} {uri : String}
    (unbound : (reached μ settings history).find? uri = none) (handle : Handle) :
    ¬ OpenUnder history uri handle := by
  rw [← find?_reached_iff μ settings, unbound]
  exact nofun

/-- Looking up a URI and closing it give the document that is open under it. -/
theorem ofLookUp_reached (settings : Settings) (history : List Request) (uri : String) :
    (∃ handle document, OpenUnder history uri handle ∧
        (reached μ settings history).document? handle = some document ∧
        Reply.ofLookUp ((reached μ settings history).lookUp? uri) =
          .found handle document.version document.text) ∨
      (∀ handle, ¬ OpenUnder history uri handle) ∧
        Reply.ofLookUp ((reached μ settings history).lookUp? uri) = .notFound := by
  cases found : (reached μ settings history).find? uri with
  | none =>
      refine .inr ⟨not_openUnder found, ?_⟩
      rw [lookUp?_of_find?_eq_none found]
      rfl
  | some handle =>
      obtain ⟨document, known⟩ := (isSound_reached μ settings history).exists_document found
      refine .inl ⟨handle, document, (openUnder_iff_eq found handle).2 rfl, known, ?_⟩
      rw [lookUp?_of_find? found known]
      rfl

/-- What a change of a URI comes to after some requests, with the reply to it and the
workspace after it. -/
structure ChangeOutcome (settings : Settings) (history : List Request) (uri : String)
    (version : Int) (reply : Reply) (next : Workspace μ) : Prop where
  unknown_iff : reply = .refused (.unknownDocument uri) ↔
    ∀ handle, ¬ OpenUnder history uri handle
  stale_iff : ∀ current, reply = .refused (.staleVersion current version) ↔
    ∃ handle document, OpenUnder history uri handle ∧
      (reached μ settings history).document? handle = some document ∧
      document.version = current ∧ settings.policy.accepts current version = false
  refused : ∀ error, reply = .refused error →
    next = reached μ settings history ∧
      (error = .unknownDocument uri ∨ ∃ current, error = .staleVersion current version)
  accepted : (∀ error, reply ≠ .refused error) →
    reply = .changed version ∧
      ∃ handle document, OpenUnder history uri handle ∧
        next.document? handle = some document ∧ document.version = version

theorem changeOutcome_reached (settings : Settings) (history : List Request) (uri : String)
    (version : Int) (changes : List Change) :
    ChangeOutcome settings history uri version
      ((reached μ settings history).respond (.changeDocument uri version changes)).1
      ((reached μ settings history).respond (.changeDocument uri version changes)).2 := by
  have sound := isSound_reached μ settings history
  cases found : (reached μ settings history).find? uri with
  | none =>
      have closed := not_openUnder found
      rw [respond_change_of_unbound found]
      exact
        { unknown_iff := iff_of_true rfl closed
          stale_iff := fun current => iff_of_false nofun
            fun ⟨handle, _, under, _⟩ => closed handle under
          refused := by
            rintro error ⟨⟩
            exact ⟨rfl, .inl rfl⟩
          accepted := fun notRefused => absurd rfl (notRefused _) }
  | some handle =>
      obtain ⟨document, known⟩ := sound.exists_document found
      have onlyHandle := openUnder_iff_eq found
      have isOpen := (onlyHandle handle).2 rfl
      have samePolicy : document.settings.policy = settings.policy := by
        rw [(sound.documents known).2, settings_reached]
      by_cases accepts : document.settings.policy.accepts document.version version = true
      · rw [respond_change_of_accepts found known accepts]
        refine
          { unknown_iff := iff_of_false nofun fun closed => closed handle isOpen
            stale_iff := fun current => iff_of_false nofun ?_
            refused := nofun
            accepted := fun _ => ⟨rfl, handle, _, isOpen,
              document?_setDocument_self known _, rfl⟩ }
        rintro ⟨other, addressed, under, knownOther, rfl, refuses⟩
        cases (onlyHandle other).1 under
        cases known.symm.trans knownOther
        rw [← samePolicy, accepts] at refuses
        cases refuses
      · rw [respond_change_of_not_accepts found known accepts]
        refine
          { unknown_iff := iff_of_false nofun fun closed => closed handle isOpen
            stale_iff := fun current => ⟨?_, ?_⟩
            refused := by
              rintro error ⟨⟩
              exact ⟨rfl, .inr ⟨_, rfl⟩⟩
            accepted := fun notRefused => absurd rfl (notRefused _) }
        · rintro ⟨⟩
          rw [samePolicy] at accepts
          exact ⟨handle, document, isOpen, known, rfl, Bool.eq_false_iff.2 accepts⟩
        · rintro ⟨other, addressed, under, knownOther, rfl, _⟩
          cases (onlyHandle other).1 under
          cases known.symm.trans knownOther
          rfl

/-- After any requests, each document is what its journal makes of the text that it was
opened with, under a URI there is the document of the latest opening unless it was
closed since, and a change of a URI is either recorded in full or leaves everything as it
was. So it is with each reply in a run, whichever ordered map keeps the handles. -/
theorem reached_bookkeeping (μ : Type) [OrderedMap μ Handle] [LawfulOrderedMap μ Handle]
    (settings : Settings) (history : List Request) :
    (∀ earlier uri version text later,
        history = earlier ++ .openDocument uri version text :: later →
          ((reached μ settings history).document? (openings earlier)).map Document.plain =
            some ((journal μ settings history (openings earlier)).foldl PlainDocument.enter
              (.ofText settings version text))) ∧
      (∀ uri version text,
        ((reached μ settings history).respond (.openDocument uri version text)).1 =
          .opened (openings history)) ∧
      (∀ uri request, request = .lookUp uri ∨ request = .closeDocument uri →
        (∃ handle document, OpenUnder history uri handle ∧
            (reached μ settings history).document? handle = some document ∧
            ((reached μ settings history).respond request).1 =
              .found handle document.version document.text) ∨
          (∀ handle, ¬ OpenUnder history uri handle) ∧
            ((reached μ settings history).respond request).1 = .notFound) ∧
      (∀ uri version changes, ChangeOutcome settings history uri version
        ((reached μ settings history).respond (.changeDocument uri version changes)).1
        ((reached μ settings history).respond (.changeDocument uri version changes)).2) ∧
      ∀ request later,
        ((emptyOver μ settings).run (history ++ request :: later)).1[history.length]? =
          some ((reached μ settings history).respond request).1 := by
  refine ⟨?_, ?_, ?_, changeOutcome_reached settings history, fun request later =>
    reply_run (emptyOver μ settings) history later request⟩
  · rintro earlier uri version text later rfl
    exact plain_document?_reached settings
  · intro uri version text
    rw [← size_documents_reached μ settings]
    rfl
  · rintro uri request (rfl | rfl)
    · exact ofLookUp_reached settings history uri
    · exact ofLookUp_reached settings history uri

/-- A document that is changed behind the back of the workspace, replaced, changed again
under its handle, and a last change that comes after closing. -/
theorem reached_bookkeeping_behind_reopening :
    let settings : Settings := ⟨.utf16, .strict⟩
    let insertion : Change := .within ⟨⟨0, 1⟩, ⟨0, 1⟩⟩ ['é']
    let history : List Request :=
      [.openDocument "a" 1 ['x'], .direct 0 (.update 5 [insertion]),
        .changeDocument "a" 3 [.full []], .openDocument "a" 1 ['y'],
        .direct 0 (.apply (.full ['z'])), .changeDocument "a" 2 [insertion]]
    let journal := journal (Registry Handle) settings history
    let workspace := reached (Registry Handle) settings history
    let closed := reached (Registry Handle) settings (history ++ [.closeDocument "a"])
    journal 0 = [⟨some 5, [insertion]⟩, ⟨none, [.full ['z']]⟩] ∧
      journal 1 = [⟨some 2, [insertion]⟩] ∧
      (workspace.document? 0).map Document.plain = some ⟨5, ['z'], settings⟩ ∧
      (workspace.document? 1).map Document.plain = some ⟨2, ['y', 'é'], settings⟩ ∧
      (workspace.respond (.closeDocument "a")).1 = .found 1 2 ['y', 'é'] ∧
      (closed.respond (.changeDocument "a" 3 [])).1 = .refused (.unknownDocument "a") := by
  intro settings insertion history journal workspace closed
  obtain ⟨documents, _⟩ := reached_bookkeeping (Registry Handle) settings history
  obtain ⟨_, _, _, afterClosing, _⟩ :=
    reached_bookkeeping (Registry Handle) settings (history ++ [.closeDocument "a"])
  have first : journal 0 = [⟨some 5, [insertion]⟩, ⟨none, [.full ['z']]⟩] := by
    decide +kernel
  have second : journal 1 = [⟨some 2, [insertion]⟩] := by decide +kernel
  refine ⟨first, second, ?_, ?_, by decide +kernel, ?_⟩
  · refine (documents [] "a" 1 ['x'] _ rfl).trans ?_
    change some (List.foldl _ _ (journal 0)) = _
    rw [first]
    decide +kernel
  · refine (documents (history.take 3) "a" 1 ['y'] _ rfl).trans ?_
    change some (List.foldl _ _ (journal 1)) = _
    rw [second]
    decide +kernel
  · have unbound : closed.find? "a" = none := by decide +kernel
    exact ((afterClosing "a" 3 []).unknown_iff).2 (not_openUnder unbound)

end Workspace

end LiveDocument
