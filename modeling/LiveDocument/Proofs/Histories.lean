import LiveDocument.Proofs.Freshness
import LiveDocument.Workspace.Request
import Mathlib.Data.List.Induction

/-!
# Workspaces over a run of requests

A request opens or closes a URI, or one document answers it and all others stay as
they are (`IsSound.document?_respond`). So the requests alone tell which document is
open under a URI: the one of its latest opening, unless it was closed since
(`find?_reached_iff`).
-/

namespace LiveDocument

namespace Workspace

variable {μ : Type} [OrderedMap μ Handle]

namespace Request

def isOpening : Request → Bool
  | openDocument .. => true
  | _ => false

/-- Whether the request opens or closes `uri`. -/
def rebinds (uri : String) : Request → Bool
  | openDocument other .. => other = uri
  | closeDocument other => other = uri
  | _ => false

theorem eq_of_rebinds {request : Request} {first second : String}
    (firstRebound : request.rebinds first = true)
    (secondRebound : request.rebinds second = true) : first = second := by
  cases request with
  | openDocument uri version text =>
      exact (of_decide_eq_true firstRebound).symm.trans (of_decide_eq_true secondRebound)
  | closeDocument uri =>
      exact (of_decide_eq_true firstRebound).symm.trans (of_decide_eq_true secondRebound)
  | _ => cases firstRebound

/-- What the request asks of the document under `handle`, if it goes there. -/
def forHandle? (workspace : Workspace μ) (handle : Handle) : Request → Option Document.Request
  | changeDocument uri version changes =>
      if workspace.find? uri = some handle then some (.update version changes) else none
  | direct other request => if other = handle then some request else none
  | _ => none

end Request

/-- What holds of every workspace that requests lead to. -/
structure IsSound (workspace : Workspace μ) : Prop where
  urisNodup : workspace.uris.Nodup
  bound : ∀ {uri handle}, workspace.find? uri = some handle →
    handle < workspace.documents.size
  apart : ∀ {first second handle}, workspace.find? first = some handle →
    workspace.find? second = some handle → first = second
  documents : ∀ {handle document}, workspace.document? handle = some document →
    document.IsFresh ∧ document.settings = workspace.settings

section Setting

omit [OrderedMap μ Handle]

variable {workspace : Workspace μ} {handle : Handle} {document : Document}

theorem lt_size_of_document? (known : workspace.document? handle = some document) :
    handle < workspace.documents.size :=
  (Array.getElem?_eq_some_iff.1 known).1

theorem document?_setDocument (known : workspace.document? handle = some document)
    (target : Handle) (next : Document) :
    (workspace.setDocument target next).document? handle =
      some (if target = handle then next else document) := by
  rw [document?, setDocument, Array.getElem?_setIfInBounds]
  split
  · subst target
    rw [if_pos (lt_size_of_document? known)]
  · exact known

theorem document?_setDocument_self (known : workspace.document? handle = some document)
    (next : Document) : (workspace.setDocument handle next).document? handle = some next := by
  rw [document?_setDocument known, if_pos rfl]

end Setting

section Change

variable {workspace : Workspace μ} {uri : String} {handle : Handle} {document : Document}

theorem lookUp?_of_find? (bound : workspace.find? uri = some handle)
    (known : workspace.document? handle = some document) :
    workspace.lookUp? uri = some (handle, document) := by
  rw [lookUp?, bound, Option.bind_some, known]
  rfl

theorem lookUp?_of_find?_eq_none (unbound : workspace.find? uri = none) :
    workspace.lookUp? uri = none := by
  rw [lookUp?, unbound]
  rfl

theorem respond_change_of_unbound (unbound : workspace.find? uri = none) (version : Int)
    (changes : List Change) :
    workspace.respond (.changeDocument uri version changes) =
      (.refused (.unknownDocument uri), workspace) := by
  rw [respond, changeDocument, lookUp?_of_find?_eq_none unbound]

theorem respond_change_of_accepts (bound : workspace.find? uri = some handle)
    (known : workspace.document? handle = some document) {version : Int}
    (accepts : document.settings.policy.accepts document.version version = true)
    (changes : List Change) :
    workspace.respond (.changeDocument uri version changes) =
      (.changed version,
        workspace.setDocument handle
          { document.applyAll changes with version := version }) := by
  rw [respond, changeDocument, lookUp?_of_find? bound known]
  simp only [Document.update_of_accepts accepts]

theorem respond_change_of_not_accepts (bound : workspace.find? uri = some handle)
    (known : workspace.document? handle = some document) {version : Int}
    (refuses : ¬ document.settings.policy.accepts document.version version = true)
    (changes : List Change) :
    workspace.respond (.changeDocument uri version changes) =
      (.refused (.staleVersion document.version version), workspace) := by
  rw [respond, changeDocument, lookUp?_of_find? bound known]
  simp only [Document.update_of_not_accepts refuses]

theorem respond_direct (known : workspace.document? handle = some document)
    (asked : Document.Request) :
    workspace.respond (.direct handle asked) =
      (.direct (document.respond asked).1,
        workspace.setDocument handle (document.respond asked).2) := by
  rw [respond, known]

end Change

/-! ## One request -/

/-- A request that neither opens nor closes at most sets a document. -/
theorem respond_eq_or_setDocument (workspace : Workspace μ) {request : Request}
    (quiet : ∀ uri, request.rebinds uri = false) :
    (workspace.respond request).2 = workspace ∨
      ∃ handle document,
        (workspace.respond request).2 = workspace.setDocument handle document := by
  cases request with
  | openDocument uri version text => exact absurd (quiet uri) (by simp [Request.rebinds])
  | closeDocument uri => exact absurd (quiet uri) (by simp [Request.rebinds])
  | changeDocument uri version changes =>
      rw [respond, changeDocument]
      rcases workspace.lookUp? uri with _ | ⟨handle, document⟩
      · exact .inl rfl
      · simp only
        cases document.update version changes with
        | error error => exact .inl rfl
        | ok updated => exact .inr ⟨handle, updated, rfl⟩
  | direct handle asked =>
      rw [respond]
      cases workspace.document? handle with
      | none => exact .inl rfl
      | some document => exact .inr ⟨handle, (document.respond asked).2, rfl⟩
  | _ => exact .inl rfl

theorem respond_frame (workspace : Workspace μ) {request : Request}
    (quiet : ∀ uri, request.rebinds uri = false) :
    (workspace.respond request).2.settings = workspace.settings ∧
      (workspace.respond request).2.bindings = workspace.bindings ∧
      (workspace.respond request).2.documents.size = workspace.documents.size := by
  rcases workspace.respond_eq_or_setDocument quiet with same | ⟨handle, document, set⟩
  · rw [same]
    exact ⟨rfl, rfl, rfl⟩
  · rw [set]
    exact ⟨rfl, rfl, Array.size_setIfInBounds⟩

theorem settings_respond (workspace : Workspace μ) (request : Request) :
    (workspace.respond request).2.settings = workspace.settings := by
  cases request with
  | openDocument uri version text => rfl
  | closeDocument uri => rfl
  | _ => exact (workspace.respond_frame fun _ => rfl).1

theorem size_documents_respond (workspace : Workspace μ) (request : Request) :
    (workspace.respond request).2.documents.size =
      workspace.documents.size + if request.isOpening then 1 else 0 := by
  cases request with
  | openDocument uri version text => exact Array.size_push _
  | closeDocument uri => rfl
  | _ => exact (workspace.respond_frame fun _ => rfl).2.2

theorem bindings_respond (workspace : Workspace μ) (request : Request) :
    (workspace.respond request).2.bindings =
      match request with
      | .openDocument uri _ _ => OrderedMap.insert workspace.bindings uri workspace.documents.size
      | .closeDocument uri => OrderedMap.erase workspace.bindings uri
      | _ => workspace.bindings := by
  cases request with
  | openDocument uri version text => rfl
  | closeDocument uri => rfl
  | _ => exact (workspace.respond_frame fun _ => rfl).2.1

theorem document?_respond_opening (workspace : Workspace μ) (uri : String) (version : Int)
    (text : Text) (handle : Handle) :
    (workspace.respond (.openDocument uri version text)).2.document? handle =
      if handle = workspace.documents.size then
        some (.ofText workspace.settings version text)
      else workspace.document? handle :=
  Array.getElem?_push

namespace IsSound

variable {workspace : Workspace μ} (sound : workspace.IsSound)

include sound

theorem exists_document {uri : String} {handle : Handle}
    (found : workspace.find? uri = some handle) :
    ∃ document, workspace.document? handle = some document :=
  ⟨_, Array.getElem?_eq_getElem (sound.bound found)⟩

/-- A document answers what is asked of it, and nothing else changes it. -/
theorem document?_respond {handle : Handle} {document : Document}
    (known : workspace.document? handle = some document) (request : Request) :
    (workspace.respond request).2.document? handle =
      some (match request.forHandle? workspace handle with
        | some asked => (document.respond asked).2
        | none => document) := by
  cases request with
  | openDocument uri version text =>
      have inRange := lt_size_of_document? known
      rw [document?_respond_opening, if_neg (Nat.ne_of_lt inRange)]
      exact known
  | changeDocument uri version changes =>
      rw [Request.forHandle?]
      cases found : workspace.find? uri with
      | none =>
          rw [respond_change_of_unbound found]
          exact known
      | some target =>
          obtain ⟨addressed, atTarget⟩ := sound.exists_document found
          by_cases accepts :
              addressed.settings.policy.accepts addressed.version version = true
          · rw [respond_change_of_accepts found atTarget accepts, document?_setDocument known]
            by_cases here : target = handle
            · subst target
              cases atTarget.symm.trans known
              simp only [if_true, Document.respond, Document.update_of_accepts accepts]
            · rw [if_neg here, if_neg (Option.some_inj.not.2 here)]
          · rw [respond_change_of_not_accepts found atTarget accepts, known]
            by_cases here : target = handle
            · subst target
              cases atTarget.symm.trans known
              simp only [if_true, Document.respond, Document.update_of_not_accepts accepts]
            · rw [if_neg (Option.some_inj.not.2 here)]
  | direct target asked =>
      rw [Request.forHandle?]
      cases found : workspace.document? target with
      | none =>
          have elsewhere : target ≠ handle := by
            rintro rfl
            cases found.symm.trans known
          rw [respond, found, if_neg elsewhere]
          exact known
      | some addressed =>
          rw [respond_direct found, document?_setDocument known]
          by_cases here : target = handle
          · subst target
            cases found.symm.trans known
            rw [if_pos rfl, if_pos rfl]
          · rw [if_neg here, if_neg here]
  | _ => exact known

variable [LawfulOrderedMap μ Handle]

theorem find?_respond (request : Request) (uri : String) :
    (workspace.respond request).2.find? uri =
      if request.rebinds uri then
        if request.isOpening then some workspace.documents.size else none
      else workspace.find? uri := by
  rw [find?, bindings_respond]
  cases request with
  | openDocument other version text =>
      rw [LawfulOrderedMap.find?_insert]
      simp only [Request.rebinds, Request.isOpening, decide_eq_true_eq, if_true]
      rfl
  | closeDocument other =>
      rw [LawfulOrderedMap.find?_erase sound.urisNodup]
      simp only [Request.rebinds, decide_eq_true_eq]
      rfl
  | _ => rfl

theorem find?_respond_eq_some_iff (request : Request) {uri : String} {handle : Handle} :
    (workspace.respond request).2.find? uri = some handle ↔
      request.rebinds uri = true ∧ request.isOpening = true ∧
          handle = workspace.documents.size ∨
        request.rebinds uri = false ∧ workspace.find? uri = some handle := by
  rw [sound.find?_respond]
  cases request.rebinds uri <;> cases request.isOpening <;> simp [eq_comm]

theorem respond (request : Request) : (workspace.respond request).2.IsSound where
  urisNodup := by
    have nodup : (OrderedMap.names workspace.bindings).Nodup := sound.urisNodup
    rw [uris, bindings_respond]
    cases request with
    | openDocument uri version text =>
        simp only [LawfulOrderedMap.names_insert]
        split
        · exact nodup
        · rename_i isNew
          exact List.nodup_append.2 ⟨nodup, by simp, by
            rintro first firstMember second secondMember rfl
            rw [List.mem_singleton.1 secondMember] at firstMember
            exact isNew firstMember⟩
    | closeDocument uri =>
        simp only [LawfulOrderedMap.names_erase]
        exact nodup.erase uri
    | _ => exact nodup
  bound found := by
    rw [size_documents_respond]
    rcases (sound.find?_respond_eq_some_iff request).1 found with
      ⟨_, opening, rfl⟩ | ⟨_, before⟩
    · rw [if_pos opening]
      exact Nat.lt_succ_self _
    · exact Nat.lt_of_lt_of_le (sound.bound before) (Nat.le_add_right _ _)
  apart firstFound secondFound := by
    rcases (sound.find?_respond_eq_some_iff request).1 firstFound with
      ⟨firstRebound, _, rfl⟩ | ⟨_, firstBefore⟩
    · rcases (sound.find?_respond_eq_some_iff request).1 secondFound with
        ⟨secondRebound, _, _⟩ | ⟨_, secondBefore⟩
      · exact Request.eq_of_rebinds firstRebound secondRebound
      · exact absurd (sound.bound secondBefore) (Nat.lt_irrefl _)
    · rcases (sound.find?_respond_eq_some_iff request).1 secondFound with
        ⟨_, _, rfl⟩ | ⟨_, secondBefore⟩
      · exact absurd (sound.bound firstBefore) (Nat.lt_irrefl _)
      · exact sound.apart firstBefore secondBefore
  documents {handle document} known := by
    rw [settings_respond]
    by_cases old : handle < workspace.documents.size
    · have before : workspace.document? handle = some workspace.documents[handle] :=
        Array.getElem?_eq_getElem old
      obtain ⟨fresh, sameSettings⟩ := sound.documents before
      rw [sound.document?_respond before] at known
      cases known
      split
      · exact ⟨fresh.respond _, (Document.settings_respond _ _).trans sameSettings⟩
      · exact ⟨fresh, sameSettings⟩
    · have inRange := lt_size_of_document? known
      rw [size_documents_respond] at inRange
      cases request with
      | openDocument uri version text =>
          rw [document?_respond_opening] at known
          split at known
          · cases known
            exact ⟨Document.isFresh_ofText _ _ _, rfl⟩
          · exact absurd (lt_size_of_document? known) old
      | _ => exact absurd inRange old

end IsSound

theorem find?_emptyOver [LawfulOrderedMap μ Handle] (settings : Settings) (uri : String) :
    (emptyOver μ settings).find? uri = none := by
  refine (LawfulOrderedMap.find?_eq_none_iff _ _).2 ?_
  rw [emptyOver, LawfulOrderedMap.names_empty]
  exact List.not_mem_nil

variable (μ) in
theorem isSound_emptyOver [LawfulOrderedMap μ Handle] (settings : Settings) :
    (emptyOver μ settings).IsSound where
  urisNodup := by
    rw [uris, emptyOver, LawfulOrderedMap.names_empty]
    exact List.nodup_nil
  bound found := by
    rw [find?_emptyOver] at found
    cases found
  apart found := by
    rw [find?_emptyOver] at found
    cases found
  documents found := nomatch found

/-! ## Runs -/

theorem run_cons (workspace : Workspace μ) (first : Request) (rest : List Request) :
    workspace.run (first :: rest) =
      ((workspace.respond first).1 :: ((workspace.respond first).2.run rest).1,
        ((workspace.respond first).2.run rest).2) := rfl

theorem run_append (workspace : Workspace μ) (first rest : List Request) :
    workspace.run (first ++ rest) =
      ((workspace.run first).1 ++ ((workspace.run first).2.run rest).1,
        ((workspace.run first).2.run rest).2) := by
  induction first generalizing workspace with
  | nil => rfl
  | cons next later ih =>
      rw [List.cons_append, run_cons, ih, run_cons]
      rfl

theorem length_run (workspace : Workspace μ) (requests : List Request) :
    (workspace.run requests).1.length = requests.length := by
  induction requests generalizing workspace with
  | nil => rfl
  | cons next later ih => rw [run_cons, List.length_cons, List.length_cons, ih]

/-- The reply to a request is the one of the workspace that the requests before it have
left. -/
theorem reply_run (workspace : Workspace μ) (earlier later : List Request)
    (request : Request) :
    (workspace.run (earlier ++ request :: later)).1[earlier.length]? =
      some ((workspace.run earlier).2.respond request).1 := by
  have length := length_run workspace earlier
  rw [run_append, ← length, List.getElem?_append_right (Nat.le_refl _), Nat.sub_self,
    run_cons]
  rfl

/-- The requests with the replies to them. -/
def exchanges (workspace : Workspace μ) (requests : List Request) : List (Request × Reply) :=
  requests.zip (workspace.run requests).1

theorem map_fst_exchanges (workspace : Workspace μ) (requests : List Request) :
    (workspace.exchanges requests).map Prod.fst = requests :=
  List.map_fst_zip (Nat.le_of_eq (length_run workspace requests).symm)

theorem exchanges_cons (workspace : Workspace μ) (first : Request) (rest : List Request) :
    workspace.exchanges (first :: rest) =
      (first, (workspace.respond first).1) :: (workspace.respond first).2.exchanges rest := rfl

theorem exchanges_append_singleton (workspace : Workspace μ) (requests : List Request)
    (request : Request) :
    workspace.exchanges (requests ++ [request]) =
      workspace.exchanges requests ++
        [(request, ((workspace.run requests).2.respond request).1)] := by
  have length := length_run workspace requests
  rw [exchanges, run_append, List.zip_append length.symm]
  rfl

/-- The workspace to which the requests lead from an empty one. -/
def reached (μ : Type) [OrderedMap μ Handle] (settings : Settings)
    (history : List Request) : Workspace μ :=
  ((emptyOver μ settings).run history).2

variable (μ)

theorem reached_append_singleton (settings : Settings) (history : List Request)
    (request : Request) :
    reached μ settings (history ++ [request]) =
      ((reached μ settings history).respond request).2 := by
  rw [reached, run_append]
  rfl

theorem isSound_reached [LawfulOrderedMap μ Handle] (settings : Settings) (history : List Request) :
    (reached μ settings history).IsSound := by
  induction history using List.reverseRecOn with
  | nil => exact isSound_emptyOver μ settings
  | append_singleton earlier request ih =>
      rw [reached_append_singleton]
      exact ih.respond request

theorem settings_reached (settings : Settings) (history : List Request) :
    (reached μ settings history).settings = settings := by
  induction history using List.reverseRecOn with
  | nil => rfl
  | append_singleton earlier request ih =>
      rw [reached_append_singleton, settings_respond, ih]

/-- The number of documents that the requests open, which is the handle of the next
one. -/
def openings (history : List Request) : Nat := history.countP Request.isOpening

/-- `handle` is that of the latest opening of `uri`, which was not closed since. -/
def OpenUnder (history : List Request) (uri : String) (handle : Handle) : Prop :=
  ∃ earlier version text later,
    history = earlier ++ .openDocument uri version text :: later ∧
      openings earlier = handle ∧
      ∀ request, request ∈ later → request.rebinds uri = false

/-- A history that ends with a request is cut at that request or before it. -/
theorem cut_append_singleton {history earlier later : List Request} {last request : Request}
    (split : history ++ [last] = earlier ++ request :: later) :
    history = earlier ∧ last = request ∧ later = [] ∨
      ∃ before, later = before ++ [last] ∧ history = earlier ++ request :: before := by
  rcases List.eq_nil_or_concat later with rfl | ⟨before, other, rfl⟩
  · obtain ⟨sameHistory, sameRequest⟩ := List.append_inj' split rfl
    exact .inl ⟨sameHistory, List.singleton_inj.1 sameRequest, rfl⟩
  · rw [List.concat_eq_append, ← List.cons_append, ← List.append_assoc] at split
    obtain ⟨sameHistory, sameRequest⟩ := List.append_inj' split rfl
    rw [List.concat_eq_append, List.singleton_inj.1 sameRequest]
    exact .inr ⟨before, rfl, sameHistory⟩

theorem openings_append_singleton (history : List Request) (request : Request) :
    openings (history ++ [request]) =
      openings history + if request.isOpening then 1 else 0 := by
  rw [openings, List.countP_append, List.countP_singleton]
  rfl

theorem not_openUnder_nil (uri : String) (handle : Handle) : ¬ OpenUnder [] uri handle := by
  rintro ⟨earlier, version, text, later, split, _⟩
  exact List.append_ne_nil_of_right_ne_nil earlier (List.cons_ne_nil _ later) split.symm

theorem openUnder_append_singleton (history : List Request) (request : Request)
    (uri : String) (handle : Handle) :
    OpenUnder (history ++ [request]) uri handle ↔
      request.rebinds uri = true ∧ request.isOpening = true ∧ handle = openings history ∨
        request.rebinds uri = false ∧ OpenUnder history uri handle := by
  constructor
  · rintro ⟨earlier, version, text, later, split, count, quiet⟩
    rcases cut_append_singleton split with ⟨rfl, rfl, rfl⟩ | ⟨before, rfl, rfl⟩
    · exact .inl ⟨decide_eq_true rfl, rfl, count.symm⟩
    · exact .inr ⟨quiet request (by simp),
        earlier, version, text, before, rfl, count, fun other member =>
          quiet other (List.mem_append_left _ member)⟩
  · rintro (⟨rebound, opening, rfl⟩ |
      ⟨notRebound, earlier, version, text, later, rfl, count, quiet⟩)
    · cases request with
      | openDocument other version text =>
          cases of_decide_eq_true rebound
          exact ⟨history, version, text, [], rfl, rfl, fun _ member => nomatch member⟩
      | _ => cases opening
    · refine ⟨earlier, version, text, later ++ [request], by simp, count, ?_⟩
      intro other member
      rcases List.mem_append.1 member with old | new
      · exact quiet other old
      · rw [List.mem_singleton.1 new]
        exact notRebound

theorem size_documents_reached (settings : Settings) (history : List Request) :
    (reached μ settings history).documents.size = openings history := by
  induction history using List.reverseRecOn with
  | nil => rfl
  | append_singleton earlier request ih =>
      rw [reached_append_singleton, size_documents_respond, ih, openings_append_singleton]

/-- What is found under a URI is the document of its latest opening, unless it was
closed since. -/
theorem find?_reached_iff [LawfulOrderedMap μ Handle] (settings : Settings)
    (history : List Request) (uri : String) (handle : Handle) :
    (reached μ settings history).find? uri = some handle ↔ OpenUnder history uri handle := by
  induction history using List.reverseRecOn generalizing handle with
  | nil =>
      have closed : (reached μ settings []).find? uri = none := find?_emptyOver settings uri
      refine iff_of_false (fun found => ?_) (not_openUnder_nil uri handle)
      cases closed.symm.trans found
  | append_singleton earlier request ih =>
      rw [reached_append_singleton,
        (isSound_reached μ settings earlier).find?_respond_eq_some_iff,
        openUnder_append_singleton, size_documents_reached, ih]

end Workspace

end LiveDocument
