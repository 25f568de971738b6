import LiveDocument.Proofs.Histories

/-!
# Requests about different URIs

Seen from one URI, a workspace does what the requests about that URI alone would make
it do (`exchanges_alone`). So it does not matter how requests about different URIs are
interleaved (`interleaving_agrees`).
-/

namespace LiveDocument

namespace Workspace

/-- The URI that the request is about, if it is about one. -/
def Request.uri? : Request → Option String
  | .openDocument uri .. => some uri
  | .changeDocument uri .. => some uri
  | .closeDocument uri => some uri
  | .lookUp uri => some uri
  | .contains uri => some uri
  | _ => none

def about (uri : String) (requests : List Request) : List Request :=
  requests.filter fun request => request.uri? = some uri

/-- The reply without its handle. Handles count the documents of all URIs. -/
def Reply.anonymous : Reply → Reply
  | .opened _ => .opened 0
  | .found _ version text => .found 0 version text
  | reply => reply

def repliesAbout (uri : String) (exchanges : List (Request × Reply)) : List Reply :=
  (exchanges.filter fun exchange => exchange.1.uri? = some uri).map fun exchange =>
    exchange.2.anonymous

variable {μ : Type} [OrderedMap μ Handle]

def openDocument? (workspace : Workspace μ) (uri : String) : Option Document :=
  (workspace.lookUp? uri).map Prod.snd

theorem openDocument?_of_find? {workspace : Workspace μ} {uri : String} {handle : Handle}
    {document : Document} (found : workspace.find? uri = some handle)
    (known : workspace.document? handle = some document) :
    workspace.openDocument? uri = some document := by
  rw [openDocument?, lookUp?_of_find? found known]
  rfl

theorem about_cons (uri : String) (request : Request) (rest : List Request) :
    about uri (request :: rest) =
      if request.uri? = some uri then request :: about uri rest else about uri rest := by
  rw [about, List.filter_cons]
  simp only [decide_eq_true_eq]
  rfl

theorem repliesAbout_cons (uri : String) (request : Request) (reply : Reply)
    (rest : List (Request × Reply)) :
    repliesAbout uri ((request, reply) :: rest) =
      if request.uri? = some uri then reply.anonymous :: repliesAbout uri rest
      else repliesAbout uri rest := by
  rw [repliesAbout, List.filter_cons]
  simp only [decide_eq_true_eq]
  split <;> rfl

theorem anonymous_ofLookUp (known : Option (Handle × Document)) :
    (Reply.ofLookUp known).anonymous = .ofLookUp ((known.map Prod.snd).map (0, ·)) := by
  cases known <;> rfl

section Alone

variable (settings : Settings)

/-- What a request about a URI comes to when `file` is open under it. -/
def respondAlone (file : Option Document) : Request → Reply × Option Document
  | .openDocument _ version text => (.opened 0, some (.ofText settings version text))
  | .changeDocument uri version changes =>
      match file with
      | none => (.refused (.unknownDocument uri), none)
      | some document =>
          match document.update version changes with
          | .ok updated => (.changed version, some updated)
          | .error error => (.refused error, some document)
  | .closeDocument _ => (.ofLookUp (file.map (0, ·)), none)
  | .lookUp _ => (.ofLookUp (file.map (0, ·)), file)
  | .contains _ => (.verdict file.isSome, file)
  | _ => (.notFound, file)

def runAlone : Option Document → List Request → List Reply × Option Document
  | file, [] => ([], file)
  | file, first :: rest =>
      let (reply, next) := respondAlone settings file first
      let (replies, last) := runAlone next rest
      (reply :: replies, last)

theorem runAlone_cons (file : Option Document) (first : Request) (rest : List Request) :
    runAlone settings file (first :: rest) =
      ((respondAlone settings file first).1 ::
          (runAlone settings (respondAlone settings file first).2 rest).1,
        (runAlone settings (respondAlone settings file first).2 rest).2) := rfl

end Alone

namespace IsSound

variable {workspace : Workspace μ} (sound : workspace.IsSound)

include sound

theorem openDocument?_eq_none_iff (uri : String) :
    workspace.openDocument? uri = none ↔ workspace.find? uri = none := by
  cases found : workspace.find? uri with
  | none => simp [openDocument?, lookUp?_of_find?_eq_none found]
  | some handle =>
      obtain ⟨document, known⟩ := sound.exists_document found
      simp [openDocument?, lookUp?_of_find? found known]

theorem isSome_openDocument? (uri : String) :
    (workspace.openDocument? uri).isSome = workspace.contains uri := by
  rw [Bool.eq_iff_iff, Option.isSome_iff_ne_none, Ne, sound.openDocument?_eq_none_iff]
  exact Option.isSome_iff_ne_none.symm

variable [LawfulOrderedMap μ Handle]

/-- A request about another URI does not touch the document that is open. -/
theorem openDocument?_respond_of_ne {request : Request} {other uri : String}
    (about : request.uri? = some other) (different : other ≠ uri) :
    (workspace.respond request).2.openDocument? uri = workspace.openDocument? uri := by
  have notRebound : request.rebinds uri = false := by
    cases request <;> cases about <;> simp [Request.rebinds, different]
  have sameHandle : (workspace.respond request).2.find? uri = workspace.find? uri := by
    rw [sound.find?_respond, notRebound]
    rfl
  cases found : workspace.find? uri with
  | none =>
      rw [(sound.openDocument?_eq_none_iff uri).2 found,
        (sound.respond request).openDocument?_eq_none_iff, sameHandle, found]
  | some handle =>
      obtain ⟨document, known⟩ := sound.exists_document found
      have notAsked : request.forHandle? workspace handle = none := by
        cases request with
        | changeDocument target version changes =>
            cases about
            exact if_neg fun same => different (sound.apart same found)
        | direct target asked => cases about
        | _ => rfl
      have kept := sound.document?_respond known request
      rw [notAsked] at kept
      rw [openDocument?_of_find? found known, openDocument?_of_find? (sameHandle.trans found) kept]

/-- A request about a URI comes to what the document that is open there alone tells. -/
theorem respond_alone {request : Request} {uri : String} (about : request.uri? = some uri) :
    ((workspace.respond request).1.anonymous, (workspace.respond request).2.openDocument? uri) =
      respondAlone workspace.settings (workspace.openDocument? uri) request := by
  cases request with
  | openDocument target version text =>
      cases about
      have bound :
          (workspace.respond (.openDocument uri version text)).2.find? uri =
            some workspace.documents.size := by
        rw [sound.find?_respond, Request.rebinds, decide_eq_true rfl]
        rfl
      rw [openDocument?_of_find? bound ((document?_respond_opening ..).trans (if_pos rfl))]
      rfl
  | changeDocument target version changes =>
      cases about
      cases found : workspace.find? uri with
      | none =>
          rw [respond_change_of_unbound found, (sound.openDocument?_eq_none_iff uri).2 found]
          rfl
      | some handle =>
          obtain ⟨document, known⟩ := sound.exists_document found
          rw [openDocument?_of_find? found known, respondAlone]
          by_cases accepts :
              document.settings.policy.accepts document.version version = true
          · simp only [respond_change_of_accepts found known accepts,
              Document.update_of_accepts accepts]
            have changed := document?_setDocument_self known
              { document.applyAll changes with version := version }
            have stillFound : (workspace.setDocument handle
                { document.applyAll changes with version := version }).find? uri =
                  some handle := found
            rw [openDocument?_of_find? stillFound changed]
            rfl
          · simp only [respond_change_of_not_accepts found known accepts,
              Document.update_of_not_accepts accepts, openDocument?_of_find? found known]
            rfl
  | closeDocument target =>
      cases about
      have unbound : (workspace.respond (.closeDocument uri)).2.find? uri = none := by
        rw [sound.find?_respond, Request.rebinds, decide_eq_true rfl]
        rfl
      rw [((sound.respond _).openDocument?_eq_none_iff uri).2 unbound, Workspace.respond,
        anonymous_ofLookUp]
      rfl
  | lookUp target =>
      cases about
      rw [Workspace.respond, anonymous_ofLookUp]
      rfl
  | contains target =>
      cases about
      rw [Workspace.respond, respondAlone, sound.isSome_openDocument?]
      rfl
  | _ => cases about

end IsSound

/-- Seen from one URI, a run is the one of the requests about it. -/
theorem exchanges_alone [LawfulOrderedMap μ Handle] {workspace : Workspace μ}
    (sound : workspace.IsSound) (uri : String) {requests : List Request}
    (eachAbout : ∀ request ∈ requests, request.uri?.isSome) :
    (repliesAbout uri (workspace.exchanges requests),
        (workspace.run requests).2.openDocument? uri) =
      runAlone workspace.settings (workspace.openDocument? uri) (about uri requests) := by
  induction requests generalizing workspace with
  | nil => rfl
  | cons request rest ih =>
      have restAlone := ih (sound.respond request) fun other member =>
        eachAbout other (List.mem_cons_of_mem _ member)
      rw [settings_respond] at restAlone
      obtain ⟨target, isAbout⟩ := Option.isSome_iff_exists.1 (eachAbout request (by simp))
      rw [exchanges_cons, run_cons]
      by_cases here : request.uri? = some uri
      · have firstAlone := sound.respond_alone here
        rw [repliesAbout_cons, if_pos here, about_cons, if_pos here, runAlone_cons,
          ← firstAlone, ← restAlone]
      · have elsewhere : target ≠ uri := fun same => here (same ▸ isAbout)
        rw [repliesAbout_cons, if_neg here, about_cons, if_neg here, restAlone,
          sound.openDocument?_respond_of_ne isAbout elsewhere]

/-- Two runs with the same requests about each URI give the same replies about it, and
leave the same document open under it, or none, whichever ordered map keeps the handles. -/
theorem interleaving_agrees (μ : Type) [OrderedMap μ Handle] [LawfulOrderedMap μ Handle]
    (settings : Settings) {first second : List Request}
    (firstAbout : ∀ request ∈ first, request.uri?.isSome)
    (secondAbout : ∀ request ∈ second, request.uri?.isSome)
    (sameAbout : ∀ uri, about uri first = about uri second) (uri : String) :
    repliesAbout uri ((emptyOver μ settings).exchanges first) =
        repliesAbout uri ((emptyOver μ settings).exchanges second) ∧
      ((∃ firstHandle secondHandle document,
          (reached μ settings first).lookUp? uri = some (firstHandle, document) ∧
            (reached μ settings second).lookUp? uri = some (secondHandle, document)) ∨
        (reached μ settings first).contains uri = false ∧
          (reached μ settings second).contains uri = false) := by
  have firstAlone := exchanges_alone (isSound_emptyOver μ settings) uri firstAbout
  have secondAlone := exchanges_alone (isSound_emptyOver μ settings) uri secondAbout
  rw [sameAbout, ← secondAlone] at firstAlone
  obtain ⟨sameReplies, sameDocument⟩ := Prod.mk.inj firstAlone
  refine ⟨sameReplies, ?_⟩
  cases isOpen : (reached μ settings first).openDocument? uri with
  | none =>
      have isOpen' : (reached μ settings second).openDocument? uri = none := sameDocument ▸ isOpen
      rw [← (isSound_reached μ settings first).isSome_openDocument?,
        ← (isSound_reached μ settings second).isSome_openDocument?, isOpen, isOpen']
      exact .inr ⟨rfl, rfl⟩
  | some document =>
      have isOpen' : (reached μ settings second).openDocument? uri = some document :=
        sameDocument ▸ isOpen
      obtain ⟨⟨firstHandle, _⟩, firstKnown, rfl⟩ := Option.map_eq_some_iff.1 isOpen
      obtain ⟨⟨secondHandle, _⟩, secondKnown, rfl⟩ := Option.map_eq_some_iff.1 isOpen'
      exact .inl ⟨firstHandle, secondHandle, _, firstKnown, secondKnown⟩

/-- A document that is closed and opened again, and another one with a change that comes
too late, one after the other and side by side. -/
theorem interleaving_agrees_two_files :
    let settings : Settings := ⟨.utf16, .strict⟩
    let insertion : Change := .within ⟨⟨0, 1⟩, ⟨0, 1⟩⟩ ['é']
    let first : List Request :=
      [.openDocument "a" 1 ['x'], .changeDocument "a" 2 [insertion], .closeDocument "a",
        .openDocument "a" 7 ['z'], .openDocument "b" 1 ['y'], .changeDocument "b" 1 [],
        .changeDocument "b" 4 [insertion]]
    let second : List Request :=
      [.openDocument "b" 1 ['y'], .openDocument "a" 1 ['x'], .changeDocument "b" 1 [],
        .changeDocument "a" 2 [insertion], .closeDocument "a",
        .changeDocument "b" 4 [insertion], .openDocument "a" 7 ['z']]
    let workspace := emptyOver (Registry Handle) settings
    let firstReached := reached (Registry Handle) settings first
    let secondReached := reached (Registry Handle) settings second
    repliesAbout "a" (workspace.exchanges second) =
        [.opened 0, .changed 2, .found 0 2 ['x', 'é'], .opened 0] ∧
      repliesAbout "b" (workspace.exchanges second) =
        [.opened 0, .refused (.staleVersion 1 1), .changed 4] ∧
      firstReached.uris ≠ secondReached.uris ∧
      ∃ firstHandle secondHandle document,
        firstReached.lookUp? "b" = some (firstHandle, document) ∧
          secondReached.lookUp? "b" = some (secondHandle, document) := by
  intro settings insertion first second workspace firstReached secondReached
  have sameAbout (uri : String) : about uri first = about uri second := by
    by_cases isA : "a" = uri
    · subst isA
      decide +kernel
    by_cases isB : "b" = uri
    · subst isB
      decide +kernel
    simp [first, second, about, Request.uri?, isA, isB]
  have firstAbout : ∀ request ∈ first, request.uri?.isSome := by decide
  have secondAbout : ∀ request ∈ second, request.uri?.isSome := by decide
  have agree := interleaving_agrees (Registry Handle) settings firstAbout secondAbout sameAbout
  obtain ⟨repliesA, _⟩ := agree "a"
  obtain ⟨repliesB, inBoth | ⟨closed, _⟩⟩ := agree "b"
  · refine ⟨?_, ?_, by decide +kernel, inBoth⟩
    · rw [← repliesA]
      decide +kernel
    · rw [← repliesB]
      decide +kernel
  · exact absurd closed (by decide +kernel)

end Workspace

end LiveDocument
