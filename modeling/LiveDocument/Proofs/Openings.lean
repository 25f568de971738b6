import LiveDocument.Proofs.Histories
import Mathlib.Logic.ExistsUnique

/-!
# The order of open URIs

A URI is opened by the first opening since it was last closed; opening it again while it
is open does not count. A workspace lists the open URIs in the order in which they were
opened in this sense (`uris_inOpeningOrder`).
-/

namespace LiveDocument

namespace Workspace

/-! ## Opening events -/

/-- Every opening of `uri` was followed by a closing. -/
def AllClosed (history : List Request) (uri : String) : Prop :=
  ∀ first version text rest, history = first ++ .openDocument uri version text :: rest →
    .closeDocument uri ∈ rest

/-- The opening at `time` is the first one of `uri` since its latest closing, or since
the start. -/
def OpenedAt (history : List Request) (uri : String) (time : Nat) : Prop :=
  ∃ earlier version text later,
    history = earlier ++ .openDocument uri version text :: later ∧
      earlier.length = time ∧ AllClosed earlier uri ∧ .closeDocument uri ∉ later

def OpenedBefore (history : List Request) (first second : String) : Prop :=
  ∃ firstTime secondTime, OpenedAt history first firstTime ∧
    OpenedAt history second secondTime ∧ firstTime < secondTime

theorem Request.ne_closeDocument_of_not_rebinds {request : Request} {uri : String}
    (quiet : request.rebinds uri = false) : request ≠ .closeDocument uri := by
  rintro rfl
  exact absurd (decide_eq_true rfl) (Bool.eq_false_iff.1 quiet)

theorem Request.isOpening_of_rebinds {request : Request} {uri : String}
    (rebound : request.rebinds uri = true) (notClosing : request ≠ .closeDocument uri) :
    request.isOpening = true := by
  cases request with
  | openDocument other version text => rfl
  | closeDocument other => exact absurd (of_decide_eq_true rebound ▸ rfl) notClosing
  | _ => cases rebound

theorem allClosed_iff (history : List Request) (uri : String) :
    AllClosed history uri ↔ ∀ handle, ¬ OpenUnder history uri handle := by
  constructor
  · rintro allClosed handle ⟨earlier, version, text, later, split, _, quiet⟩
    have closing := quiet _ (allClosed earlier version text later split)
    exact Request.ne_closeDocument_of_not_rebinds closing rfl
  · induction history using List.reverseRecOn with
    | nil =>
        intro _ first version text rest split
        exact absurd split.symm (List.append_ne_nil_of_right_ne_nil first (List.cons_ne_nil _ _))
    | append_singleton before request ih =>
        intro notOpen first version text rest split
        simp only [openUnder_append_singleton, not_or, not_and] at notOpen
        rcases cut_append_singleton split with ⟨rfl, rfl, rfl⟩ | ⟨middle, rfl, rfl⟩
        · exact absurd rfl ((notOpen (openings before)).1 (decide_eq_true rfl) rfl)
        · rw [List.mem_append, List.mem_singleton]
          by_cases closing : request = .closeDocument uri
          · exact .inr closing.symm
          · cases rebound : request.rebinds uri with
            | true =>
                have opening := Request.isOpening_of_rebinds rebound closing
                exact absurd rfl ((notOpen _).1 rebound opening)
            | false =>
                exact .inl (ih (fun handle => (notOpen handle).2 rebound) _ _ _ _ rfl)

theorem openedAt_append_singleton (history : List Request) (request : Request)
    (uri : String) (time : Nat) :
    OpenedAt (history ++ [request]) uri time ↔
      request.rebinds uri = true ∧ request.isOpening = true ∧ AllClosed history uri ∧
          time = history.length ∨
        request ≠ .closeDocument uri ∧ OpenedAt history uri time := by
  constructor
  · rintro ⟨earlier, version, text, later, split, length, allClosed, notClosed⟩
    rcases cut_append_singleton split with ⟨rfl, rfl, rfl⟩ | ⟨before, rfl, rfl⟩
    · exact .inl ⟨decide_eq_true rfl, rfl, allClosed, length.symm⟩
    · rw [List.mem_append, List.mem_singleton, not_or] at notClosed
      exact .inr ⟨fun closing => notClosed.2 closing.symm,
        earlier, version, text, before, rfl, length, allClosed, notClosed.1⟩
  · rintro (⟨rebound, opening, allClosed, rfl⟩ |
      ⟨notClosing, earlier, version, text, later, rfl, length, allClosed, notClosed⟩)
    · cases request with
      | openDocument other version text =>
          cases of_decide_eq_true rebound
          exact ⟨history, version, text, [], rfl, rfl, allClosed, List.not_mem_nil⟩
      | _ => cases opening
    · refine ⟨earlier, version, text, later ++ [request], by simp, length, allClosed, ?_⟩
      rw [List.mem_append, List.mem_singleton, not_or]
      exact ⟨notClosed, fun closing => notClosing closing.symm⟩

theorem not_openedAt_nil (uri : String) (time : Nat) : ¬ OpenedAt [] uri time := by
  rintro ⟨earlier, version, text, later, split, _⟩
  exact List.append_ne_nil_of_right_ne_nil earlier (List.cons_ne_nil _ later) split.symm

theorem OpenedAt.lt_length {history : List Request} {uri : String} {time : Nat}
    (opened : OpenedAt history uri time) : time < history.length := by
  obtain ⟨earlier, version, text, later, rfl, rfl, _⟩ := opened
  rw [List.length_append, List.length_cons]
  omega

/-- A URI has an opening event exactly while it is open. -/
theorem exists_openedAt_iff (history : List Request) (uri : String) :
    (∃ time, OpenedAt history uri time) ↔ ∃ handle, OpenUnder history uri handle := by
  induction history using List.reverseRecOn with
  | nil => simp only [not_openedAt_nil, not_openUnder_nil, exists_false]
  | append_singleton before request ih =>
      have closedOrOpen := allClosed_iff before uri
      simp only [openedAt_append_singleton, openUnder_append_singleton]
      cases rebound : request.rebinds uri with
      | false =>
          have notClosing := Request.ne_closeDocument_of_not_rebinds rebound
          simpa [notClosing] using ih
      | true =>
          by_cases closing : request = .closeDocument uri
          · simp [closing, Request.isOpening]
          · have opening := Request.isOpening_of_rebinds rebound closing
            by_cases allClosed : AllClosed before uri
            · simp [opening, allClosed]
            · rw [closedOrOpen] at allClosed
              obtain ⟨time, opened⟩ := ih.2 (Classical.not_forall_not.1 allClosed)
              exact iff_of_true ⟨time, .inr ⟨closing, opened⟩⟩
                ⟨_, .inl ⟨rfl, opening, rfl⟩⟩

theorem OpenedAt.unique {history : List Request} {uri : String} {first second : Nat}
    (firstOpened : OpenedAt history uri first) (secondOpened : OpenedAt history uri second) :
    first = second := by
  induction history using List.reverseRecOn with
  | nil => exact absurd firstOpened (not_openedAt_nil uri first)
  | append_singleton before request ih =>
      have notBoth {time : Nat} (allClosed : AllClosed before uri) :
          ¬ OpenedAt before uri time := by
        intro opened
        obtain ⟨handle, under⟩ := (exists_openedAt_iff before uri).1 ⟨time, opened⟩
        exact (allClosed_iff before uri).1 allClosed handle under
      rw [openedAt_append_singleton] at firstOpened secondOpened
      rcases firstOpened with ⟨_, _, firstClosed, rfl⟩ | ⟨_, firstBefore⟩
      · rcases secondOpened with ⟨_, _, _, rfl⟩ | ⟨_, secondBefore⟩
        · rfl
        · exact absurd secondBefore (notBoth firstClosed)
      · rcases secondOpened with ⟨_, _, secondClosed, rfl⟩ | ⟨_, secondBefore⟩
        · exact absurd firstBefore (notBoth secondClosed)
        · exact ih firstBefore secondBefore

/-! ## The open URIs in order -/

variable {μ : Type} [OrderedMap μ Handle] [LawfulOrderedMap μ Handle]

theorem uris_respond (workspace : Workspace μ) (request : Request) :
    (workspace.respond request).2.uris =
      match request with
      | .openDocument uri _ _ =>
          if uri ∈ workspace.uris then workspace.uris else workspace.uris ++ [uri]
      | .closeDocument uri => workspace.uris.erase uri
      | _ => workspace.uris := by
  rw [uris, bindings_respond]
  cases request with
  | openDocument uri version text => exact LawfulOrderedMap.names_insert _ _ _
  | closeDocument uri => exact LawfulOrderedMap.names_erase _ _
  | _ => rfl

theorem mem_uris_iff (workspace : Workspace μ) (uri : String) :
    uri ∈ workspace.uris ↔ workspace.find? uri ≠ none :=
  (LawfulOrderedMap.find?_eq_none_iff workspace.bindings uri).not_left.symm

variable (μ) in
theorem mem_uris_reached_iff (settings : Settings) (history : List Request) (uri : String) :
    uri ∈ (reached μ settings history).uris ↔ ∃ handle, OpenUnder history uri handle := by
  simp only [mem_uris_iff, Option.ne_none_iff_exists', find?_reached_iff]

theorem OpenedBefore.append_singleton {history : List Request} {first second : String}
    (before : OpenedBefore history first second) {request : Request}
    (firstKept : request ≠ .closeDocument first)
    (secondKept : request ≠ .closeDocument second) :
    OpenedBefore (history ++ [request]) first second := by
  obtain ⟨firstTime, secondTime, firstOpened, secondOpened, inOrder⟩ := before
  exact ⟨firstTime, secondTime,
    (openedAt_append_singleton ..).2 (.inr ⟨firstKept, firstOpened⟩),
    (openedAt_append_singleton ..).2 (.inr ⟨secondKept, secondOpened⟩), inOrder⟩

theorem pairwise_uris_reached (settings : Settings) (history : List Request) :
    (reached μ settings history).uris.Pairwise (OpenedBefore history) := by
  induction history using List.reverseRecOn with
  | nil =>
      have noUris : (reached μ settings []).uris = [] := LawfulOrderedMap.names_empty
      rw [noUris]
      exact List.Pairwise.nil
  | append_singleton earlier request ih =>
      have member := mem_uris_reached_iff μ settings earlier
      rw [reached_append_singleton, uris_respond]
      cases request with
      | openDocument uri version text =>
          have kept : (reached μ settings earlier).uris.Pairwise
              (OpenedBefore (earlier ++ [.openDocument uri version text])) :=
            ih.imp fun before => before.append_singleton nofun nofun
          simp only
          split
          · exact kept
          · rename_i isNew
            have allClosed := (allClosed_iff earlier uri).2
              (not_exists.1 ((member uri).not.1 isNew))
            refine List.pairwise_append.2 ⟨kept, List.pairwise_singleton _ _, ?_⟩
            intro other old last isLast
            rw [List.mem_singleton.1 isLast]
            obtain ⟨time, opened⟩ := (exists_openedAt_iff earlier other).2 ((member other).1 old)
            exact ⟨time, earlier.length,
              (openedAt_append_singleton ..).2 (.inr ⟨nofun, opened⟩),
              (openedAt_append_singleton ..).2 (.inl ⟨decide_eq_true rfl, rfl, allClosed, rfl⟩),
              opened.lt_length⟩
      | closeDocument uri =>
          have nodup := (isSound_reached μ settings earlier).urisNodup
          refine (ih.sublist List.erase_sublist).imp_of_mem ?_
          intro first second firstMember secondMember before
          have firstOther := (nodup.mem_erase_iff.1 firstMember).1
          have secondOther := (nodup.mem_erase_iff.1 secondMember).1
          exact before.append_singleton (by simp [firstOther.symm]) (by simp [secondOther.symm])
      | _ => exact ih.imp fun before => before.append_singleton nofun nofun

theorem existsUnique_openedAt_iff (history : List Request) (uri : String) :
    (∃! time, OpenedAt history uri time) ↔ ∃ handle, OpenUnder history uri handle := by
  rw [← exists_openedAt_iff]
  constructor
  · exact ExistsUnique.exists
  · rintro ⟨time, opened⟩
    exact ⟨time, opened, fun _ other => other.unique opened⟩

omit [LawfulOrderedMap μ Handle] in
theorem isEmpty_eq (workspace : Workspace μ) :
    workspace.isEmpty = decide (workspace.uris = []) := by
  rw [isEmpty, size, decide_eq_decide, List.length_eq_zero_iff]

theorem contains_eq (workspace : Workspace μ) (uri : String) :
    workspace.contains uri = decide (uri ∈ workspace.uris) := by
  rw [Bool.eq_iff_iff, decide_eq_true_iff, mem_uris_iff, ← Option.isSome_iff_ne_none]
  rfl

theorem IsSound.lookUp_found_iff {workspace : Workspace μ} (sound : workspace.IsSound)
    (uri : String) :
    (workspace.respond (.lookUp uri)).1 ≠ .notFound ↔ uri ∈ workspace.uris := by
  rw [mem_uris_iff, Workspace.respond]
  cases found : workspace.find? uri with
  | none => simp [lookUp?_of_find?_eq_none found, Reply.ofLookUp]
  | some handle =>
      obtain ⟨document, known⟩ := sound.exists_document found
      simp [lookUp?_of_find? found known, Reply.ofLookUp]

/-- The open URIs are listed once each and in the order of their opening events. Opening
one of them again moves none, closing one takes it out, and a URI that is not open comes
last when it is opened. All questions about what is open are answered from this list. So it
is with every ordered map. -/
theorem uris_inOpeningOrder (μ : Type) [OrderedMap μ Handle] [LawfulOrderedMap μ Handle]
    (settings : Settings) (history : List Request) :
    let workspace := reached μ settings history
    workspace.uris.Nodup ∧
      (∀ uri, uri ∈ workspace.uris ↔ ∃ handle, OpenUnder history uri handle) ∧
      (∀ uri, uri ∈ workspace.uris ↔ ∃! time, OpenedAt history uri time) ∧
      workspace.uris.Pairwise (OpenedBefore history) ∧
      (∀ request, (workspace.respond request).2.uris =
        match request with
        | .openDocument uri _ _ =>
            if uri ∈ workspace.uris then workspace.uris else workspace.uris ++ [uri]
        | .closeDocument uri => workspace.uris.erase uri
        | _ => workspace.uris) ∧
      (workspace.respond .uris).1 = .uris workspace.uris ∧
      (workspace.respond .size).1 = .count workspace.uris.length ∧
      (workspace.respond .isEmpty).1 = .verdict (decide (workspace.uris = [])) ∧
      ∀ uri,
        (workspace.respond (.contains uri)).1 = .verdict (decide (uri ∈ workspace.uris)) ∧
          ((workspace.respond (.lookUp uri)).1 ≠ .notFound ↔ uri ∈ workspace.uris) := by
  intro workspace
  have sound : workspace.IsSound := isSound_reached μ settings history
  have isOpen (uri : String) := mem_uris_reached_iff μ settings history uri
  refine ⟨sound.urisNodup, isOpen, ?_, pairwise_uris_reached settings history,
    workspace.uris_respond, rfl, rfl, ?_, fun uri => ⟨?_, sound.lookUp_found_iff uri⟩⟩
  · intro uri
    rw [existsUnique_openedAt_iff]
    exact isOpen uri
  · exact congrArg Reply.verdict workspace.isEmpty_eq
  · exact congrArg Reply.verdict (workspace.contains_eq uri)

/-- A URI that is opened twice keeps its place, one that was closed between comes
last. -/
theorem uris_inOpeningOrder_reopened :
    let history : List Request :=
      [.openDocument "b" 1 [], .openDocument "a" 1 [], .openDocument "c" 1 [],
        .openDocument "a" 0 ['x'], .closeDocument "b", .direct 0 (.apply (.full ['y'])),
        .openDocument "b" 1 []]
    let workspace := reached (Registry Handle) ⟨.utf16, .strict⟩ history
    workspace.uris = ["a", "c", "b"] ∧ (∃! time, OpenedAt history "b" time) ∧
      OpenedBefore history "a" "c" ∧ OpenedBefore history "c" "b" ∧
      (workspace.respond .size).1 = .count 3 ∧
      (workspace.respond (.closeDocument "c")).2.uris = ["a", "b"] := by
  intro history workspace
  obtain ⟨_, _, opened, inOrder, next, _, count, _⟩ :=
    uris_inOpeningOrder (Registry Handle) ⟨.utf16, .strict⟩ history
  have uris : workspace.uris = ["a", "c", "b"] := by decide +kernel
  have closed := next (.closeDocument "c")
  rw [uris] at inOrder count closed
  have afterFirst := List.pairwise_cons.1 inOrder
  have afterSecond := List.pairwise_cons.1 afterFirst.2
  have isOpen := (opened "b").1 (by rw [uris]; decide)
  exact ⟨uris, isOpen, afterFirst.1 "c" (by decide), afterSecond.1 "b" (by decide), count,
    closed⟩

end Workspace

end LiveDocument
