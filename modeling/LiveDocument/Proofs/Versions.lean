import LiveDocument.Document.Request

/-!
# Versions over a run of notifications

Notifications may reach a document late, twice or out of order. Under the strict
policy the document takes exactly those that advance its version, so its version is
the greatest that has reached it (`version_receive`) and its text is that of the
changes it has taken (`receive_eq_applyAll`); a notification that it refuses leaves
nothing behind (`receive_discipline`).
-/

namespace LiveDocument

namespace Document

/-- A notification on its way to a document: the version that it leads to and the
changes that lead there. -/
structure Delivery where
  version : Int
  changes : List Change
deriving DecidableEq, Repr

def Delivery.request (delivery : Delivery) : Request :=
  .update delivery.version delivery.changes

/-- The replies to the deliveries in order, and the document after them. -/
def receive : Document → List Delivery → List Reply × Document
  | document, [] => ([], document)
  | document, first :: rest =>
      let (reply, next) := document.respond first.request
      let (replies, last) := receive next rest
      (reply :: replies, last)

/-- The greatest of a version and those of the deliveries. -/
def newest (version : Int) (deliveries : List Delivery) : Int :=
  (deliveries.map Delivery.version).foldl max version

/-- The deliveries that were answered by acceptance. -/
def accepted (deliveries : List Delivery) (replies : List Reply) : List Delivery :=
  ((deliveries.zip replies).filter (·.2 = .done)).map Prod.fst

theorem newest_cons (version : Int) (first : Delivery) (rest : List Delivery) :
    newest version (first :: rest) = newest (max version first.version) rest := rfl

theorem newest_lt_iff (version bound : Int) (deliveries : List Delivery) :
    newest version deliveries < bound ↔
      version < bound ∧ ∀ delivery, delivery ∈ deliveries → delivery.version < bound := by
  induction deliveries generalizing version with
  | nil => simp [newest]
  | cons first rest ih =>
      rw [newest_cons, ih, Int.max_lt, List.forall_mem_cons, and_assoc]

/-! ## One notification -/

theorem respond_of_accepts {document : Document} {delivery : Delivery}
    (accepts : document.settings.policy.accepts document.version delivery.version = true) :
    document.respond delivery.request =
      (.done, { document.applyAll delivery.changes with version := delivery.version }) := by
  rw [Delivery.request, respond, update_of_accepts accepts]

/-- A document that refuses a notification is the document that it was, its line table
included. -/
theorem respond_of_not_accepts {document : Document} {delivery : Delivery}
    (refuses : ¬ document.settings.policy.accepts document.version delivery.version = true) :
    document.respond delivery.request =
      (.refused (.staleVersion document.version delivery.version), document) := by
  rw [Delivery.request, respond, update_of_not_accepts refuses]

/-- Changes neither read the version nor write it. -/
theorem applyAll_version (document : Document) (version : Int) (changes : List Change) :
    ({ document with version := version } : Document).applyAll changes =
      { document.applyAll changes with version := version } := by
  induction changes generalizing document with
  | nil => rfl
  | cons change rest ih =>
      have first : ({ document with version := version } : Document).apply change =
          { document.apply change with version := version } := by
        cases change <;> rfl
      rw [applyAll, List.foldl_cons, first]
      exact ih (document.apply change)

theorem settings_respond_delivery (document : Document) (delivery : Delivery) :
    (document.respond delivery.request).2.settings = document.settings := by
  by_cases accepts :
      document.settings.policy.accepts document.version delivery.version = true
  · rw [respond_of_accepts accepts]
    exact settings_applyAll document delivery.changes
  · rw [respond_of_not_accepts accepts]

/-! ## Runs -/

theorem receive_cons (document : Document) (first : Delivery) (rest : List Delivery) :
    document.receive (first :: rest) =
      ((document.respond first.request).1 ::
          ((document.respond first.request).2.receive rest).1,
        ((document.respond first.request).2.receive rest).2) := rfl

theorem receive_append (document : Document) (first rest : List Delivery) :
    document.receive (first ++ rest) =
      ((document.receive first).1 ++ ((document.receive first).2.receive rest).1,
        ((document.receive first).2.receive rest).2) := by
  induction first generalizing document with
  | nil => rfl
  | cons next later ih =>
      rw [List.cons_append, receive_cons, ih, receive_cons]
      rfl

theorem length_receive (document : Document) (deliveries : List Delivery) :
    (document.receive deliveries).1.length = deliveries.length := by
  induction deliveries generalizing document with
  | nil => rfl
  | cons first rest ih => rw [receive_cons, List.length_cons, List.length_cons, ih]

theorem settings_receive (document : Document) (deliveries : List Delivery) :
    (document.receive deliveries).2.settings = document.settings := by
  induction deliveries generalizing document with
  | nil => rfl
  | cons first rest ih =>
      rw [receive_cons]
      exact (ih _).trans (settings_respond_delivery document first)

/-- The reply to a delivery is the one of the document that the deliveries before it
have left. -/
theorem reply_receive (document : Document) (earlier later : List Delivery)
    (delivery : Delivery) :
    (document.receive (earlier ++ delivery :: later)).1[earlier.length]? =
      some ((document.receive earlier).2.respond delivery.request).1 := by
  have length := length_receive document earlier
  rw [receive_append, ← length, List.getElem?_append_right (Nat.le_refl _), Nat.sub_self,
    receive_cons]
  rfl

theorem accepted_cons_done (first : Delivery) (rest : List Delivery) (replies : List Reply) :
    accepted (first :: rest) (.done :: replies) = first :: accepted rest replies := rfl

theorem accepted_cons_refused (first : Delivery) (rest : List Delivery)
    (error : DocumentError) (replies : List Reply) :
    accepted (first :: rest) (.refused error :: replies) = accepted rest replies := rfl

/-- But for its version, a document after a run is what the changes of the accepted
notifications make of it, one after the other. -/
theorem receive_eq_applyAll (document : Document) (deliveries : List Delivery) :
    (document.receive deliveries).2 =
      { document.applyAll
          ((accepted deliveries (document.receive deliveries).1).flatMap Delivery.changes) with
        version := (document.receive deliveries).2.version } := by
  induction deliveries generalizing document with
  | nil => rfl
  | cons first rest ih =>
      by_cases accepts :
          document.settings.policy.accepts document.version first.version = true
      · have later := ih { document.applyAll first.changes with version := first.version }
        rw [applyAll_version (document.applyAll first.changes)] at later
        rw [receive_cons, respond_of_accepts accepts, accepted_cons_done, List.flatMap_cons,
          applyAll_append]
        exact later
      · have later := ih document
        rw [receive_cons, respond_of_not_accepts accepts, accepted_cons_refused]
        exact later

theorem accepts_strict_iff {document : Document}
    (strict : document.settings.policy = .strict) (version : Int) :
    document.settings.policy.accepts document.version version = true ↔
      document.version < version := by
  rw [strict]
  exact decide_eq_true_iff

/-- The version of a document is the greatest one that has reached it. -/
theorem version_receive {document : Document} (strict : document.settings.policy = .strict)
    (deliveries : List Delivery) :
    (document.receive deliveries).2.version = newest document.version deliveries := by
  induction deliveries generalizing document with
  | nil => rfl
  | cons first rest ih =>
      have decides := accepts_strict_iff strict first.version
      by_cases accepts :
          document.settings.policy.accepts document.version first.version = true
      · have advances := decides.1 accepts
        have stillStrict : (document.applyAll first.changes).settings.policy = .strict := by
          rw [settings_applyAll, strict]
        have later := @ih { document.applyAll first.changes with version := first.version }
          stillStrict
        rw [receive_cons, respond_of_accepts accepts, newest_cons,
          Int.max_eq_right (Int.le_of_lt advances)]
        exact later
      · have stale := Int.not_lt.1 fun advances => accepts (decides.2 advances)
        rw [receive_cons, respond_of_not_accepts accepts, newest_cons, Int.max_eq_left stale]
        exact ih strict

/-- A notification that comes after deliveries is accepted if it is newer than all of
them. A refused one is told the greatest version so far and leaves the document as it
was. -/
theorem respond_receive {document : Document} (strict : document.settings.policy = .strict)
    (earlier : List Delivery) (delivery : Delivery) :
    let before := (document.receive earlier).2
    ((before.respond delivery.request).1 = .done ↔
        document.version < delivery.version ∧
          ∀ other, other ∈ earlier → other.version < delivery.version) ∧
      ((before.respond delivery.request).1 ≠ .done →
        before.respond delivery.request =
          (.refused (.staleVersion (newest document.version earlier) delivery.version),
            before)) := by
  intro before
  have stillStrict : before.settings.policy = .strict := by
    rw [settings_receive, strict]
  have version : before.version = newest document.version earlier :=
    version_receive strict earlier
  have decides := accepts_strict_iff stillStrict delivery.version
  rw [version, newest_lt_iff] at decides
  by_cases accepts : before.settings.policy.accepts before.version delivery.version = true
  · have newer := decides.1 (version ▸ accepts)
    rw [respond_of_accepts accepts]
    exact ⟨iff_of_true rfl newer, fun refused => absurd rfl refused⟩
  · have stale := fun newer => accepts (version ▸ decides.2 newer)
    rw [respond_of_not_accepts accepts, version]
    refine ⟨iff_of_false ?_ stale, fun _ => rfl⟩
    intro done
    cases done

/-- A notification that has been delivered changes nothing when it comes again. -/
theorem receive_again {document : Document} (strict : document.settings.policy = .strict)
    {deliveries : List Delivery} {delivery : Delivery} (member : delivery ∈ deliveries) :
    (document.receive (deliveries ++ [delivery])).2 = (document.receive deliveries).2 := by
  obtain ⟨decides, refusal⟩ := respond_receive strict deliveries delivery
  have refused : ((document.receive deliveries).2.respond delivery.request).1 ≠ .done := by
    intro done
    have newer := (decides.1 done).2 delivery member
    exact Int.lt_irrefl _ newer
  rw [receive_append, receive_cons, refusal refused]
  rfl

theorem receive_permissive {document : Document}
    (permissive : document.settings.policy = .permissive) (deliveries : List Delivery) :
    (document.receive deliveries).1 = List.replicate deliveries.length .done ∧
      (document.receive deliveries).2.version =
        (deliveries.map Delivery.version).getLastD document.version := by
  induction deliveries generalizing document with
  | nil => exact ⟨rfl, rfl⟩
  | cons first rest ih =>
      have accepts :
          document.settings.policy.accepts document.version first.version = true := by
        rw [permissive]
        rfl
      have stillPermissive :
          (document.applyAll first.changes).settings.policy = .permissive := by
        rw [settings_applyAll, permissive]
      obtain ⟨replies, version⟩ :=
        @ih { document.applyAll first.changes with version := first.version } stillPermissive
      rw [receive_cons, respond_of_accepts accepts, List.map_cons, List.getLastD_cons]
      exact ⟨congrArg (Reply.done :: ·) replies, version⟩

/-- Whatever notifications reach a document, in whatever order and how often, it is
what the changes of the accepted ones make of it. Under the strict policy exactly those
are accepted that are newer than everything before them, and the others leave nothing
behind but the refusal that they get; under the permissive policy all are. -/
theorem receive_discipline (document : Document) (deliveries : List Delivery) :
    let replies := (document.receive deliveries).1
    let last := (document.receive deliveries).2
    last = { document.applyAll ((accepted deliveries replies).flatMap Delivery.changes) with
        version := last.version } ∧
      (document.settings.policy = .strict →
        last.version = newest document.version deliveries ∧
          (∀ earlier delivery later, deliveries = earlier ++ delivery :: later →
            let reply := replies[earlier.length]?
            (reply = some .done ↔
                document.version < delivery.version ∧
                  ∀ other, other ∈ earlier → other.version < delivery.version) ∧
              (reply ≠ some .done →
                reply = some (.refused
                    (.staleVersion (newest document.version earlier) delivery.version)) ∧
                  (document.receive (earlier ++ [delivery])).2 =
                    (document.receive earlier).2)) ∧
          ∀ delivery, delivery ∈ deliveries →
            (document.receive (deliveries ++ [delivery])).2 = last) ∧
      (document.settings.policy = .permissive →
        replies = List.replicate deliveries.length .done ∧
          last.version = (deliveries.map Delivery.version).getLastD document.version) := by
  intro replies last
  refine ⟨receive_eq_applyAll document deliveries, ?_,
    fun permissive => receive_permissive permissive deliveries⟩
  intro strict
  refine ⟨version_receive strict deliveries, ?_, fun delivery member =>
    receive_again strict member⟩
  rintro earlier delivery later rfl reply
  have answered : reply = some ((document.receive earlier).2.respond delivery.request).1 :=
    reply_receive document earlier later delivery
  obtain ⟨decides, refusal⟩ := respond_receive strict earlier delivery
  rw [answered, ne_eq, Option.some_inj]
  refine ⟨decides, ?_⟩
  intro refused
  rw [receive_append, receive_cons, refusal refused]
  exact ⟨rfl, rfl⟩

/-- Three notifications that overtake each other, one of which comes twice; the same
ones under the policy that takes all. -/
theorem receive_discipline_out_of_order :
    let document (policy : VersionPolicy) := ofText ⟨.utf16, policy⟩ 1 ['a']
    let first : Delivery := ⟨5, [.full ['b', '\n'], .within ⟨⟨1, 0⟩, ⟨1, 0⟩⟩ ['c']]⟩
    let late : Delivery := ⟨3, [.full []]⟩
    let second : Delivery := ⟨6, [.within ⟨⟨0, 0⟩, ⟨0, 1⟩⟩ ['d']]⟩
    let deliveries := [first, late, second, first]
    let strictly := (document .strict).receive deliveries
    let freely := (document .permissive).receive deliveries
    (document .strict).settings.policy = .strict ∧
      (document .permissive).settings.policy = .permissive ∧
      strictly.1[1]? = some (.refused (.staleVersion 5 3)) ∧
      strictly.2.version = 6 ∧ strictly.2.text = ['d', '\n', 'c'] ∧
      ((document .strict).receive (deliveries ++ [late])).2 = strictly.2 ∧
      freely.1 = [.done, .done, .done, .done] ∧ freely.2.version = 5 := by
  intro document first late second deliveries strictly freely
  obtain ⟨_, discipline, _⟩ := receive_discipline (document .strict) deliveries
  obtain ⟨version, each, again⟩ := discipline rfl
  obtain ⟨_, _, freedom⟩ := receive_discipline (document .permissive) deliveries
  obtain ⟨replies, freeVersion⟩ := freedom rfl
  have refused := ((each [first] late [second, first] rfl).2 (by decide +kernel)).1
  have text : strictly.2.text = ['d', '\n', 'c'] := by decide +kernel
  exact ⟨rfl, rfl, refused, version, text, again late (by decide), replies, freeVersion⟩

end Document

end LiveDocument
