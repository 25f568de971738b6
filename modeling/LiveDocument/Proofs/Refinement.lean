import LiveDocument.Document.Plain
import LiveDocument.Document.Session
import LiveDocument.Proofs.Freshness

/-!
# Documents answer like plain ones

A fresh document gives the replies of the plain document with its version, text and
settings, and what it becomes is what the plain one becomes (`respond_plain`). So
copies of documents answer any run like copies of plain documents
(`run_map_plain`), and a question changes nothing but whether a table is at hand.
-/

namespace LiveDocument

namespace Document

namespace IsFresh

variable {document : Document} (fresh : document.IsFresh)

include fresh

theorem table_plain : document.plain.table = document.table := by
  rw [fresh.table_eq]
  rfl

theorem apply_plain (change : Change) :
    document.plain.apply change = (document.apply change).plain := by
  cases change with
  | full text => rfl
  | within range inserted =>
      rw [fresh.apply_within, PlainDocument.apply, fresh.table_plain]
      rfl

omit fresh in
theorem applyAll_plain {document : Document} (fresh : document.IsFresh)
    (changes : List Change) :
    document.plain.applyAll changes = (document.applyAll changes).plain := by
  induction changes generalizing document with
  | nil => rfl
  | cons change rest ih =>
      have first := fresh.apply_plain change
      have later := ih (fresh.apply change)
      rw [PlainDocument.applyAll, List.foldl_cons, first]
      exact later

theorem update_plain (version : Int) (changes : List Change) :
    document.plain.update version changes = (document.update version changes).map plain := by
  rw [PlainDocument.update, fresh.applyAll_plain, Document.update]
  change (if document.settings.policy.accepts document.version version then _ else _) = _
  split
  · rfl
  · rfl

/-- A fresh document answers like a plain one, and goes on like it. -/
theorem respond_plain (request : Request) :
    document.plain.respond request =
      ((document.respond request).1, (document.respond request).2.plain) := by
  have sameTable := fresh.table_plain
  cases request with
  | update version changes =>
      rw [PlainDocument.respond, Document.respond, fresh.update_plain]
      cases document.update version changes with
      | error error => rfl
      | ok updated => rfl
  | apply change => rw [PlainDocument.respond, fresh.apply_plain]; rfl
  | version => rfl
  | text => rfl
  | settings => rfl
  | read range? =>
      cases range? with
      | none => rfl
      | some range => rw [PlainDocument.respond, sameTable]; rfl
  | lineCount => rw [PlainDocument.respond, sameTable]; rfl
  | offsetAt position => rw [PlainDocument.respond, sameTable]; rfl
  | positionAt offset => rw [PlainDocument.respond, sameTable]; rfl
  | clampRange range => rw [PlainDocument.respond, sameTable]; rfl
  | compose edits => rw [PlainDocument.respond, sameTable]; rfl
  | checkTable =>
      have agrees : document.indexed.buffer.isFresh = true := by
        rw [fresh.indexed.buffer_eq]
        exact decide_eq_true rfl
      rw [PlainDocument.respond, ← agrees]
      rfl

/-- What a fresh document is once its table is at hand depends on the plain document
alone. -/
theorem indexed_eq :
    document.indexed = ⟨document.plain.version, document.plain.text,
      some document.plain.table, document.plain.settings⟩ := by
  rw [fresh.table_plain]
  rfl

end IsFresh

def Request.isQuestion : Request → Bool
  | .update .. | .apply .. => false
  | _ => true

end Document

theorem PlainDocument.respond_question (document : PlainDocument)
    {request : Document.Request} (question : request.isQuestion = true) :
    (document.respond request).2 = document := by
  cases request with
  | update version changes => cases question
  | apply change => cases question
  | read range? => cases range? <;> rfl
  | _ => rfl

/-! ## Runs over copies -/

namespace Copy

def plain (held : Copy Document) : Copy PlainDocument := ⟨held.access, held.document.plain⟩

def indexed (held : Copy Document) : Copy Document := ⟨held.access, held.document.indexed⟩

end Copy

namespace Session

def Step.isQuestion : Step → Bool
  | .ask _ request => request.isQuestion
  | .copy .. => false

section Invariant

variable {α : Type} {respond : α → Document.Request → Document.Reply × α} {holds : α → Prop}

theorem forall_step
    (preserved : ∀ document request, holds document → holds (respond document request).2)
    {session : Session α} (before : ∀ held, held ∈ session → holds held.document)
    (next : Step) : ∀ held, held ∈ (session.step respond next).2 → holds held.document := by
  intro held member
  cases next with
  | ask index request =>
      rw [step] at member
      split at member
      · exact before held member
      · rename_i asked found
        rcases List.mem_or_eq_of_mem_set member with old | rfl
        · exact before held old
        · exact preserved _ request (before asked (List.mem_of_getElem? found))
  | copy index access =>
      rw [step] at member
      split at member
      · exact before held member
      · rename_i copied found
        rcases List.mem_append.1 member with old | new
        · exact before held old
        · rw [List.mem_singleton.1 new]
          exact before copied (List.mem_of_getElem? found)

theorem forall_run
    (preserved : ∀ document request, holds document → holds (respond document request).2)
    {session : Session α} (before : ∀ held, held ∈ session → holds held.document)
    (steps : List Step) : ∀ held, held ∈ (run respond session steps).2 → holds held.document := by
  induction steps generalizing session with
  | nil => exact before
  | cons next later ih => exact ih (forall_step preserved before next)

end Invariant

def IsFresh (session : Session Document) : Prop :=
  ∀ held, held ∈ session → held.document.IsFresh

theorem isFresh_step {session : Session Document} (fresh : session.IsFresh) (next : Step) :
    (session.step Document.respond next).2.IsFresh :=
  forall_step (fun _ request stillFresh => stillFresh.respond request) fresh next

theorem isFresh_run {session : Session Document} (fresh : session.IsFresh)
    (steps : List Step) : (run Document.respond session steps).2.IsFresh :=
  forall_run (fun _ request stillFresh => stillFresh.respond request) fresh steps

theorem step_map_plain {session : Session Document} (fresh : session.IsFresh)
    (next : Step) :
    step PlainDocument.respond (session.map Copy.plain) next =
      ((session.step Document.respond next).1,
        (session.step Document.respond next).2.map Copy.plain) := by
  cases next with
  | ask index request =>
      rw [step, step, List.getElem?_map]
      cases found : session[index]? with
      | none => rfl
      | some held =>
          have same := (fresh held (List.mem_of_getElem? found)).respond_plain request
          simp only [Option.map_some, Copy.plain, same, List.map_set]
  | copy index access =>
      rw [step, step, List.getElem?_map]
      cases session[index]? with
      | none => rfl
      | some held => simp only [Option.map_some, List.map_append]; rfl

section Run

variable {α : Type} (respond : α → Document.Request → Document.Reply × α)

theorem run_cons (session : Session α) (first : Step) (rest : List Step) :
    run respond session (first :: rest) =
      ((session.step respond first).1 :: (run respond (session.step respond first).2 rest).1,
        (run respond (session.step respond first).2 rest).2) := rfl

theorem run_append (session : Session α) (first rest : List Step) :
    run respond session (first ++ rest) =
      ((run respond session first).1 ++ (run respond (run respond session first).2 rest).1,
        (run respond (run respond session first).2 rest).2) := by
  induction first generalizing session with
  | nil => rfl
  | cons next later ih =>
      rw [List.cons_append, run_cons, ih, run_cons]
      rfl

theorem length_run (session : Session α) (steps : List Step) :
    (run respond session steps).1.length = steps.length := by
  induction steps generalizing session with
  | nil => rfl
  | cons next later ih =>
      rw [run_cons, List.length_cons, List.length_cons, ih]

end Run

/-- Copies of documents give the replies of copies of plain documents, and go on like
them. -/
theorem run_map_plain {session : Session Document} (fresh : session.IsFresh)
    (steps : List Step) :
    run PlainDocument.respond (session.map Copy.plain) steps =
      ((run Document.respond session steps).1,
        (run Document.respond session steps).2.map Copy.plain) := by
  induction steps generalizing session with
  | nil => rfl
  | cons next later ih =>
      rw [run_cons, run_cons, step_map_plain fresh, ih (isFresh_step fresh next)]

/-! ## Questions change no later reply -/

theorem step_question (session : Session PlainDocument) {next : Step}
    (question : next.isQuestion = true) :
    (session.step PlainDocument.respond next).2 = session := by
  cases next with
  | copy index access => cases question
  | ask index request =>
      rw [step]
      cases found : session[index]? with
      | none => rfl
      | some held =>
          have unchanged := held.document.respond_question question
          obtain ⟨inside, here⟩ := List.getElem?_eq_some_iff.1 found
          simp only [unchanged]
          rw [← here]
          exact List.set_getElem_self inside

theorem run_questions (session : Session PlainDocument) {questions : List Step}
    (allQuestions : ∀ next, next ∈ questions → next.isQuestion = true) :
    (run PlainDocument.respond session questions).2 = session := by
  induction questions with
  | nil => rfl
  | cons next later ih =>
      have unchanged := step_question session (allQuestions next List.mem_cons_self)
      rw [run_cons, unchanged]
      exact ih fun step member => allQuestions step (List.mem_cons_of_mem next member)

theorem map_indexed_eq {first second : Session Document} (firstFresh : first.IsFresh)
    (secondFresh : second.IsFresh) (same : first.map Copy.plain = second.map Copy.plain) :
    first.map Copy.indexed = second.map Copy.indexed := by
  let restore (held : Copy PlainDocument) : Copy Document :=
    ⟨held.access, held.document.version, held.document.text, some held.document.table,
      held.document.settings⟩
  have fromPlain {session : Session Document} (fresh : session.IsFresh) :
      session.map Copy.indexed = (session.map Copy.plain).map restore := by
    rw [List.map_map]
    refine List.map_congr_left fun held member => ?_
    rw [Copy.indexed, (fresh held member).indexed_eq]
    rfl
  rw [fromPlain firstFresh, fromPlain secondFresh, same]

/-- Nothing tells copies apart that are the same up to the tables at hand. -/
theorem run_congr {first second : Session Document} (firstFresh : first.IsFresh)
    (secondFresh : second.IsFresh) (same : first.map Copy.plain = second.map Copy.plain)
    (steps : List Step) :
    (run Document.respond first steps).1 = (run Document.respond second steps).1 ∧
      (run Document.respond first steps).2.map Copy.indexed =
        (run Document.respond second steps).2.map Copy.indexed := by
  have firstRun := run_map_plain firstFresh steps
  have secondRun := run_map_plain secondFresh steps
  rw [same, secondRun] at firstRun
  obtain ⟨replies, copies⟩ := Prod.mk.inj firstRun
  exact ⟨replies.symm, map_indexed_eq (isFresh_run firstFresh steps)
    (isFresh_run secondFresh steps) copies.symm⟩

theorem isFresh_singleton {document : Document} (fresh : document.IsFresh)
    (access : Document.Access) : IsFresh [⟨access, document⟩] := by
  intro held member
  rw [List.mem_singleton.1 member]
  exact fresh

def opened (settings : Settings) (version : Int) (text : Text) (access : Document.Access) :
    Session Document :=
  [⟨access, Document.ofText settings version text⟩]

def openedPlain (settings : Settings) (version : Int) (text : Text)
    (access : Document.Access) : Session PlainDocument :=
  [⟨access, PlainDocument.ofText settings version text⟩]

theorem isFresh_opened (settings : Settings) (version : Int) (text : Text)
    (access : Document.Access) : (opened settings version text access).IsFresh :=
  isFresh_singleton (Document.isFresh_ofText settings version text) access

/-- Whatever is asked of a document and of copies made on the way, the replies are
those of documents without tables, and every table at hand is the one of its text.
Questions put in anywhere change no later reply, and of the copies they change only
whether a table is at hand. -/
theorem run_opened_refines (settings : Settings) (version : Int) (text : Text)
    (access : Document.Access) :
    (∀ steps,
      run PlainDocument.respond (openedPlain settings version text access) steps =
          ((run Document.respond (opened settings version text access) steps).1,
            (run Document.respond (opened settings version text access) steps).2.map
              Copy.plain) ∧
        (run Document.respond (opened settings version text access) steps).2.IsFresh) ∧
      ∀ first questions rest,
        (∀ next, next ∈ questions → next.isQuestion = true) →
          let bare := run Document.respond (opened settings version text access)
            (first ++ rest)
          let asked := run Document.respond (opened settings version text access)
            (first ++ questions ++ rest)
          asked.1.take first.length = bare.1.take first.length ∧
            asked.1.drop (first.length + questions.length) = bare.1.drop first.length ∧
            asked.2.map Copy.indexed = bare.2.map Copy.indexed := by
  have fresh := isFresh_opened settings version text access
  have refines (steps : List Step) :
      run PlainDocument.respond (openedPlain settings version text access) steps = _ :=
    run_map_plain fresh steps
  refine ⟨fun steps => ⟨refines steps, isFresh_run fresh steps⟩, ?_⟩
  intro first questions rest allQuestions bare asked
  have plainBare := refines (first ++ rest)
  have plainAsked := refines (first ++ questions ++ rest)
  rw [run_append] at plainBare
  rw [run_append, run_append, run_questions _ allQuestions] at plainAsked
  have bareReplies := congrArg Prod.fst plainBare
  have askedReplies := congrArg Prod.fst plainAsked
  have firstLength := length_run PlainDocument.respond
    (openedPlain settings version text access) first
  have questionsLength := length_run PlainDocument.respond
    (run PlainDocument.respond (openedPlain settings version text access) first).2 questions
  simp only at bareReplies askedReplies
  refine ⟨?_, ?_, ?_⟩
  · rw [← askedReplies, ← bareReplies, List.append_assoc, ← firstLength, List.take_left,
      List.take_left]
  · rw [← askedReplies, ← bareReplies, ← firstLength, ← questionsLength,
      ← List.length_append, List.drop_left, List.drop_left]
  · refine map_indexed_eq (isFresh_run fresh _) (isFresh_run fresh _) ?_
    exact (congrArg Prod.snd plainAsked).symm.trans (congrArg Prod.snd plainBare)

/-- Two questions, one of which cannot be answered, between a change of a range and an
update of a copy. The copy goes its own way: it takes one update and refuses the next, and
the document it was made of keeps its text and version. -/
theorem run_opened_refines_around_unreadable :
    let session := opened ⟨.utf16, .strict⟩ 1 ['a', '😀', '\n', 'b'] .direct
    let plain := openedPlain ⟨.utf16, .strict⟩ 1 ['a', '😀', '\n', 'b'] .direct
    let first : List Step := [.ask 0 (.apply (.within ⟨⟨0, 3⟩, ⟨0, 2⟩⟩ ['\n', 'c']))]
    let questions : List Step :=
      [.ask 0 .lineCount, .ask 0 (.read (some ⟨⟨7, 1⟩, ⟨8, 0⟩⟩))]
    let rest : List Step :=
      [.copy 0 .shared, .ask 1 (.update 2 [.within ⟨⟨1, 0⟩, ⟨1, 1⟩⟩ []]),
        .ask 1 (.update 2 []), .ask 0 .text, .ask 0 .version, .ask 1 .text, .ask 1 .version]
    let later : List (Option Document.Reply) :=
      [some .done, some .done, some (.refused (.staleVersion 2 2)),
        some (.text ['a', '\n', 'c', '\n', 'b']), some (.version 1),
        some (.text ['a', '\n', '\n', 'b']), some (.version 2)]
    let bare := run Document.respond session (first ++ rest)
    let asked := run Document.respond session (first ++ questions ++ rest)
    asked.1 = [some .done, some (.count 3), some .unreadable] ++ later ∧
      run PlainDocument.respond plain (first ++ questions ++ rest) =
        (asked.1, asked.2.map Copy.plain) ∧
      asked.2.IsFresh ∧
      (∀ next, next ∈ questions → next.isQuestion = true) ∧
      bare.1 = some .done :: later ∧
      asked.1.take first.length = bare.1.take first.length ∧
      asked.1.drop (first.length + questions.length) = bare.1.drop first.length ∧
      asked.2.map Copy.indexed = bare.2.map Copy.indexed := by
  intro session plain first questions rest later bare asked
  obtain ⟨refines, undisturbed⟩ :=
    run_opened_refines ⟨.utf16, .strict⟩ 1 ['a', '😀', '\n', 'b'] .direct
  obtain ⟨samePlain, fresh⟩ := refines (first ++ questions ++ rest)
  have allQuestions : ∀ next, next ∈ questions → next.isQuestion = true := by decide
  exact ⟨by decide +kernel, samePlain, fresh, allQuestions, by decide +kernel,
    undisturbed first questions rest allQuestions⟩

end Session

end LiveDocument
