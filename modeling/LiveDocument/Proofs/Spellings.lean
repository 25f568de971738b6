import LiveDocument.Proofs.RoundTrips

/-!
# Spellings of a change

The trees that are read as a change are those of a grammar. Those that differ only in how
their records are written are read as one change, and no others are
(`changeEvent_grammar`).
-/

namespace LiveDocument

namespace Wire

open Json

variable {json other : Json}

/-! ## The grammar -/

/-- A value must be there for the field. -/
inductive Required {α : Type} (Form : Json → α → Prop) : Option Json → α → Prop
  | given {value : Json} {a : α} (form : Form value a) : Required Form (some value) a

/-- The field may be left out, and null is as good as that. -/
inductive Optional {α : Type} (Form : Json → α → Prop) : Option Json → Option α → Prop
  | missing : Optional Form none none
  | null : Optional Form (some .null) none
  | given {value : Json} {a : α} (form : Form value a) : Optional Form (some value) (some a)

/-- A coordinate is written with digits alone, and is a 32-bit number. -/
inductive CoordinateForm : Json → Nat → Prop
  | natural {value : Nat} (fits : value < coordinateLimit) :
      CoordinateForm (.natural value) value

inductive TextForm : Json → Text → Prop
  | text (content : Text) : TextForm (.text content) content

theorem required_iff {α : Type} {Form : Json → α → Prop} {a : α} :
    Required Form (some json) a ↔ Form json a :=
  ⟨fun ⟨form⟩ => form, .given⟩

theorem optional_iff {α : Type} {Form : Json → α → Prop} {a? : Option α} :
    Optional Form (some json) a? ↔ json = .null ∧ a? = none ∨ ∃ a, Form json a ∧ a? = some a := by
  constructor
  · rintro (_ | _ | form)
    · exact .inl ⟨rfl, rfl⟩
    · exact .inr ⟨_, form, rfl⟩
  · rintro (⟨rfl, rfl⟩ | ⟨a, form, rfl⟩)
    · exact .null
    · exact .given form

theorem optional_null_iff {α : Type} {Form : Json → α → Prop} {a? : Option α}
    (notNull : ∀ a, ¬ Form .null a) : Optional Form (some .null) a? ↔ Optional Form none a? := by
  constructor
  · rintro (_ | _ | form)
    · exact .missing
    · exact absurd form (notNull _)
  · rintro ⟨⟩
    exact .null

theorem textForm_iff {content : Text} : TextForm json content ↔ json = .text content :=
  ⟨fun ⟨_⟩ => rfl, fun same => same ▸ .text content⟩

def PositionForm (json : Json) (position : Position) : Prop :=
  PairForm "line" "character" (Required CoordinateForm) (Required CoordinateForm) json
    position.line position.character

def RangeForm (json : Json) (range : Range) : Prop :=
  PairForm "start" "end" (Required PositionForm) (Required PositionForm) json
    range.start range.stop

def EventForm (json : Json) (event : ChangeEvent) : Prop :=
  PairForm "range" "text" (Optional RangeForm) (Required TextForm) json
    event.range? event.text

theorem coordinate?_eq_some_iff {value : Nat} :
    coordinate? json = some value ↔ CoordinateForm json value := by
  constructor
  · intro read
    unfold coordinate? at read
    split at read
    · split at read <;> cases read
      exact .natural ‹_›
    · cases read
  · rintro ⟨fits⟩
    exact coordinate?_natural fits

theorem text?_eq_some_iff {content : Text} :
    text? json = some content ↔ TextForm json content := by
  constructor
  · intro read
    unfold text? at read
    split at read
    · cases read
      exact .text content
    · cases read
  · rintro ⟨⟩
    rfl

section Reading

variable {records : Json.Records} (lawful : records.Lawful)

include lawful

/-- Reading a record of two fields that must both be there. -/
theorem pairForm_required_iff {α β γ : Type} {first second : String}
    (distinct : first ≠ second)
    {firstRead? : Json → Option α} {secondRead? : Json → Option β}
    {FirstForm : Json → α → Prop} {SecondForm : Json → β → Prop}
    (firstReads : ∀ {json a}, firstRead? json = some a ↔ FirstForm json a)
    (secondReads : ∀ {json b}, secondRead? json = some b ↔ SecondForm json b)
    {make : α → β → γ} {c : γ} :
    (match records.fields? [first, second] json with
      | some [some firstValue, some secondValue] => do
        some (make (← firstRead? firstValue) (← secondRead? secondValue))
      | _ => none) = some c ↔
      ∃ a b, make a b = c ∧
        PairForm first second (Required FirstForm) (Required SecondForm) json a b := by
  simp only [lawful.pairForm_iff distinct]
  constructor
  · intro read
    split at read
    case h_2 => cases read
    case h_1 firstValue secondValue fields =>
      obtain ⟨a, firstRead, b, secondRead, made⟩ := by
        simpa only [Option.bind_eq_bind, Option.bind_eq_some_iff, Option.some.injEq] using read
      exact ⟨a, b, made, _, _, fields, .given (firstReads.1 firstRead),
        .given (secondReads.1 secondRead)⟩
  · rintro ⟨a, b, made, _, _, fields, ⟨firstForm⟩, ⟨secondForm⟩⟩
    simp only [fields, firstReads.2 firstForm, secondReads.2 secondForm]
    exact congrArg some made

theorem ofJson?_position_eq_some_iff {position : Position} :
    ofJson? json records = some position ↔ PositionForm json position := by
  refine (pairForm_required_iff lawful (by decide) coordinate?_eq_some_iff
    coordinate?_eq_some_iff).trans ?_
  constructor
  · rintro ⟨line, character, rfl, form⟩
    exact form
  · intro form
    exact ⟨_, _, rfl, form⟩

theorem ofJson?_range_eq_some_iff {range : Range} :
    ofJson? json records = some range ↔ RangeForm json range := by
  refine (pairForm_required_iff lawful (by decide) (ofJson?_position_eq_some_iff lawful)
    (ofJson?_position_eq_some_iff lawful)).trans ?_
  constructor
  · rintro ⟨start, stop, rfl, form⟩
    exact form
  · intro form
    exact ⟨_, _, rfl, form⟩

omit lawful in
theorem ne_null_of_rangeForm {range : Range} (form : RangeForm json range) :
    json ≠ .null := by
  cases form <;> nofun

theorem rangeOfJson?_eq_some_iff {value? : Option Json} {range? : Option Range} :
    ChangeEvent.rangeOfJson? records value? = some range? ↔
      Optional RangeForm value? range? := by
  unfold ChangeEvent.rangeOfJson?
  constructor
  · intro read
    split at read
    · cases read
      exact .missing
    · cases read
      exact .null
    · obtain ⟨range, rangeRead, rfl⟩ := Option.map_eq_some_iff.1 read
      exact .given ((ofJson?_range_eq_some_iff lawful).1 rangeRead)
  · intro form
    split
    case h_1 =>
      cases form
      rfl
    case h_2 =>
      cases form with
      | null => rfl
      | given form => exact absurd rfl (ne_null_of_rangeForm form)
    case h_3 value notNull =>
      cases form with
      | null => exact (notNull rfl).elim
      | given form =>
          exact congrArg (Option.map some) ((ofJson?_range_eq_some_iff lawful).2 form)

theorem ofJson?_event_eq_some_iff {event : ChangeEvent} :
    ofJson? json records = some event ↔ EventForm json event := by
  rw [EventForm, lawful.pairForm_iff (by decide)]
  constructor
  · intro read
    simp only [ofJson?] at read
    split at read
    case h_2 => cases read
    case h_1 rangeValue? content fields =>
      obtain ⟨range?, rangeRead, text, textRead, rfl⟩ := by
        simpa only [Option.bind_eq_bind, Option.bind_eq_some_iff, Option.some.injEq] using read
      exact ⟨_, _, fields, (rangeOfJson?_eq_some_iff lawful).1 rangeRead,
        .given (text?_eq_some_iff.1 textRead)⟩
  · rintro ⟨_, _, fields, rangeForm, ⟨textForm⟩⟩
    rw [ofJson?_event fields, (rangeOfJson?_eq_some_iff lawful).2 rangeForm,
      text?_eq_some_iff.2 textForm]
    rfl

end Reading

/-- The range of a change that is sent is left out, or is null. -/
inductive LacksRange : Json → Prop
  | missing {members : List (Option Text × Json)}
      (missing : some "range".toList ∉ members.map Prod.fst) : LacksRange (.object members)
  | null {members : List (Option Text × Json)}
      (isMember : (some "range".toList, .null) ∈ members) : LacksRange (.object members)
  | nullItem {items : List Json} : LacksRange (.array (.null :: items))

theorem EventForm.isFull_iff {event : ChangeEvent} (form : EventForm json event) :
    event.toChange.isFull = true ↔ LacksRange json := by
  have isFull : event.toChange.isFull = event.range?.isNone := by
    rw [ChangeEvent.toChange, Change.isFull, Change.range?_ofParts]
  rw [isFull]
  obtain ⟨range?, text⟩ := event
  rcases form with ⟨_, ⟨value?, held, rangeForm⟩, _⟩ | ⟨rangeForm, _⟩
  · cases rangeForm with
    | missing => exact iff_of_true rfl (.missing held)
    | null => exact iff_of_true rfl (.null held.isMember)
    | given form =>
        refine iff_of_false Bool.false_ne_true ?_
        rintro (missing | isMember)
        · exact missing (List.mem_map_of_mem held.isMember)
        · exact ne_null_of_rangeForm form (held.eq_of_mem isMember).symm
  · cases rangeForm with
    | null => exact iff_of_true rfl .nullItem
    | given form =>
        refine iff_of_false Bool.false_ne_true ?_
        rintro ⟨⟩
        exact ne_null_of_rangeForm form rfl

/-! ## Spellings -/

/-- The trees are spellings of one position. Coordinates are spelled in one way only. -/
def PositionRespelled : Json → Json → Prop := Relation.EqvGen (Respells "line" "character" Eq)

def RangeRespelled : Json → Json → Prop :=
  Relation.EqvGen (Respells "start" "end" PositionRespelled)

/-- The change is spelled in another way: its record is, or a range that is null is left
out. -/
inductive EventRespells : Json → Json → Prop
  | record {json other : Json} (respells : Respells "range" "text" RangeRespelled json other) :
      EventRespells json other
  | nullLeftOut {members : List (Option Text × Json)}
      (missing : some "range".toList ∉ members.map Prod.fst) :
      EventRespells (.object ((some "range".toList, .null) :: members)) (.object members)

def EventRespelled : Json → Json → Prop := Relation.EqvGen EventRespells

theorem iff_of_eqvGen {r : Json → Json → Prop} {P : Json → Prop}
    (step : ∀ json other, r json other → (P json ↔ P other))
    (joined : Relation.EqvGen r json other) : P json ↔ P other := by
  induction joined with
  | rel json other related => exact step json other related
  | refl json => rfl
  | symm json other _ same => exact same.symm
  | trans json next other _ _ first second => exact first.trans second

/-- A value that is no record has one spelling. -/
theorem eq_scalar_iff_of_respelled {value : Scalar} (respelled : RangeRespelled json other) :
    json = .scalar value ↔ other = .scalar value := by
  refine iff_of_eqvGen (P := fun json => json = .scalar value) (fun _ _ step => ?_) respelled
  cases step <;> exact iff_of_false nofun nofun

theorem positionForm_iff_of_respelled {position : Position}
    (respelled : PositionRespelled json other) :
    PositionForm json position ↔ PositionForm other position := by
  refine iff_of_eqvGen (fun _ _ step => step.pairForm_iff (by decide) ?_ ?_) respelled <;>
  · rintro value _ rfl _
    rfl

theorem rangeForm_iff_of_respelled {range : Range} (respelled : RangeRespelled json other) :
    RangeForm json range ↔ RangeForm other range := by
  refine iff_of_eqvGen (fun _ _ step => step.pairForm_iff (by decide) ?_ ?_) respelled <;>
  · intro value other respelled position
    rw [required_iff, required_iff, positionForm_iff_of_respelled respelled]

theorem EventRespells.eventForm_iff {event : ChangeEvent} (step : EventRespells json other) :
    EventForm json event ↔ EventForm other event := by
  cases step with
  | record respells =>
      refine respells.pairForm_iff (by decide) ?_ ?_
      · intro value other respelled range?
        have sameNull : value = .null ↔ other = .null := eq_scalar_iff_of_respelled respelled
        simp only [optional_iff, sameNull, rangeForm_iff_of_respelled respelled]
      · intro value other respelled content
        rw [required_iff, required_iff, textForm_iff, textForm_iff]
        exact eq_scalar_iff_of_respelled respelled
  | @nullLeftOut members missing =>
      have nullField := @field?_cons_of_missing _ _ .null missing
      have noField : field? members "range" = some none := field?_eq_some_iff.2 missing
      have textField : field? ((some "range".toList, .null) :: members) "text" =
          field? members "text" := field?_cons_of_ne (by decide)
      have sameRange := @optional_null_iff _ RangeForm event.range?
        fun range form => ne_null_of_rangeForm form rfl
      simp only [EventForm, pairForm_object_iff, fieldForm_iff, List.forall_mem_cons,
        Option.isSome_some, true_and, nullField, noField, textField, Option.some.injEq,
        exists_eq_left', sameRange]

theorem eventForm_iff_of_respelled {event : ChangeEvent}
    (respelled : EventRespelled json other) : EventForm json event ↔ EventForm other event :=
  iff_of_eqvGen (fun _ _ step => step.eventForm_iff) respelled

theorem PositionForm.respelled {position : Position} (form : PositionForm json position) :
    PositionRespelled json (toJson position) := by
  obtain ⟨_, _, ⟨⟨_⟩⟩, ⟨⟨_⟩⟩, respelled⟩ := PairForm.exists_respelled (by decide) form
  exact respelled

theorem RangeForm.respelled {range : Range} (form : RangeForm json range) :
    RangeRespelled json (toJson range) := by
  obtain ⟨_, _, ⟨start⟩, ⟨stop⟩, respelled⟩ := PairForm.exists_respelled (by decide) form
  exact respelled.trans _ _ _ (.rel _ _ (.within
    (.cons ⟨rfl, start.respelled⟩ (.cons ⟨rfl, stop.respelled⟩ .nil))))

theorem EventForm.respelled {event : ChangeEvent} (form : EventForm json event) :
    EventRespelled json (toJson event) := by
  obtain ⟨range?, text⟩ := event
  obtain ⟨_, _, rangeForm, ⟨⟨_⟩⟩, asObject⟩ := PairForm.exists_respelled (by decide) form
  have respelled : EventRespelled json _ :=
    Relation.EqvGen.mono (fun _ _ => EventRespells.record) _ _ asObject
  cases rangeForm with
  | missing => exact respelled
  | null => exact respelled.trans _ _ _ (.rel _ _ (.nullLeftOut (by simp [memberOf])))
  | given isRange =>
      exact respelled.trans _ _ _ (.rel _ _ (.record (.within
        (.cons ⟨rfl, isRange.respelled⟩ (.cons ⟨rfl, .refl _⟩ .nil)))))

/-- The way of reading records that is used keeps to its law. With all that do, exactly the
trees of the grammar are read as a change, and they are read as the change that the grammar
says. It is one of the whole text if and only if the range is left out or null. It is the
same in all spellings, and each of them is one of what is sent for it. -/
theorem changeEvent_grammar :
    Json.Records.standard.Lawful ∧ ∀ records : Json.Records, records.Lawful →
      (∀ (json : Json) (event : ChangeEvent),
          ofJson? json records = some event ↔ EventForm json event) ∧
        (∀ (json : Json) (event : ChangeEvent), ofJson? json records = some event →
          (event.toChange.isFull = true ↔ LacksRange json)) ∧
        (∀ json other : Json, EventRespelled json other →
          (ofJson? json records : Option ChangeEvent) = ofJson? other records) ∧
        ∀ (json : Json) (event : ChangeEvent), ofJson? json records = some event →
          EventRespelled json (toJson event) := by
  refine ⟨Json.Records.lawful_standard, fun records lawful =>
    ⟨fun _ _ => ofJson?_event_eq_some_iff lawful, ?_, ?_, ?_⟩⟩
  · intro json event read
    exact ((ofJson?_event_eq_some_iff lawful).1 read).isFull_iff
  · intro json other respelled
    refine Option.ext fun event => ?_
    rw [ofJson?_event_eq_some_iff lawful, ofJson?_event_eq_some_iff lawful,
      eventForm_iff_of_respelled respelled]
  · intro json event read
    exact ((ofJson?_event_eq_some_iff lawful).1 read).respelled

/-- A change that is sent as arrays, and as objects with a member that is not known and
comes twice. -/
theorem changeEvent_grammar_two_spellings :
    let start : Json := .array [.natural 1, .natural 2]
    let stop : Json := .array [.natural 3, .natural 4]
    let brief : Json := .array [.array [start, stop], .text ['x']]
    let spread : Json := .record [("version", .natural 1), ("text", .text ['x']),
      ("version", .null), ("range", .record [("end", stop), ("start", start)])]
    let event : ChangeEvent := ⟨some ⟨⟨1, 2⟩, ⟨3, 4⟩⟩, ['x']⟩
    ofJson? spread = some event ∧ EventForm spread event ∧
      (event.toChange.isFull = true ↔ LacksRange spread) ∧
      EventRespelled brief spread ∧ ofJson? brief = some event := by
  intro start stop brief spread event
  obtain ⟨lawful, ofLaw⟩ := changeEvent_grammar
  obtain ⟨grammar, isFull, same, spelled⟩ := ofLaw .standard lawful
  have read : ofJson? spread = some event := by decide +kernel
  have respelled : EventRespelled brief spread :=
    (spelled brief event rfl).trans _ _ _ ((spelled spread event read).symm)
  exact ⟨read, (grammar _ _).1 read, isFull _ _ read, respelled,
    (same _ _ respelled).trans read⟩

end Wire

end LiveDocument
