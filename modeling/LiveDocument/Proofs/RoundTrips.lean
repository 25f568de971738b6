import LiveDocument.Document.Basic
import LiveDocument.Proofs.JsonTexts
import LiveDocument.Proofs.RecordForms
import LiveDocument.Wire.Forms

/-!
# Wire forms read back

Everything that is sent is read back as it was, whatever characters its texts hold, as
long as its coordinates fit on the wire and both sides keep to the laws of the format. So a
document comes to the same by the changes that were sent and by those that are received
(`roundTrips`).
-/

namespace LiveDocument

namespace Json

theorem isPortable_record {fields : List (String × Json)}
    (each : ∀ field ∈ fields, field.2.IsPortable) : (record fields).IsPortable := by
  refine each_object (fun member isIn => ?_) fun member isIn => ?_
  · obtain ⟨field, _, rfl⟩ := List.mem_map.1 isIn
    rfl
  · obtain ⟨field, isField, rfl⟩ := List.mem_map.1 isIn
    exact each field isField

theorem isPortable_record_two {first second : String} {firstValue secondValue : Json}
    (firstPortable : firstValue.IsPortable) (secondPortable : secondValue.IsPortable) :
    (record [(first, firstValue), (second, secondValue)]).IsPortable := by
  refine isPortable_record fun field isField => ?_
  rcases List.mem_pair.1 isField with rfl | rfl
  · exact firstPortable
  · exact secondPortable

theorem Records.Lawful.fields?_record_two {records : Records} (lawful : records.Lawful)
    {first second : String} (distinct : first ≠ second) (firstValue secondValue : Json) :
    records.fields? [first, second] (record [(first, firstValue), (second, secondValue)]) =
      some [some firstValue, some secondValue] :=
  lawful.fields?_memberOf distinct (some firstValue) (some secondValue)

theorem isPortable_text (content : Text) : (text content).IsPortable :=
  each_scalar rfl

end Json

/-- The coordinates are 32-bit numbers. -/
def Position.FitsWire (position : Position) : Prop :=
  position.line < Wire.coordinateLimit ∧ position.character < Wire.coordinateLimit

instance (position : Position) : Decidable position.FitsWire :=
  inferInstanceAs (Decidable (_ ∧ _))

def Range.FitsWire (range : Range) : Prop := range.start.FitsWire ∧ range.stop.FitsWire

instance (range : Range) : Decidable range.FitsWire :=
  inferInstanceAs (Decidable (_ ∧ _))

def Change.FitsWire (change : Change) : Prop := ∀ range ∈ change.range?, range.FitsWire

namespace Wire

/-- The form of `value` is one that formats keep, and is read as `value`. -/
structure ReadsBack {α : Type} [Wire α] (records : Json.Records) (value : α) : Prop where
  portable : (toJson value).IsPortable
  read : ofJson? (toJson value) records = some value

variable {records : Json.Records}

section Generic

variable {α : Type} [Wire α]

theorem ReadsBack.read?_write {value : α} (back : ReadsBack records value)
    {format : Json.Format} (lawful : format.Lawful) :
    read? (write value format) format records = some value := by
  rw [read?, write, lawful _ back.portable]
  exact back.read

theorem readsBack_list {values : List α} (each : ∀ value ∈ values, ReadsBack records value) :
    ReadsBack records values where
  portable := by
    refine Json.each_array fun item isIn => ?_
    obtain ⟨value, isValue, rfl⟩ := List.mem_map.1 isIn
    exact (each value isValue).portable
  read := by
    change (values.map toJson).mapM (fun item => ofJson? item records) = some values
    induction values with
    | nil => rfl
    | cons first rest ih =>
        have firstRead := (each first List.mem_cons_self).read
        have restRead := ih fun value isIn => each value (List.mem_cons_of_mem _ isIn)
        rw [List.map_cons, List.mapM_cons, firstRead, restRead]
        rfl

end Generic

/-! ## Forms -/

theorem coordinate?_natural {value : Nat} (fits : value < coordinateLimit) :
    coordinate? (.natural value) = some value :=
  if_pos fits

theorem isPortable_coordinate {value : Nat} (fits : value < coordinateLimit) :
    (Json.natural value).IsPortable :=
  Json.each_scalar (Nat.lt_trans fits (by decide : coordinateLimit < UInt64.size))

section Fields

variable {json first second : Json}

theorem ofJson?_position
    (fields : records.fields? ["line", "character"] json = some [some first, some second]) :
    (ofJson? json records : Option Position) =
      (do some ⟨← coordinate? first, ← coordinate? second⟩) := by
  simp only [ofJson?, fields]

theorem ofJson?_range
    (fields : records.fields? ["start", "end"] json = some [some first, some second]) :
    (ofJson? json records : Option Range) =
      (do some ⟨← ofJson? first records, ← ofJson? second records⟩) := by
  simp only [ofJson?, fields]

theorem ofJson?_edit
    (fields : records.fields? ["range", "newText"] json = some [some first, some second]) :
    (ofJson? json records : Option Edit) =
      (do some ⟨← ofJson? first records, ← text? second⟩) := by
  simp only [ofJson?, fields]

theorem ofJson?_event {range? : Option Json}
    (fields : records.fields? ["range", "text"] json = some [range?, some second]) :
    (ofJson? json records : Option ChangeEvent) =
      (do some ⟨← ChangeEvent.rangeOfJson? records range?, ← text? second⟩) := by
  simp only [ofJson?, fields]

end Fields

theorem readsBack_columnUnit (unit : ColumnUnit) : ReadsBack records unit where
  portable := Json.isPortable_text _
  read := by
    change unitOfName? (some unit.name.toList) = some unit
    rw [unitOfName?, Option.bind_some, String.ofList_toList, ColumnUnit.ofName?_name]

variable (lawful : records.Lawful)

include lawful

theorem readsBack_position {position : Position} (fits : position.FitsWire) :
    ReadsBack records position where
  portable := Json.isPortable_record_two (isPortable_coordinate fits.1)
    (isPortable_coordinate fits.2)
  read := by
    have fields := lawful.fields?_record_two (by decide : "line" ≠ "character")
      (.natural position.line) (.natural position.character)
    refine (ofJson?_position fields).trans ?_
    rw [coordinate?_natural fits.1, coordinate?_natural fits.2]
    rfl

theorem readsBack_range {range : Range} (fits : range.FitsWire) :
    ReadsBack records range where
  portable := Json.isPortable_record_two (readsBack_position lawful fits.1).portable
    (readsBack_position lawful fits.2).portable
  read := by
    have fields := lawful.fields?_record_two (by decide : "start" ≠ "end")
      (toJson range.start) (toJson range.stop)
    refine (ofJson?_range fields).trans ?_
    rw [(readsBack_position lawful fits.1).read, (readsBack_position lawful fits.2).read]
    rfl

theorem readsBack_edit {edit : Edit} (fits : edit.range.FitsWire) :
    ReadsBack records edit where
  portable := Json.isPortable_record_two (readsBack_range lawful fits).portable
    (Json.isPortable_text _)
  read := by
    have fields := lawful.fields?_record_two (by decide : "range" ≠ "newText")
      (toJson edit.range) (.text edit.text)
    refine (ofJson?_edit fields).trans ?_
    rw [(readsBack_range lawful fits).read]
    rfl

theorem rangeOfJson?_toJson {range : Range} (fits : range.FitsWire) :
    ChangeEvent.rangeOfJson? records (some (toJson range)) = some (some range) := by
  change (ofJson? (toJson range) records).map some = _
  rw [(readsBack_range lawful fits).read]
  rfl

theorem readsBack_event {event : ChangeEvent}
    (fits : ∀ range ∈ event.range?, range.FitsWire) : ReadsBack records event := by
  obtain ⟨_ | range, text⟩ := event
  · refine ⟨Json.isPortable_record fun field isField => ?_, ?_⟩
    · rw [List.mem_singleton.1 isField]
      exact Json.isPortable_text _
    · exact ofJson?_event
        (lawful.fields?_memberOf (by decide : "range" ≠ "text") none (some (.text text)))
  · have rangeFits := fits range rfl
    refine ⟨Json.isPortable_record_two (readsBack_range lawful rangeFits).portable
      (Json.isPortable_text _), ?_⟩
    have fields := lawful.fields?_record_two (by decide : "range" ≠ "text")
      (toJson range) (.text text)
    refine (ofJson?_event fields).trans ?_
    rw [rangeOfJson?_toJson lawful rangeFits]
    rfl

theorem readsBack_ofChange {change : Change} (fits : change.FitsWire) :
    ReadsBack records (ChangeEvent.ofChange change) :=
  readsBack_event lawful fits

omit lawful

/-- The object that is sent has a range when the change does. -/
theorem hasRange_toJson_ofChange (change : Change) :
    ∃ members, toJson (ChangeEvent.ofChange change) = .object members ∧
      (some "range".toList ∈ members.map Prod.fst ↔
        ∃ range text, change = .within range text) := by
  cases change with
  | full text => exact ⟨_, rfl, by simp⟩
  | within range text => exact ⟨_, rfl, by simp⟩

theorem map_toChange_map_ofChange (changes : List Change) :
    (changes.map ChangeEvent.ofChange).map ChangeEvent.toChange = changes := by
  rw [List.map_map]
  exact List.map_id'' ChangeEvent.toChange_ofChange changes

/-- The format and the way of reading records that are used keep to their laws. With all
that do, what is written is read back. A change keeps whether it has a range, and a document
comes to the same by a list of changes and by what is read of it. -/
theorem roundTrips :
    (Json.Format.strict.Lawful ∧ Json.Records.standard.Lawful) ∧
      ∀ (format : Json.Format) (records : Json.Records), format.Lawful → records.Lawful →
        (∀ position : Position, position.FitsWire →
            read? (write position format) format records = some position) ∧
          (∀ range : Range, range.FitsWire →
            read? (write range format) format records = some range) ∧
          (∀ unit : ColumnUnit, read? (write unit format) format records = some unit) ∧
          (∀ edit : Edit, edit.range.FitsWire →
            read? (write edit format) format records = some edit) ∧
          (∀ event : ChangeEvent, (∀ range ∈ event.range?, range.FitsWire) →
            read? (write event format) format records = some event) ∧
          (∀ change : Change, change.FitsWire →
            (read? (write (ChangeEvent.ofChange change) format) format records).map
                ChangeEvent.toChange = some change ∧
              ∃ members,
                format.read? (write (ChangeEvent.ofChange change) format) =
                    some (.object members) ∧
                  (some "range".toList ∈ members.map Prod.fst ↔
                    ∃ range text, change = .within range text)) ∧
          ∀ (changes : List Change) (document : Document),
            (∀ change ∈ changes, change.FitsWire) →
              (read? (write (changes.map ChangeEvent.ofChange) format) format records).map
                  (fun events : List ChangeEvent =>
                    document.applyAll (events.map ChangeEvent.toChange)) =
                some (document.applyAll changes) := by
  refine ⟨⟨Json.Format.lawful_strict, Json.Records.lawful_standard⟩,
    fun format records keeps lawful =>
      ⟨fun position fits => (readsBack_position lawful fits).read?_write keeps,
        fun range fits => (readsBack_range lawful fits).read?_write keeps,
        fun unit => (readsBack_columnUnit unit).read?_write keeps,
        fun edit fits => (readsBack_edit lawful fits).read?_write keeps,
        fun event fits => (readsBack_event lawful fits).read?_write keeps, ?_, ?_⟩⟩
  · intro change fits
    have back := readsBack_ofChange lawful fits
    obtain ⟨members, isObject, hasRange⟩ := hasRange_toJson_ofChange change
    refine ⟨?_, members, ?_, hasRange⟩
    · rw [back.read?_write keeps, Option.map_some, ChangeEvent.toChange_ofChange]
    · rw [write, keeps _ back.portable, isObject]
  · intro changes document fits
    have back : ReadsBack records (changes.map ChangeEvent.ofChange) := by
      refine readsBack_list fun event isEvent => ?_
      obtain ⟨change, isChange, rfl⟩ := List.mem_map.1 isEvent
      exact readsBack_ofChange lawful (fits change isChange)
    rw [back.read?_write keeps, Option.map_some, map_toChange_map_ofChange]

/-- A change with the greatest column, and with characters that are written in each of the
possible ways. -/
theorem roundTrips_escapes :
    let text : Text := ['\x00', '\x1f', '\n', '"', '\\', '\x7f', 'é', Char.ofNat 0x1f600]
    let range : Range := ⟨⟨0, 4294967295⟩, ⟨7, 0⟩⟩
    range.FitsWire ∧
      write (ChangeEvent.ofChange (.full text)) =
        "\x7b\"text\":\"\\u0000\\u001f\\n\\\"\\\\\x7fé😀\"\x7d".toList ∧
      (read? (write (ChangeEvent.ofChange (.within range text)))).map ChangeEvent.toChange =
        some (.within range text) ∧
      read? (write (⟨range, text⟩ : Edit)) = some (⟨range, text⟩ : Edit) ∧
      ∀ document : Document,
        (read? (write ([.full text, .within range text].map ChangeEvent.ofChange))).map
            (fun events : List ChangeEvent =>
              document.applyAll (events.map ChangeEvent.toChange)) =
          some (document.applyAll [.full text, .within range text]) := by
  intro text range
  obtain ⟨⟨keeps, lawful⟩, ofLaws⟩ := roundTrips
  obtain ⟨_, _, _, edits, _, changes, lists⟩ := ofLaws .strict .standard keeps lawful
  have fits : range.FitsWire := by decide
  refine ⟨fits, by decide +kernel, (changes (.within range text) ?_).1,
    edits ⟨range, text⟩ fits, fun document => lists _ document ?_⟩
  · rintro other isRange
    cases isRange
    exact fits
  · intro change isChange other isRange
    rcases List.mem_pair.1 isChange with rfl | rfl
    · cases isRange
    · cases isRange
      exact fits

end Wire

end LiveDocument
