import LiveDocument.Wire.Record
import Mathlib.Data.List.Forall2
import Mathlib.Logic.Relation

/-!
# Records of two fields

What a record of two fields stands for is told by what its fields stand for (`PairForm`),
and this is what any way of reading records is asked to go by (`Records.Lawful`). It may be
written in many ways: the members of an object come in any order and among others, and the
record may be an array instead. All of them stand for the same (`Respells.pairForm_iff`),
and lead to the object that has the fields alone (`PairForm.exists_respelled`).
-/

namespace LiveDocument

namespace Json

variable {members others : List (Option Text × Json)} {name first second : String}

/-- Exactly one of the members has this name, and it has this value. -/
structure HasOnce (members : List (Option Text × Json)) (name : String) (value : Json) :
    Prop where
  once : (members.map Prod.fst).count (some name.toList) = 1
  isMember : (some name.toList, value) ∈ members

/-- What an object has for the field of this name: nothing, or the value of the only
member of the name. -/
def Holds (members : List (Option Text × Json)) (name : String) : Option Json → Prop
  | none => some name.toList ∉ members.map Prod.fst
  | some value => HasOnce members name value

def withName (members : List (Option Text × Json)) (name : String) :
    List (Option Text × Json) :=
  members.filter fun member => member.1 == some name.toList

/-- The member for a field that may be left out. -/
def memberOf (name : String) : Option Json → List (Option Text × Json)
  | none => []
  | some value => [(some name.toList, value)]

theorem mem_withName {member : Option Text × Json} :
    member ∈ withName members name ↔ member ∈ members ∧ member.1 = some name.toList := by
  rw [withName, List.mem_filter, beq_iff_eq]

theorem length_withName :
    (withName members name).length = (members.map Prod.fst).count (some name.toList) := by
  rw [List.count_eq_countP, List.countP_map, List.countP_eq_length_filter]
  rfl

theorem withName_eq_nil_iff :
    withName members name = [] ↔ some name.toList ∉ members.map Prod.fst := by
  rw [← List.length_eq_zero_iff, length_withName, List.count_eq_zero]

theorem withName_eq_singleton_iff {value : Json} :
    withName members name = [(some name.toList, value)] ↔ HasOnce members name value := by
  have isIn := @mem_withName members name (some name.toList, value)
  constructor
  · intro onlyThat
    have sameLength := @length_withName members name
    rw [onlyThat] at isIn sameLength
    exact ⟨sameLength.symm, (isIn.1 List.mem_cons_self).1⟩
  · intro held
    obtain ⟨only, onlyThat⟩ := List.length_eq_one_iff.1 (length_withName.trans held.once)
    rw [onlyThat] at isIn ⊢
    rw [List.mem_singleton.1 (isIn.2 ⟨held.isMember, rfl⟩)]

theorem withName_eq_memberOf_iff {value? : Option Json} :
    withName members name = memberOf name value? ↔ Holds members name value? := by
  cases value? with
  | none => exact withName_eq_nil_iff
  | some value => exact withName_eq_singleton_iff

theorem field?_eq_some_iff {value? : Option Json} :
    field? members name = some value? ↔ Holds members name value? := by
  rw [← withName_eq_memberOf_iff, field?]
  split
  case h_1 named =>
    rw [withName, named]
    cases value? <;> simp [memberOf]
  case h_2 member named =>
    have isNamed : member.1 = some name.toList :=
      (mem_withName.1 (named ▸ List.mem_cons_self)).2
    rw [withName, named]
    cases value? <;> simp [memberOf, Prod.ext_iff, isNamed]
  case h_3 notNone notOne =>
    refine iff_of_false (Option.some_ne_none _).symm ?_
    cases value? with
    | none => exact notNone
    | some value => exact notOne _

theorem HasOnce.eq_of_mem {value other : Json} (held : HasOnce members name value)
    (isMember : (some name.toList, other) ∈ members) : other = value := by
  have isNamed := mem_withName.2 ⟨isMember, rfl⟩
  rw [withName_eq_singleton_iff.2 held, List.mem_singleton] at isNamed
  exact congrArg Prod.snd isNamed

/-! ## Records of two fields -/

section Forms

variable {α β : Type} {FirstForm : Option Json → α → Prop}
  {SecondForm : Option Json → β → Prop} {json other : Json} {a : α} {b : β}

/-- What the members have for the field of this name stands for `a`. -/
def FieldForm (members : List (Option Text × Json)) (name : String)
    (Form : Option Json → α → Prop) (a : α) : Prop :=
  ∃ value?, Holds members name value? ∧ Form value? a

/-- The form of a record of two fields that stand for `a` and `b`. In an object the other
members may have any texts for their names, and any values. -/
inductive PairForm (first second : String) (FirstForm : Option Json → α → Prop)
    (SecondForm : Option Json → β → Prop) : Json → α → β → Prop
  | object {members : List (Option Text × Json)} {a : α} {b : β}
      (named : ∀ member ∈ members, member.1.isSome)
      (firstField : FieldForm members first FirstForm a)
      (secondField : FieldForm members second SecondForm b) :
      PairForm first second FirstForm SecondForm (object members) a b
  | array {firstValue secondValue : Json} {a : α} {b : β}
      (firstItem : FirstForm (some firstValue) a)
      (secondItem : SecondForm (some secondValue) b) :
      PairForm first second FirstForm SecondForm (array [firstValue, secondValue]) a b

theorem fieldForm_iff :
    FieldForm members name FirstForm a ↔
      ∃ value?, field? members name = some value? ∧ FirstForm value? a := by
  simp only [FieldForm, field?_eq_some_iff]

theorem fields?_object_eq_some_iff {firstValue? secondValue? : Option Json} :
    (object members).fields? [first, second] = some [firstValue?, secondValue?] ↔
      (∀ member ∈ members, member.1.isSome) ∧
        field? members first = some firstValue? ∧
        field? members second = some secondValue? := by
  simp [fields?, List.mapM_cons, Option.bind_eq_some_iff]

theorem pairForm_object_iff :
    PairForm first second FirstForm SecondForm (object members) a b ↔
      (∀ member ∈ members, member.1.isSome) ∧
        FieldForm members first FirstForm a ∧ FieldForm members second SecondForm b := by
  constructor
  · rintro ⟨named, firstField, secondField⟩
    exact ⟨named, firstField, secondField⟩
  · rintro ⟨named, firstField, secondField⟩
    exact .object named firstField secondField

/-- A record has its form when the values of its fields have theirs. -/
theorem pairForm_iff_values :
    PairForm first second FirstForm SecondForm json a b ↔
      ∃ firstValue? secondValue?, PairForm first second Eq Eq json firstValue? secondValue? ∧
        FirstForm firstValue? a ∧ SecondForm secondValue? b := by
  constructor
  · rintro (⟨named, ⟨_, holdsFirst, isFirst⟩, _, holdsSecond, isSecond⟩ |
      ⟨firstItem, secondItem⟩)
    · exact ⟨_, _, .object named ⟨_, holdsFirst, rfl⟩ ⟨_, holdsSecond, rfl⟩, isFirst, isSecond⟩
    · exact ⟨_, _, .array rfl rfl, firstItem, secondItem⟩
  · rintro ⟨_, _, ⟨named, ⟨_, holdsFirst, rfl⟩, _, holdsSecond, rfl⟩ | ⟨rfl, rfl⟩,
      isFirst, isSecond⟩
    · exact .object named ⟨_, holdsFirst, isFirst⟩ ⟨_, holdsSecond, isSecond⟩
    · exact .array isFirst isSecond

/-- The object with the members of a record alone has its fields. -/
theorem pairForm_memberOf (distinct : first ≠ second) (firstValue? secondValue? : Option Json) :
    PairForm first second Eq Eq
      (object (memberOf first firstValue? ++ memberOf second secondValue?))
      firstValue? secondValue? := by
  have secondDiffers : (some second.toList == some first.toList) = false := by
    simpa [String.toList_inj] using distinct.symm
  have firstDiffers : (some first.toList == some second.toList) = false := by
    simpa [String.toList_inj] using distinct
  refine .object ?_ ⟨_, withName_eq_memberOf_iff.1 ?_, rfl⟩
    ⟨_, withName_eq_memberOf_iff.1 ?_, rfl⟩
  · cases firstValue? <;> cases secondValue? <;> simp [memberOf]
  · cases firstValue? <;> cases secondValue? <;> simp [withName, memberOf, secondDiffers]
  · cases firstValue? <;> cases secondValue? <;> simp [withName, memberOf, firstDiffers]

/-- The law of a way of reading records: an object has what its members hold for the
fields, whatever other members there are, and an array has an item for each field. -/
def Records.Lawful (records : Records) : Prop :=
  ∀ {first second : String}, first ≠ second → ∀ {json : Json} {firstValue? secondValue?},
    records.fields? [first, second] json = some [firstValue?, secondValue?] ↔
      PairForm first second Eq Eq json firstValue? secondValue?

theorem fields?_eq_some_iff {firstValue? secondValue? : Option Json} :
    json.fields? [first, second] = some [firstValue?, secondValue?] ↔
      PairForm first second Eq Eq json firstValue? secondValue? := by
  cases json with
  | scalar value => exact ⟨nofun, nofun⟩
  | array items =>
      constructor
      · intro fields
        obtain ⟨sameLength, values⟩ : items.length = 2 ∧
            items.map some = [firstValue?, secondValue?] := by
          simpa [fields?] using fields
        obtain ⟨firstValue, secondValue, rfl⟩ := List.length_eq_two.1 sameLength
        cases values
        exact .array rfl rfl
      · rintro (_ | ⟨rfl, rfl⟩)
        rfl
  | object members =>
      simp [pairForm_object_iff, fieldForm_iff, fields?_object_eq_some_iff]

theorem Records.lawful_standard : Records.standard.Lawful := fun _ => fields?_eq_some_iff

theorem Records.Lawful.pairForm_iff {records : Records} (lawful : records.Lawful)
    (distinct : first ≠ second) :
    PairForm first second FirstForm SecondForm json a b ↔
      ∃ firstValue? secondValue?,
        records.fields? [first, second] json = some [firstValue?, secondValue?] ∧
          FirstForm firstValue? a ∧ SecondForm secondValue? b := by
  simp only [lawful distinct]
  exact pairForm_iff_values

/-- What is sent as a record is read by its fields. -/
theorem Records.Lawful.fields?_memberOf {records : Records} (lawful : records.Lawful)
    (distinct : first ≠ second) (firstValue? secondValue? : Option Json) :
    records.fields? [first, second]
        (object (memberOf first firstValue? ++ memberOf second secondValue?)) =
      some [firstValue?, secondValue?] :=
  (lawful distinct).2 (pairForm_memberOf distinct firstValue? secondValue?)

/-! ## Other spellings of a record -/

/-- The record is spelled in another way. The values of its members may be spelled in
another way as well, which `Inner` says. -/
inductive Respells (first second : String) (Inner : Json → Json → Prop) :
    Json → Json → Prop
  | order {members others : List (Option Text × Json)} (same : members.Perm others) :
      Respells first second Inner (object members) (object others)
  /-- There is one member more, for neither of the fields. -/
  | unknown {members : List (Option Text × Json)} {name : Text} {value : Json}
      (notFirst : name ≠ first.toList) (notSecond : name ≠ second.toList) :
      Respells first second Inner (object members) (object ((some name, value) :: members))
  | positional {firstValue secondValue : Json} :
      Respells first second Inner (record [(first, firstValue), (second, secondValue)])
        (array [firstValue, secondValue])
  | within {members others : List (Option Text × Json)}
      (each : List.Forall₂
        (fun member other => member.1 = other.1 ∧ Inner member.2 other.2) members others) :
      Respells first second Inner (object members) (object others)

theorem Holds.perm {value? : Option Json} (same : members.Perm others)
    (held : Holds members name value?) : Holds others name value? := by
  have sameNames := same.map Prod.fst
  cases value? with
  | none => exact fun isIn => held (sameNames.mem_iff.2 isIn)
  | some value =>
      exact ⟨(sameNames.count_eq _).symm.trans held.once, same.mem_iff.1 held.isMember⟩

theorem fieldForm_perm (same : members.Perm others) :
    FieldForm members name FirstForm a ↔ FieldForm others name FirstForm a :=
  exists_congr fun _ => and_congr_left' ⟨Holds.perm same, Holds.perm same.symm⟩

theorem field?_cons_of_missing {value : Json} (missing : some name.toList ∉ members.map Prod.fst) :
    field? ((some name.toList, value) :: members) name = some (some value) := by
  rw [field?, List.filter_cons_of_pos (by simp), ← withName, withName_eq_nil_iff.2 missing]

theorem field?_cons_of_ne {known : Text} {value : Json} (different : known ≠ name.toList) :
    field? ((some known, value) :: members) name = field? members name := by
  rw [field?, List.filter_cons_of_neg (by simpa using different)]
  rfl

section Within

variable {Inner : Json → Json → Prop}
  (each : List.Forall₂
    (fun member other => member.1 = other.1 ∧ Inner member.2 other.2) members others)

include each

theorem named_within :
    (∀ member ∈ members, member.1.isSome) ↔ ∀ member ∈ others, member.1.isSome := by
  induction each with
  | nil => rfl
  | cons same _ ih => rw [List.forall_mem_cons, List.forall_mem_cons, ih, same.1]

theorem field?_within :
    Option.Rel (Option.Rel Inner) (field? members name) (field? others name) := by
  have named := List.rel_filter (p := fun member => member.1 == some name.toList)
    (q := fun member => member.1 == some name.toList)
    (fun _ _ same => by simp only [same.1]) each
  unfold field?
  generalize members.filter _ = membersNamed at named ⊢
  generalize others.filter _ = othersNamed at named ⊢
  rcases named with _ | ⟨same, _ | _⟩
  · exact .some .none
  · exact .some (.some same.2)
  · exact .none

theorem fieldForm_within
    (sameForm : ∀ value other, Inner value other →
      ∀ a, FirstForm (some value) a ↔ FirstForm (some other) a) :
    FieldForm members name FirstForm a ↔ FieldForm others name FirstForm a := by
  have sameField : Option.Rel (Option.Rel Inner) (field? members name) (field? others name) :=
    field?_within each
  rw [fieldForm_iff, fieldForm_iff]
  generalize field? members name = memberField at sameField ⊢
  generalize field? others name = otherField at sameField ⊢
  rcases sameField with ⟨sameValue | _⟩ | _
  · simp [sameForm _ _ sameValue]
  · rfl
  · rfl

end Within

/-- In each of its spellings a record stands for the same. -/
theorem Respells.pairForm_iff {Inner : Json → Json → Prop}
    (respells : Respells first second Inner json other) (distinct : first ≠ second)
    (sameFirst : ∀ value other, Inner value other →
      ∀ a, FirstForm (some value) a ↔ FirstForm (some other) a)
    (sameSecond : ∀ value other, Inner value other →
      ∀ b, SecondForm (some value) b ↔ SecondForm (some other) b) :
    PairForm first second FirstForm SecondForm json a b ↔
      PairForm first second FirstForm SecondForm other a b := by
  cases respells with
  | order same =>
      simp only [pairForm_object_iff, fieldForm_perm same, same.mem_iff]
  | unknown notFirst notSecond =>
      simp only [pairForm_object_iff, fieldForm_iff, field?_cons_of_ne notFirst,
        field?_cons_of_ne notSecond, List.forall_mem_cons, Option.isSome_some, true_and]
  | @positional firstValue secondValue =>
      have sameFields :
          Records.standard.fields? [first, second]
              (record [(first, firstValue), (second, secondValue)]) =
            Records.standard.fields? [first, second] (array [firstValue, secondValue]) :=
        Records.lawful_standard.fields?_memberOf distinct (some firstValue) (some secondValue)
      rw [Records.lawful_standard.pairForm_iff distinct,
        Records.lawful_standard.pairForm_iff distinct, sameFields]
  | within each =>
      simp only [pairForm_object_iff, named_within each, fieldForm_within each sameFirst,
        fieldForm_within each sameSecond]

theorem withName_filter_of_ne (distinct : first ≠ second) :
    withName (members.filter fun member => !(member.1 == some first.toList)) second =
      withName members second := by
  rw [withName, List.filter_filter]
  refine List.filter_congr fun member _ => ?_
  rw [Bool.and_eq_left_iff_imp, beq_iff_eq, Bool.not_eq_true', beq_eq_false_iff_ne]
  intro isSecond isFirst
  rw [isSecond, Option.some.injEq, String.toList_inj] at isFirst
  exact distinct isFirst.symm

/-- Members that are for neither of the fields may be left out. -/
theorem respelled_append {Inner : Json → Json → Prop} {unknown : List (Option Text × Json)}
    (named : ∀ member ∈ unknown, member.1.isSome)
    (notFirst : ∀ member ∈ unknown, member.1 ≠ some first.toList)
    (notSecond : ∀ member ∈ unknown, member.1 ≠ some second.toList) :
    Relation.EqvGen (Respells first second Inner) (object members)
      (object (unknown ++ members)) := by
  induction unknown with
  | nil => exact .refl _
  | cons member rest ih =>
      obtain ⟨⟨⟩ | name, value⟩ := member
      · exact absurd (named _ List.mem_cons_self) Bool.false_ne_true
      · have restRespelled := ih (fun member isIn => named member (List.mem_cons_of_mem _ isIn))
          (fun member isIn => notFirst member (List.mem_cons_of_mem _ isIn))
          (fun member isIn => notSecond member (List.mem_cons_of_mem _ isIn))
        refine restRespelled.trans _ _ _ (.rel _ _ (.unknown ?_ ?_))
        · exact fun same => notFirst _ List.mem_cons_self (congrArg some same)
        · exact fun same => notSecond _ List.mem_cons_self (congrArg some same)

/-- An object is another spelling of the object that has only its members for the
fields. -/
theorem respelled_withName {Inner : Json → Json → Prop} (distinct : first ≠ second)
    (named : ∀ member ∈ members, member.1.isSome) :
    Relation.EqvGen (Respells first second Inner) (object members)
      (object (withName members first ++ withName members second)) := by
  let notFirst := members.filter fun member => !(member.1 == some first.toList)
  let unknown := notFirst.filter fun member => !(member.1 == some second.toList)
  have allOfFirst : (withName members first ++ notFirst).Perm members :=
    List.filter_append_perm _ _
  have allOfSecond : (withName members second ++ unknown).Perm notFirst := by
    rw [← withName_filter_of_ne distinct]
    exact List.filter_append_perm _ _
  -- What is for neither of the fields comes first, where it may be left out.
  have allMembers :
      (unknown ++ (withName members first ++ withName members second)).Perm members := by
    refine List.perm_append_comm.trans ?_
    rw [List.append_assoc]
    exact (allOfSecond.append_left _).trans allOfFirst
  refine .symm _ _ (.trans _ _ _ (respelled_append ?_ ?_ ?_) (.rel _ _ (.order allMembers)))
  · exact fun member isIn => named member (allMembers.mem_iff.1 (List.mem_append_left _ isIn))
  · intro member isIn
    simpa using (List.mem_filter.1 (List.mem_filter.1 isIn).1).2
  · intro member isIn
    simpa using (List.mem_filter.1 isIn).2

/-- A record is another spelling of the object that has its fields alone. -/
theorem PairForm.exists_respelled {Inner : Json → Json → Prop} (distinct : first ≠ second)
    (form : PairForm first second FirstForm SecondForm json a b) :
    ∃ firstValue? secondValue?, FirstForm firstValue? a ∧ SecondForm secondValue? b ∧
      Relation.EqvGen (Respells first second Inner) json
        (Json.object (memberOf first firstValue? ++ memberOf second secondValue?)) := by
  rcases form with ⟨named, ⟨_, holdsFirst, isFirst⟩, _, holdsSecond, isSecond⟩ |
    ⟨firstItem, secondItem⟩
  · refine ⟨_, _, isFirst, isSecond, ?_⟩
    rw [← withName_eq_memberOf_iff.2 holdsFirst, ← withName_eq_memberOf_iff.2 holdsSecond]
    exact respelled_withName distinct named
  · exact ⟨_, _, firstItem, secondItem, .symm _ _ (.rel _ _ .positional)⟩

end Forms

end Json

end LiveDocument
