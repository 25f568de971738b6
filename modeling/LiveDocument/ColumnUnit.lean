import LiveDocument.Text.Bytes

/-!
# Units of columns

Client and server agree on the unit in which columns are counted. Where every
character takes as many units as bytes the conversions have a short way; elsewhere
they add up the widths of the characters one by one.
-/

namespace LiveDocument

inductive ColumnUnit where
  | utf8
  | utf16
  | utf32
deriving DecidableEq, Repr

namespace ColumnUnit

/-- Columns are counted in UTF-16 code units unless another unit is agreed on. -/
instance : Inhabited ColumnUnit := ⟨utf16⟩

/-- The name by which client and server agree on the unit. -/
def name : ColumnUnit → String
  | utf8 => "utf-8"
  | utf16 => "utf-16"
  | utf32 => "utf-32"

def label : ColumnUnit → String
  | utf8 => "Utf8"
  | utf16 => "Utf16"
  | utf32 => "Utf32"

instance : ToString ColumnUnit := ⟨name⟩

def all : List ColumnUnit := [utf8, utf16, utf32]

def ofName? (text : String) : Option ColumnUnit :=
  all.find? fun unit => unit.name == text

def unknownNameMessage (text : String) : String :=
  s!"unknown position encoding: {text}"

theorem ofName?_name (unit : ColumnUnit) : ofName? unit.name = some unit := by
  cases unit <;> rfl

theorem ofName?_eq_some_iff {text : String} {unit : ColumnUnit} :
    ofName? text = some unit ↔ text = unit.name := by
  constructor
  · intro found
    unfold ofName? at found
    have sameName := List.find?_some found
    exact (eq_of_beq sameName).symm
  · rintro rfl
    exact ofName?_name unit

def width : ColumnUnit → Char → Nat
  | utf8, c => c.utf8Size
  | utf16, c => if c.toNat < 0x10000 then 1 else 2
  | utf32, _ => 1

/-- A unit is direct on `text` when its columns there are byte offsets. -/
def isDirect (unit : ColumnUnit) (text : Text) : Bool :=
  unit = utf8 || text.isAscii

def textLength (unit : ColumnUnit) (text : Text) : Nat :=
  if unit.isDirect text then text.byteLength else Text.totalWidth unit.width text

/-- The byte offset reached by passing over the characters of `line` while the
units passed do not exceed `column`. -/
def scanOffset (unit : ColumnUnit) (line : Text) (column : Nat) : Nat :=
  go line 0 0
where
  go : Text → Nat → Nat → Nat
    | [], offset, _ => offset
    | c :: rest, offset, passed =>
        if column < passed + unit.width c then offset
        else go rest (offset + c.utf8Size) (passed + unit.width c)

/-- The byte offset of `column` in `line`. A column inside a character stands for
the start of that character, one past the end for the end of the line. -/
def byteOffset (unit : ColumnUnit) (line : Text) (column : Nat) : Nat :=
  if unit.isDirect line then line.floorBoundary (min column line.byteLength)
  else unit.scanOffset line column

theorem width_pos (unit : ColumnUnit) (c : Char) : 0 < unit.width c := by
  cases unit with
  | utf8 => exact c.utf8Size_pos
  | utf16 => simp only [width]; split <;> decide
  | utf32 => exact Nat.one_pos

end ColumnUnit

end LiveDocument
