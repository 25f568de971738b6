import LiveDocument.Text.Bytes

/-!
# Starts of lines

The line starts of a text are the offsets after its line feeds. They can be computed
for a part of a text on its own, so that the starts of an inserted text can be put
into an array of starts.
-/

namespace LiveDocument

/-- The offsets at which a line starts in a text whose first byte is at `base`,
in increasing order. A line starts after every line feed, so a carriage return
and line feed end one line and a carriage return alone ends none; `base` itself
is a start if `atLineStart`. -/
def lineStarts (text : Text) (atLineStart : Bool) (base : Nat) : Array Nat :=
  go text base (if atLineStart then #[base] else #[])
where
  go : Text → Nat → Array Nat → Array Nat
    | [], _, starts => starts
    | c :: rest, offset, starts =>
        go rest (offset + c.utf8Size)
          (if c = '\n' then starts.push (offset + c.utf8Size) else starts)

theorem lineStarts_go (text : Text) (offset : Nat) (starts : Array Nat) :
    lineStarts.go text offset starts = starts ++ lineStarts text false offset := by
  induction text generalizing offset starts with
  | nil => simp [lineStarts, lineStarts.go]
  | cons c rest ih =>
      rw [lineStarts, lineStarts.go, lineStarts.go, ih, ih (offset + c.utf8Size) (ite ..)]
      by_cases feed : c = '\n'
      · simp [feed]
      · simp [feed]

theorem lineStarts_true (text : Text) (base : Nat) :
    lineStarts text true base = #[base] ++ lineStarts text false base :=
  lineStarts_go text base #[base]

theorem lineStarts_nil (atLineStart : Bool) (base : Nat) :
    lineStarts [] atLineStart base = if atLineStart then #[base] else #[] := rfl

theorem lineStarts_cons (c : Char) (rest : Text) (base : Nat) :
    lineStarts (c :: rest) false base =
      (if c = '\n' then #[base + c.utf8Size] else #[]) ++
        lineStarts rest false (base + c.utf8Size) := by
  rw [lineStarts, lineStarts.go, lineStarts_go]
  rfl

/-! ## Editing an array of starts -/

namespace LineStarts

/-- `starts` with the entries from index `first` on replaced by those of
`added`. -/
def overwrite (starts : Array Nat) (first : Nat) (added : Array Nat) : Array Nat :=
  starts.mapIdx fun index start =>
    if first ≤ index then added.getD (index - first) start else start

def replace (starts : Array Nat) (first removed : Nat) (added : Array Nat) : Array Nat :=
  starts.extract 0 first ++ added ++ starts.extract (first + removed)

/-- `starts` with every entry from index `first` on moved by what a text gains
when `inserted` bytes take the place of `removed` bytes before that entry. The sum
comes before the difference: for checked offsets of 32 bits it has to be below 2^32,
not only the entry that results. -/
def shift (starts : Array Nat) (first inserted removed : Nat) : Array Nat :=
  starts.mapIdx fun index start =>
    if first ≤ index then start + inserted - removed else start

@[simp]
theorem size_overwrite (starts : Array Nat) (first : Nat) (added : Array Nat) :
    (overwrite starts first added).size = starts.size := by
  simp [overwrite]

@[simp]
theorem size_shift (starts : Array Nat) (first inserted removed : Nat) :
    (shift starts first inserted removed).size = starts.size := by
  simp [shift]

end LineStarts

end LiveDocument
