import Mathlib.Data.List.DropRight
import LiveDocument.Proofs.Mending
import LiveDocument.Proofs.Places

/-!
# How a replacement moves positions

The position of a boundary is where a walk over the text before it leads
(`positionAt_eq_walk`), and a walk over two texts goes over one and then over the other
(`walk_append`). A replacement exchanges only the middle part of the walks that pass it. So
it leaves the positions before it alone, and those behind it move by the lines that come
and go and, on the line on which it ends, by the columns (`positionAt_patch`).
-/

namespace LiveDocument

open Text

/-! ## Walks over a text -/

namespace Position

variable (unit : ColumnUnit)

/-- The position behind the character `c` when `c` is at `position`. -/
def pass (position : Position) (c : Char) : Position :=
  if c = '\n' then ⟨position.line + 1, 0⟩
  else ⟨position.line, position.character + unit.width c⟩

/-- The position behind `text` when `text` starts at `position`. -/
def walk (position : Position) (text : Text) : Position :=
  text.foldl (pass unit) position

theorem walk_cons (position : Position) (c : Char) (rest : Text) :
    walk unit position (c :: rest) = walk unit (pass unit position c) rest := rfl

theorem walk_append (position : Position) (first later : Text) :
    walk unit position (first ++ later) = walk unit (walk unit position first) later :=
  List.foldl_append

theorem line_walk (position : Position) (text : Text) :
    (walk unit position text).line = position.line + text.count '\n' := by
  induction text generalizing position with
  | nil => rfl
  | cons c rest ih =>
      rw [walk_cons, ih, pass]
      by_cases feed : c = '\n'
      · rw [if_pos feed, feed, List.count_cons_self, Nat.add_comm (rest.count '\n') 1,
          Nat.add_assoc]
      · rw [if_neg feed, List.count_cons_of_ne feed]

theorem line_lt_walk_iff (position : Position) (text : Text) :
    position.line < (walk unit position text).line ↔ '\n' ∈ text := by
  rw [line_walk, Nat.lt_add_right_iff_pos, List.count_pos_iff]

/-- The column behind a text counts the units since its last line feed. If it has none, it
goes on from the column at which the text starts. -/
theorem character_walk (position : Position) (text : Text) :
    (walk unit position text).character =
      (if '\n' ∈ text then 0 else position.character) +
        unit.textLength (text.rtakeWhile (· != '\n')) := by
  induction text using List.reverseRecOn with
  | nil => simp [walk]
  | append_singleton initial c ih =>
      -- Characters come off the end, which is where the last line is.
      rw [walk_append, walk_cons, pass]
      by_cases feed : c = '\n'
      · simp [walk, feed]
      · have lastLine : (initial ++ [c]).rtakeWhile (· != '\n') =
            initial.rtakeWhile (· != '\n') ++ [c] :=
          List.rtakeWhile_concat_pos _ _ _ (bne_iff_ne.2 feed)
        have feeds : '\n' ∈ initial ++ [c] ↔ '\n' ∈ initial := by
          simp [Ne.symm feed]
        rw [if_neg feed, lastLine, unit.textLength_append,
          unit.textLength_singleton, ← Nat.add_assoc]
        simp only [feeds, ← ih]
        rfl

theorem character_walk_of_mem (position : Position) {text : Text} (feed : '\n' ∈ text) :
    (walk unit position text).character =
      unit.textLength (text.rtakeWhile (· != '\n')) := by
  rw [character_walk, if_pos feed, Nat.zero_add]

theorem character_walk_of_not_mem (position : Position) {text : Text}
    (noFeed : '\n' ∉ text) :
    (walk unit position text).character = position.character + unit.textLength text := by
  have whole : text.rtakeWhile (· != '\n') = text :=
    List.rtakeWhile_eq_self_iff.2 fun c member =>
      bne_iff_ne.2 fun feed => noFeed (feed ▸ member)
  rw [character_walk, if_neg noFeed, whole]

theorem character_walk_of_endsLine {text : Text} (ends : EndsLine text) :
    (walk unit ⟨0, 0⟩ text).character = 0 := by
  rcases ends with empty | ⟨initial, split⟩
  · rw [empty]
    rfl
  · rw [split, walk_append]
    rfl

/-- Where a walk over `kept` leads from behind `inserted`, told by where it leads from
`last`. A line feed in `kept` makes the column forget where the walk has started. -/
theorem character_walk_walk (first last : Position) (inserted kept : Text) :
    (walk unit (walk unit first inserted) kept).character =
      if last.line < (walk unit last kept).line then (walk unit last kept).character
      else if '\n' ∈ inserted then
        unit.textLength kept + unit.textLength (inserted.rtakeWhile (· != '\n'))
      else unit.textLength kept + (first.character + unit.textLength inserted) := by
  simp only [line_lt_walk_iff]
  by_cases keptFeed : '\n' ∈ kept
  · rw [if_pos keptFeed, character_walk_of_mem unit _ keptFeed,
      character_walk_of_mem unit _ keptFeed]
  · rw [if_neg keptFeed, character_walk_of_not_mem unit _ keptFeed, Nat.add_comm]
    by_cases insertedFeed : '\n' ∈ inserted
    · rw [if_pos insertedFeed, character_walk_of_mem unit _ insertedFeed]
    · rw [if_neg insertedFeed, character_walk_of_not_mem unit _ insertedFeed]

end Position

namespace LineTable

open Position

variable (unit : ColumnUnit)

/-- The position of a boundary is where a walk from the start of the text leads. -/
theorem positionAt_eq_walk (before after : Text) :
    (ofText unit (before ++ after)).positionAt (before ++ after) (byteLength before) =
      walk unit ⟨0, 0⟩ before := by
  obtain ⟨lead, tail, rfl, opens, noFeed⟩ := exists_lastLine before
  have line : (walk unit ⟨0, 0⟩ (lead ++ tail)).line = lead.count '\n' := by
    rw [line_walk, List.count_append, List.count_eq_zero.2 noFeed, Nat.add_zero,
      Nat.zero_add]
  have character : (walk unit ⟨0, 0⟩ (lead ++ tail)).character = unit.textLength tail := by
    rw [walk_append, character_walk_of_not_mem unit _ noFeed,
      character_walk_of_endsLine unit opens, Nat.zero_add]
  rw [positionAt_eq unit opens noFeed]
  exact Position.ext_of_eq line.symm character.symm

theorem positionAt_eq_walk_takeBytes {text : Text} {offset : Nat}
    (atBoundary : isBoundary text offset = true) :
    (ofText unit text).positionAt text offset = walk unit ⟨0, 0⟩ (takeBytes text offset) := by
  have place := positionAt_eq_walk unit (takeBytes text offset) (dropBytes text offset)
  rwa [takeBytes_append_dropBytes, byteLength_takeBytes atBoundary] at place

/-- From the position of one boundary a walk over the text up to another leads to the
position of that. -/
theorem positionAt_stop {text : Text} {span : Span} (admissible : span.Admissible text) :
    (ofText unit text).positionAt text span.stop =
      walk unit ((ofText unit text).positionAt text span.start) (slice text span) := by
  rw [positionAt_eq_walk_takeBytes unit admissible.2.1,
    positionAt_eq_walk_takeBytes unit admissible.2.2, ← walk_append,
    takeBytes_append_slice admissible]

/-! ## Positions across a replacement -/

section Replacement

variable {text : Text} {span : Span} (admissible : span.Admissible text) (inserted : Text)
  {offset : Nat} (atBoundary : isBoundary text offset = true)

include admissible atBoundary

theorem positionAt_splice_of_le (ahead : offset ≤ span.start) :
    (ofText unit (text.splice span inserted)).positionAt (text.splice span inserted) offset =
      (ofText unit text).positionAt text offset := by
  have between : Span.Admissible ⟨offset, span.start⟩ text :=
    ⟨ahead, atBoundary, admissible.2.1⟩
  have place := positionAt_eq_walk unit (takeBytes text offset)
    (slice text ⟨offset, span.start⟩ ++ inserted ++ dropBytes text span.stop)
  rw [← List.append_assoc, ← List.append_assoc, takeBytes_append_slice between,
    byteLength_takeBytes atBoundary] at place
  rw [splice, place, positionAt_eq_walk_takeBytes unit atBoundary]

/-- A boundary behind the replaced bytes is reached from the start of them by a walk over
what was put in and what was kept. -/
theorem positionAt_splice_of_ge (behind : span.stop ≤ offset) :
    (ofText unit (text.splice span inserted)).positionAt (text.splice span inserted)
        (offset - span.stop + span.start + byteLength inserted) =
      walk unit (walk unit ((ofText unit text).positionAt text span.start) inserted)
        (slice text ⟨span.stop, offset⟩) := by
  have kept : Span.Admissible ⟨span.stop, offset⟩ text :=
    ⟨behind, admissible.2.2, atBoundary⟩
  have place := positionAt_eq_walk unit
    (takeBytes text span.start ++ inserted ++ slice text ⟨span.stop, offset⟩)
    (dropBytes text offset)
  have keptLength : byteLength (slice text ⟨span.stop, offset⟩) = offset - span.stop :=
    byteLength_slice kept
  have moved : byteLength
      (takeBytes text span.start ++ inserted ++ slice text ⟨span.stop, offset⟩) =
        offset - span.stop + span.start + byteLength inserted := by
    rw [byteLength_append, byteLength_append, byteLength_takeBytes admissible.2.1, keptLength]
    omega
  rw [List.append_assoc, slice_append_dropBytes kept, moved, walk_append, walk_append] at place
  rw [splice, place, positionAt_eq_walk_takeBytes unit admissible.2.1]

end Replacement

/-- A replacement leaves the positions of the boundaries before it alone. The position of a
boundary behind it moves by as many lines as come more than go. On a line of its own the
boundary keeps its column. On the line on which the replaced bytes end, the units between
them and the boundary are counted on from the last line feed that was put in or, if none
was, from the start of the replaced bytes and over what was put in. -/
theorem positionAt_patch (unit : ColumnUnit) (text : Text) {start stop : Nat}
    (inOrder : start ≤ stop) (startBoundary : isBoundary text start = true)
    (stopBoundary : isBoundary text stop = true) (inserted : Text) :
    let table := ofText unit text
    let span : Span := ⟨start, stop⟩
    let changed := text.splice span inserted
    let mended := table.patch span inserted
    let first := table.positionAt text start
    let last := table.positionAt text stop
    (∀ offset, isBoundary text offset = true → offset ≤ start →
        mended.positionAt changed offset = table.positionAt text offset) ∧
      ∀ offset, isBoundary text offset = true → stop ≤ offset →
        let old := table.positionAt text offset
        let new := mended.positionAt changed (offset - stop + start + byteLength inserted)
        let kept := unit.textLength (text.slice ⟨stop, offset⟩)
        (new.line : Int) =
            old.line + inserted.count '\n' - ((last.line : Int) - first.line) ∧
          new.character =
            if last.line < old.line then old.character
            else if '\n' ∈ inserted then
              kept + unit.textLength (inserted.rtakeWhile (· != '\n'))
            else kept + (first.character + unit.textLength inserted) := by
  intro table span changed mended first last
  have admissible : span.Admissible text := ⟨inOrder, startBoundary, stopBoundary⟩
  have rebuilt : mended = ofText unit changed := patch_ofText unit admissible inserted
  rw [rebuilt]
  constructor
  · intro offset atBoundary ahead
    exact positionAt_splice_of_le unit admissible inserted atBoundary ahead
  · intro offset atBoundary behind old new kept
    have between : Span.Admissible ⟨stop, offset⟩ text := ⟨behind, stopBoundary, atBoundary⟩
    have newWalk : new = walk unit (walk unit first inserted) (text.slice ⟨stop, offset⟩) :=
      positionAt_splice_of_ge unit admissible inserted atBoundary behind
    have oldWalk : old = walk unit last (text.slice ⟨stop, offset⟩) :=
      positionAt_stop unit between
    rw [newWalk, oldWalk]
    constructor
    · simp only [line_walk]
      omega
    · exact character_walk_walk unit first last inserted _

/-- One line goes and two come. The first place behind the replaced bytes is on the line on
which they end, the second on the next. -/
theorem positionAt_patch_more_lines :
    let text : Text := ['a', '😀', '\n', 'b', 'é', '\n', 'c']
    let inserted : Text := ['x', '\n', '😀', '\n', 'y', 'z']
    let changed := text.splice ⟨1, 7⟩ inserted
    let mended := (ofText .utf16 text).patch ⟨1, 7⟩ inserted
    (1 ≤ 7 ∧ isBoundary text 1 = true ∧ isBoundary text 7 = true) ∧
      (isBoundary text 9 = true ∧ isBoundary text 10 = true) ∧
      mended.positionAt changed 1 = ⟨0, 1⟩ ∧
      (((mended.positionAt changed 12).line : Int) = 2 ∧
        (mended.positionAt changed 12).character = 3) ∧
      ((mended.positionAt changed 13).line : Int) = 3 ∧
        (mended.positionAt changed 13).character = 0 := by
  intro text inserted changed mended
  have ends : 1 ≤ 7 ∧ isBoundary text 1 = true ∧ isBoundary text 7 = true := by decide
  have places : isBoundary text 9 = true ∧ isBoundary text 10 = true := by decide
  obtain ⟨before, behind⟩ :=
    positionAt_patch .utf16 text ends.1 ends.2.1 ends.2.2 inserted
  obtain ⟨sameLine, sameCharacter⟩ := behind 9 places.1 (by decide)
  obtain ⟨nextLine, nextCharacter⟩ := behind 10 places.2 (by decide)
  refine ⟨ends, places, ?_, ⟨?_, ?_⟩, ?_, ?_⟩
  · exact (before 1 ends.2.1 (by decide)).trans (by decide +kernel)
  · exact sameLine.trans (by decide +kernel)
  · exact sameCharacter.trans (by decide +kernel)
  · exact nextLine.trans (by decide +kernel)
  · exact nextCharacter.trans (by decide +kernel)

end LineTable

end LiveDocument
