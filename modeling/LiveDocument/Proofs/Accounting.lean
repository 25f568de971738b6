import Mathlib.Algebra.BigOperators.Group.List.Basic
import Mathlib.Algebra.Ring.Int.Defs
import LiveDocument.Proofs.Replay

/-!
# What a batch does with every byte

Whatever the edits of a batch are, the spans that are read while they are composed are
spans of whole characters (`compose?_ofText`). Past the last line an edit may end before
it starts, so the place up to which the text is consumed may move back. It is a boundary
all the same, and this is all that the scan needs. The composed text has the bytes of the
text with those of the new texts added and those of the spans taken away
(`compose_accounts`).
-/

namespace LiveDocument

open Text

/-! ## Reading with every span checked -/

/-- The byte offset of `position`, if there is a line to look on and its span can be
read. -/
def LineTable.offsetAt? (table : LineTable) (text : Text) (position : Position) :
    Option Nat :=
  (table.lineSpan? (min position.line table.lastLine)).bind fun span =>
    (text.slice? span).map fun content =>
      span.start + table.unit.byteOffset content position.character

namespace Batch

/-- What composing the edits adds to `composed` when the text is consumed up to byte
`consumed`. Every span is checked before it is read, and there is no result if one cannot
be read. -/
def scan? (table : LineTable) (text : Text) :
    List Edit → Text → Nat → Option (Except DocumentError Text)
  | [], composed, consumed =>
      (text.slice? ⟨consumed, text.byteLength⟩).map fun kept => .ok (composed ++ kept)
  | edit :: rest, composed, consumed =>
      (table.offsetAt? text edit.range.start).bind fun start =>
        if start < consumed then some (.error (.overlappingEdit start consumed))
        else
          (text.slice? ⟨consumed, start⟩).bind fun kept =>
            (table.offsetAt? text edit.range.stop).bind fun stop =>
              scan? table text rest (composed ++ kept ++ edit.text) stop

def compose? (table : LineTable) (text : Text) (edits : List Edit) :
    Option (Except DocumentError Text) :=
  scan? table text (inReadingOrder edits) [] 0

end Batch

theorem LineTable.offsetAt?_ofText (unit : ColumnUnit) (text : Text) (position : Position) :
    (ofText unit text).offsetAt? text position =
      some ((ofText unit text).offsetAt text position) := by
  rw [offsetAt?, lineSpan?, if_pos (min_lastLine_lt unit text _), Option.bind_some,
    slice?_of_admissible (admissible_lineSpan unit text _)]
  rfl

namespace Batch

section Scan

variable (unit : ColumnUnit) (text : Text)

/-- The checked scan goes through from any boundary on, and finds the pieces. -/
theorem scan?_ofText (edits : List Edit) (composed : Text) {consumed : Nat}
    (atBoundary : isBoundary text consumed = true) :
    let table := LineTable.ofText unit text
    scan? table text edits composed consumed =
      some ((pieces text.byteLength consumed (edits.map fun edit =>
          ⟨table.spanOf text edit.range, edit.text⟩)).map
        fun all => composed ++ all.flatMap (Piece.render text)) := by
  intro table
  induction edits generalizing composed consumed with
  | nil =>
      have kept : Span.Admissible ⟨consumed, text.byteLength⟩ text :=
        ⟨le_byteLength_of_isBoundary atBoundary, atBoundary, isBoundary_byteLength text⟩
      rw [scan?, slice?_of_admissible kept, List.map_nil, pieces]
      simp [Except.map, Piece.render]
  | cons edit rest ih =>
      rw [scan?, LineTable.offsetAt?_ofText, Option.bind_some, List.map_cons]
      by_cases behind : table.offsetAt text edit.range.start < consumed
      · have refused (later : List Replacement) :
            pieces text.byteLength consumed
                (⟨table.spanOf text edit.range, edit.text⟩ :: later) =
              .error (.overlappingEdit (table.offsetAt text edit.range.start) consumed) :=
          if_pos behind
        rw [if_pos behind, refused]
        rfl
      · have kept : Span.Admissible ⟨consumed, table.offsetAt text edit.range.start⟩ text :=
          ⟨Nat.le_of_not_lt behind, atBoundary, LineTable.isBoundary_offsetAt unit text _⟩
        -- The text is next consumed up to the end of the edit, which may be an earlier place,
        -- but is a boundary again.
        rw [if_neg behind, slice?_of_admissible kept, Option.bind_some,
          LineTable.offsetAt?_ofText, Option.bind_some,
          ih _ (LineTable.isBoundary_offsetAt unit text _)]
        have passed (later : List Replacement) :
            pieces text.byteLength consumed
                (⟨table.spanOf text edit.range, edit.text⟩ :: later) =
              (pieces text.byteLength (table.offsetAt text edit.range.stop) later).map
                fun all => .kept ⟨consumed, table.offsetAt text edit.range.start⟩ ::
                  .inserted edit.text :: all :=
          if_neg behind
        rw [passed]
        cases pieces text.byteLength (table.offsetAt text edit.range.stop)
            (rest.map fun edit => ⟨table.spanOf text edit.range, edit.text⟩) with
        | error refusal => rfl
        | ok all => simp [Except.map, Piece.render, table]

theorem compose?_ofText (edits : List Edit) :
    compose? (LineTable.ofText unit text) text edits =
      some (compose (LineTable.ofText unit text) text edits) := by
  rw [compose?, scan?_ofText unit text _ _ (isBoundary_zero text)]
  simp only [List.nil_append]
  rfl

end Scan

/-! ## The bytes of the composed text -/

/-- Replacements in sequence are pieced together, even if one ends before it starts. The
pieces behind `previous` have the bytes of the text from there on, with those of the new
texts added and those of the spans taken away. -/
theorem exists_pieces_of_inSequence {text : Text} {previous : Replacement}
    {replacements : List Replacement}
    (inSequence : InSequence (previous :: replacements))
    (boundaries : ∀ replacement, replacement ∈ previous :: replacements →
      isBoundary text replacement.span.start = true ∧
        isBoundary text replacement.span.stop = true) :
    ∃ all, pieces text.byteLength previous.span.stop replacements = .ok all ∧
      (byteLength (all.flatMap (Piece.render text)) : Int) =
        text.byteLength - previous.span.stop
          + (replacements.map fun replacement => (replacement.text.byteLength : Int)).sum
          - (replacements.map fun replacement =>
              (replacement.span.stop : Int) - replacement.span.start).sum := by
  induction replacements generalizing previous with
  | nil =>
      have previousStop := (boundaries previous List.mem_cons_self).2
      have within := le_byteLength_of_isBoundary previousStop
      have keptLength : byteLength (slice text ⟨previous.span.stop, text.byteLength⟩) =
          text.byteLength - previous.span.stop :=
        byteLength_slice ⟨within, previousStop, isBoundary_byteLength text⟩
      refine ⟨_, rfl, ?_⟩
      rw [List.flatMap_cons, List.flatMap_nil, List.append_nil, Piece.render, keptLength,
        List.map_nil, List.map_nil, List.sum_nil]
      omega
  | cons replacement later ih =>
      obtain ⟨behind, laterInSequence⟩ := List.isChain_cons_cons.1 inSequence
      obtain ⟨all, composed, length⟩ := ih laterInSequence
        fun other member => boundaries other (List.mem_cons_of_mem _ member)
      have keptLength :
          byteLength (slice text ⟨previous.span.stop, replacement.span.start⟩) =
            replacement.span.start - previous.span.stop :=
        byteLength_slice ⟨behind, (boundaries previous List.mem_cons_self).2,
          (boundaries replacement (List.mem_cons_of_mem _ List.mem_cons_self)).1⟩
      refine ⟨_, by rw [pieces, if_neg (Nat.not_lt.2 behind), composed]; rfl, ?_⟩
      rw [List.flatMap_cons, List.flatMap_cons, byteLength_append, byteLength_append,
        Piece.render, Piece.render, keptLength, List.map_cons, List.map_cons, List.sum_cons,
        List.sum_cons]
      -- The span of this replacement may go back, so its length is taken in the integers.
      omega

theorem isBoundary_replacements (unit : ColumnUnit) (text : Text) (edits : List Edit) :
    ∀ replacement, replacement ∈ replacements (LineTable.ofText unit text) text edits →
      isBoundary text replacement.span.start = true ∧
        isBoundary text replacement.span.stop = true := by
  intro replacement member
  obtain ⟨edit, _, rfl⟩ := List.mem_map.1 member
  exact ⟨LineTable.isBoundary_offsetAt unit text _, LineTable.isBoundary_offsetAt unit text _⟩

/-- A sum over the replacements of a batch is one over its edits as they came. -/
theorem sum_map_replacements (table : LineTable) (text : Text) (edits : List Edit)
    (measure : Replacement → Int) :
    ((replacements table text edits).map measure).sum =
      (edits.map fun edit => measure (replacementOf table text edit)).sum := by
  rw [replacements_eq_map_sent, List.map_map]
  exact ((perm_sentInReadingOrder edits).map _).sum_eq

/-- Composing a batch reads only spans of whole characters, whatever its edits are. If they
are in sequence, the composed text has as many bytes as the text, with those of the new
texts added and those from the start to the end of each edit taken away, which are less
than none for an edit that ends before it starts. Otherwise the batch is refused with a
place of the text and an earlier one at which an edit starts. -/
theorem compose_accounts (unit : ColumnUnit) (text : Text) (edits : List Edit) :
    let table := LineTable.ofText unit text
    let start (edit : Edit) : Int := table.offsetAt text edit.range.ordered.start
    let stop (edit : Edit) : Int := table.offsetAt text edit.range.ordered.stop
    compose? table text edits = some (compose table text edits) ∧
      ((InSequence (replacements table text edits) ∧
          ∃ composed, compose table text edits = .ok composed ∧
            (composed.byteLength : Int) =
              text.byteLength + (edits.map fun edit => (edit.text.byteLength : Int)).sum
                - (edits.map fun edit => stop edit - start edit).sum) ∨
        (¬ InSequence (replacements table text edits) ∧
          ∃ first consumed,
            compose table text edits = .error (.overlappingEdit first consumed) ∧
              first < consumed ∧ consumed ≤ text.byteLength)) := by
  intro table start stop
  have boundaries := isBoundary_replacements unit text edits
  refine ⟨compose?_ofText unit text edits, ?_⟩
  by_cases inSequence : InSequence (replacements table text edits)
  · refine Or.inl ⟨inSequence, ?_⟩
    have origin := And.intro (isBoundary_zero text) (isBoundary_zero text)
    obtain ⟨all, composed, length⟩ := exists_pieces_of_inSequence
      (inSequence_origin inSequence) (List.forall_mem_cons.2 ⟨origin, boundaries⟩)
    rw [sum_map_replacements, sum_map_replacements, Int.ofNat_zero, Int.sub_zero] at length
    exact ⟨_, by rw [compose, composed]; rfl, length⟩
  · refine Or.inr ⟨inSequence, ?_⟩
    obtain ⟨_, first, second, _, split, _, overlap, refused⟩ :=
      compose_of_not_inSequence inSequence
    have firstMember : first ∈ replacements table text edits := by
      rw [split]
      exact List.mem_append_right _ List.mem_cons_self
    exact ⟨_, _, refused, overlap,
      le_byteLength_of_isBoundary (boundaries first firstMember).2⟩

/-- An edit past the last line that ends two bytes before it starts. The bytes between its
ends are in the composed text twice. -/
theorem compose_accounts_going_back :
    let text : Text := ['a', 'b', '\n', 'c', 'd']
    let edits : List Edit := [⟨⟨⟨8, 0⟩, ⟨7, 2⟩⟩, ['z']⟩]
    let table := LineTable.ofText .utf16 text
    table.offsetAt text ⟨7, 2⟩ = 5 ∧ table.offsetAt text ⟨8, 0⟩ = 3 ∧
      compose? table text edits =
        some (.ok ['a', 'b', '\n', 'c', 'd', 'z', 'c', 'd']) := by
  intro text edits table
  have sorted : inReadingOrder edits = [⟨⟨⟨7, 2⟩, ⟨8, 0⟩⟩, ['z']⟩] :=
    List.mergeSort_singleton _
  refine ⟨by decide +kernel, by decide +kernel, ?_⟩
  rw [(compose_accounts .utf16 text edits).1, compose, replacements, sorted]
  decide +kernel

end Batch

end LiveDocument
