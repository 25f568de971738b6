import LiveDocument.LineTable.Basic
import LiveDocument.Proofs.LineStarts

/-!
# The lines of a text

Every line is cut out of its text by a `LineCut`, and the table of the text finds the
same bytes for it (`LineCut.lineSpan_eq`). The line of a boundary is the number of
line feeds before it (`lineOf_append`).
-/

namespace LiveDocument

open Text

/-! ## Cutting a text at its lines -/

namespace Text

def EndsLine (text : Text) : Prop :=
  text = [] ∨ ∃ initial, text = initial ++ ['\n']

theorem EndsLine.cons {text : Text} (ends : EndsLine text) (nonempty : text ≠ [])
    (c : Char) : EndsLine (c :: text) := by
  rcases ends with empty | ⟨initial, rfl⟩
  · exact absurd empty nonempty
  · exact Or.inr ⟨c :: initial, rfl⟩

theorem exists_lastLine (text : Text) :
    ∃ lead tail, text = lead ++ tail ∧ EndsLine lead ∧ '\n' ∉ tail := by
  induction text with
  | nil => exact ⟨[], [], rfl, Or.inl rfl, List.not_mem_nil⟩
  | cons c rest ih =>
      obtain ⟨lead, tail, rfl, ends, noFeed⟩ := ih
      by_cases empty : lead = []
      · subst empty
        by_cases feed : c = '\n'
        · exact ⟨[c], tail, rfl, Or.inr ⟨[], by rw [feed]; rfl⟩, noFeed⟩
        · refine ⟨[], c :: tail, rfl, Or.inl rfl, fun member => ?_⟩
          rcases List.mem_cons.1 member with same | later
          · exact feed same.symm
          · exact noFeed later
      · exact ⟨c :: lead, tail, rfl, ends.cons empty c, noFeed⟩

/-- Whether `line` is the first line of what `after` ends. -/
def ClosesLine (line after : Text) : Prop :=
  (∃ initial, line = initial ++ ['\n'] ∧ '\n' ∉ initial) ∨ after = [] ∧ '\n' ∉ line

theorem ClosesLine.append {line after : Text} (closes : ClosesLine line after)
    {tail : Text} (noFeed : '\n' ∉ tail) : ClosesLine (tail ++ line) after := by
  rcases closes with ⟨initial, rfl, initialNoFeed⟩ | ⟨last, lineNoFeed⟩
  · refine Or.inl ⟨tail ++ initial, by rw [List.append_assoc], fun member => ?_⟩
    exact (List.mem_append.1 member).elim noFeed initialNoFeed
  · refine Or.inr ⟨last, fun member => ?_⟩
    exact (List.mem_append.1 member).elim noFeed lineNoFeed

/-- Only the end of a line can be a line feed. -/
theorem ClosesLine.not_mem_of_append {front back after : Text}
    (closes : ClosesLine (front ++ back) after) (nonempty : back ≠ []) : '\n' ∉ front := by
  rcases closes with ⟨initial, split, initialNoFeed⟩ | ⟨_, noFeed⟩
  · rcases List.append_eq_append_iff.1 split with ⟨extra, rfl, _⟩ | ⟨extra, rfl, feed⟩
    · exact fun member => initialNoFeed (List.mem_append_left extra member)
    · have extraEmpty : extra = [] := by
        rcases List.append_eq_singleton_iff.1 feed.symm with ⟨empty, _⟩ | ⟨_, backEmpty⟩
        · exact empty
        · exact absurd backEmpty nonempty
      rw [extraEmpty, List.append_nil]
      exact initialNoFeed
  · exact fun member => noFeed (List.mem_append_left back member)

theorem exists_firstLine (text : Text) :
    ∃ line after, text = line ++ after ∧ ClosesLine line after := by
  induction text with
  | nil => exact ⟨[], [], rfl, Or.inr ⟨rfl, List.not_mem_nil⟩⟩
  | cons c rest ih =>
      by_cases feed : c = '\n'
      · exact ⟨[c], rest, rfl, Or.inl ⟨[], by rw [feed]; rfl, List.not_mem_nil⟩⟩
      · obtain ⟨line, after, rfl, closes⟩ := ih
        have alone : '\n' ∉ [c] := fun member => feed (List.mem_singleton.1 member).symm
        exact ⟨c :: line, after, rfl, closes.append alone⟩

theorem exists_split_of_le_count {text : Text} {line : Nat}
    (inside : line ≤ text.count '\n') :
    ∃ before after, text = before ++ after ∧ before.count '\n' = line := by
  induction text generalizing line with
  | nil => exact ⟨[], [], rfl, (Nat.le_zero.1 inside).symm⟩
  | cons c rest ih =>
      cases line with
      | zero => exact ⟨[], c :: rest, rfl, rfl⟩
      | succ n =>
          rw [List.count_cons] at inside
          by_cases feed : c = '\n'
          · have insideRest : n ≤ rest.count '\n' := by simpa [feed] using inside
            obtain ⟨before, after, rfl, feeds⟩ := ih insideRest
            exact ⟨c :: before, after, rfl, by simp [feed, feeds]⟩
          · have insideRest : n + 1 ≤ rest.count '\n' := by simpa [feed] using inside
            obtain ⟨before, after, rfl, feeds⟩ := ih insideRest
            exact ⟨c :: before, after, rfl, by simp [feed, feeds]⟩

end Text

/-- The text is what comes before a line, the line and what comes after it. -/
structure LineCut (text : Text) (line : Nat) (before content after : Text) : Prop where
  split : text = before ++ content ++ after
  opens : EndsLine before
  feeds : before.count '\n' = line
  closes : ClosesLine content after

namespace LineCut

/-- The line that a place of the text is on, with the part of it before that place. -/
theorem exists_of_append (before after : Text) :
    ∃ lead tail more rest, before = lead ++ tail ∧ after = more ++ rest ∧
      '\n' ∉ tail ∧
      LineCut (before ++ after) (before.count '\n') lead (tail ++ more) rest := by
  obtain ⟨lead, tail, rfl, opens, noFeed⟩ := exists_lastLine before
  obtain ⟨more, rest, rfl, closes⟩ := exists_firstLine after
  refine ⟨lead, tail, more, rest, rfl, rfl, noFeed, ?_, opens, ?_, closes.append noFeed⟩
  · simp only [List.append_assoc]
  · rw [List.count_append, List.count_eq_zero.2 noFeed, Nat.add_zero]

theorem exists_of_le {text : Text} {line : Nat} (inside : line ≤ text.count '\n') :
    ∃ before content after, LineCut text line before content after := by
  obtain ⟨before, after, rfl, rfl⟩ := exists_split_of_le_count inside
  obtain ⟨lead, tail, more, rest, _, _, _, cut⟩ := exists_of_append before after
  exact ⟨lead, tail ++ more, rest, cut⟩

theorem le_count {text before content after : Text} {line : Nat}
    (cut : LineCut text line before content after) : line ≤ text.count '\n' := by
  rw [cut.split, ← cut.feeds, List.count_append, List.count_append]
  omega

/-- The last line is the one that has no line feed. -/
theorem eq_count_iff {text before content after : Text} {line : Nat}
    (cut : LineCut text line before content after) :
    line = text.count '\n' ↔ '\n' ∉ content := by
  have total : text.count '\n' = line + content.count '\n' + after.count '\n' := by
    rw [cut.split, ← cut.feeds, List.count_append, List.count_append]
  constructor
  · intro last
    refine List.count_eq_zero.1 ?_
    omega
  · intro noFeed
    rcases cut.closes with ⟨initial, rfl, _⟩ | ⟨rfl, _⟩
    · exact absurd (List.mem_append_right initial List.mem_cons_self) noFeed
    · rw [total, List.count_eq_zero.2 noFeed, List.count_nil]
      rfl

end LineCut

/-! ## Lines of the table of a text -/

namespace LineTable

variable (unit : ColumnUnit)

theorem lineCount_ofText (text : Text) :
    (ofText unit text).lineCount = text.count '\n' + 1 := by
  rw [lineCount, ofText, lineStarts_true, Array.size_append, size_lineStarts]
  exact Nat.add_comm 1 _

theorem lt_lineCount_iff {text : Text} {line : Nat} :
    line < (ofText unit text).lineCount ↔ line ≤ text.count '\n' := by
  rw [lineCount_ofText, Nat.lt_succ_iff]

theorem lastLine_ofText (text : Text) : (ofText unit text).lastLine = text.count '\n' := by
  rw [lastLine, lineCount_ofText]
  rfl

theorem min_lastLine_lt (text : Text) (line : Nat) :
    min line (ofText unit text).lastLine < (ofText unit text).lineCount := by
  rw [lt_lineCount_iff, lastLine_ofText]
  exact Nat.min_le_right _ _

private theorem starts_ofText_append (before after : Text) :
    (ofText unit (before ++ after)).starts =
      #[0] ++ lineStarts before false 0 ++ lineStarts after false (byteLength before) := by
  rw [ofText, lineStarts_true, lineStarts_append, Nat.zero_add, Array.append_assoc]

theorem startOf_ofText {before : Text} (opens : EndsLine before) (after : Text) :
    (ofText unit (before ++ after)).startOf (before.count '\n') = byteLength before := by
  rw [startOf, starts_ofText_append, Array.getD_eq_getD_getElem?]
  rcases opens with rfl | ⟨initial, rfl⟩
  · rw [Array.append_assoc, List.count_nil, Array.getElem?_append_left Nat.one_pos]
    rfl
  · have index : (initial ++ ['\n']).count '\n' = (#[0] ++ lineStarts initial false 0).size := by
      rw [List.count_append, Array.size_append, size_lineStarts]
      exact Nat.add_comm _ 1
    rw [lineStarts_feed, Array.append_push, index,
      Array.getElem?_append_left (by simp), Array.getElem?_push_size, Nat.zero_add]
    rfl

theorem startOf_zero (text : Text) : (ofText unit text).startOf 0 = 0 :=
  startOf_ofText unit (Or.inl rfl) text

theorem startOf_past {text : Text} {line : Nat} (past : text.count '\n' < line) :
    (ofText unit text).startOf line = byteLength text := by
  have outside : (ofText unit text).starts.size ≤ line := by
    have count := lineCount_ofText unit text
    rw [lineCount] at count
    omega
  rw [startOf, Array.getD_eq_getD_getElem?, Array.getElem?_eq_none outside]
  rfl

theorem isBoundary_startOf (text : Text) (line : Nat) :
    isBoundary text ((ofText unit text).startOf line) = true := by
  by_cases inside : line ≤ text.count '\n'
  · obtain ⟨before, content, after, cut⟩ := LineCut.exists_of_le inside
    have starts := startOf_ofText unit cut.opens (content ++ after)
    rw [← List.append_assoc, ← cut.split, cut.feeds] at starts
    rw [starts, cut.split, List.append_assoc]
    exact isBoundary_append before (content ++ after)
  · rw [startOf_past unit (Nat.lt_of_not_le inside)]
    exact isBoundary_byteLength text

theorem startOf_le_byteLength (text : Text) (line : Nat) :
    (ofText unit text).startOf line ≤ byteLength text :=
  le_byteLength_of_isBoundary (isBoundary_startOf unit text line)

/-- The number of the line of a boundary is the number of line feeds before it. -/
theorem lineOf_append (before after : Text) :
    (ofText unit (before ++ after)).lineOf (byteLength before) = before.count '\n' := by
  have found : partitionPoint (ofText unit (before ++ after)).starts
      (· ≤ byteLength before) = before.count '\n' + 1 := by
    have size : (#[0] ++ lineStarts before false 0).size = before.count '\n' + 1 := by
      rw [Array.size_append, size_lineStarts]
      exact Nat.add_comm 1 _
    rw [starts_ofText_append, ← size]
    refine partitionPoint_append (fun start member => decide_eq_true ?_)
      (fun start member => decide_eq_false ?_)
    · rcases Array.mem_append.1 member with first | later
      · rw [Array.mem_singleton.1 first]
        exact Nat.zero_le _
      · have bounds := bounds_of_mem_lineStarts later
        omega
    · exact Nat.not_le.2 (bounds_of_mem_lineStarts member).1
  rw [lineOf, found]
  rfl

theorem pairwise_starts_ofText (text : Text) :
    (ofText unit text).starts.toList.Pairwise (· < ·) := by
  rw [ofText, lineStarts_true, Array.toList_append]
  refine List.pairwise_cons.2 ⟨fun start member => ?_, pairwise_lineStarts text 0⟩
  exact (bounds_of_mem_lineStarts (Array.mem_toList_iff.1 member)).1

theorem startOf_lt {text : Text} {first second : Nat} (inOrder : first < second)
    (inside : second < (ofText unit text).lineCount) :
    (ofText unit text).startOf first < (ofText unit text).startOf second := by
  have sorted := pairwise_starts_ofText unit text
  rw [lineCount] at inside
  have firstInside := Nat.lt_trans inOrder inside
  rw [startOf, startOf, Array.getD, dif_pos firstInside, Array.getD, dif_pos inside]
  exact List.pairwise_iff_getElem.1 sorted first second firstInside inside inOrder

theorem startOf_mono {text : Text} {first second : Nat} (inOrder : first ≤ second) :
    (ofText unit text).startOf first ≤ (ofText unit text).startOf second := by
  by_cases inside : second < (ofText unit text).lineCount
  · rcases Nat.eq_or_lt_of_le inOrder with rfl | before
    · exact Nat.le_refl _
    · exact Nat.le_of_lt (startOf_lt unit before inside)
  · rw [lt_lineCount_iff, Nat.not_le] at inside
    rw [startOf_past unit inside]
    exact startOf_le_byteLength unit text first

theorem admissible_lineSpan (text : Text) (line : Nat) :
    ((ofText unit text).lineSpan line).Admissible text :=
  ⟨startOf_mono unit (Nat.le_succ line), isBoundary_startOf unit text line,
    isBoundary_startOf unit text (line + 1)⟩

end LineTable

namespace LineCut

variable {text before content after : Text} {line : Nat} (unit : ColumnUnit)

theorem startOf_eq (cut : LineCut text line before content after) :
    (LineTable.ofText unit text).startOf line = byteLength before := by
  rw [cut.split, ← cut.feeds, List.append_assoc]
  exact LineTable.startOf_ofText unit cut.opens _

theorem startOf_succ_eq (cut : LineCut text line before content after) :
    (LineTable.ofText unit text).startOf (line + 1) = byteLength (before ++ content) := by
  rcases cut.closes with ⟨initial, rfl, noFeed⟩ | ⟨rfl, noFeed⟩
  · have opens : EndsLine (before ++ (initial ++ ['\n'])) :=
      Or.inr ⟨before ++ initial, (List.append_assoc _ _ _).symm⟩
    have feeds : (before ++ (initial ++ ['\n'])).count '\n' = line + 1 := by
      rw [List.count_append, List.count_append, cut.feeds, List.count_eq_zero.2 noFeed]
      rfl
    rw [cut.split, ← feeds]
    exact LineTable.startOf_ofText unit opens after
  · have feeds := cut.eq_count_iff.2 noFeed
    rw [LineTable.startOf_past unit (by omega), cut.split, List.append_nil]

theorem lineSpan_eq (cut : LineCut text line before content after) :
    (LineTable.ofText unit text).lineSpan line =
      ⟨byteLength before, byteLength (before ++ content)⟩ := by
  rw [LineTable.lineSpan, cut.startOf_eq, cut.startOf_succ_eq]

theorem lineText_eq (cut : LineCut text line before content after) :
    (LineTable.ofText unit text).lineText text line = content := by
  rw [LineTable.lineText, cut.lineSpan_eq, cut.split]
  exact slice_append before content after

theorem admissible_lineSpan (cut : LineCut text line before content after) :
    ((LineTable.ofText unit text).lineSpan line).Admissible text := by
  rw [cut.lineSpan_eq]
  exact (admissible_iff _ _).2 ⟨before, content, after, cut.split, rfl, rfl⟩

end LineCut

end LiveDocument
