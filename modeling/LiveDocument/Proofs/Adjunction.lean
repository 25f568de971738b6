import Mathlib.Order.Bounds.Basic
import LiveDocument.Proofs.Columns

/-!
# Columns are adjoint to lengths

A column resolves to the last boundary up to which its line fits into the column
(`isGreatest_byteOffset`), and the lengths of parts add up. The short ways of measuring and
of resolving come to what a pass over the characters comes to (`byteOffset_adjoint`).
-/

namespace LiveDocument

open Text

namespace ColumnUnit

variable (unit : ColumnUnit)

theorem textLength_takeBytes_le_iff {line : Text} {boundary : Nat}
    (atBoundary : isBoundary line boundary = true) (column : Nat) :
    unit.textLength (takeBytes line boundary) ≤ column ↔
      boundary ≤ unit.byteOffset line column := by
  obtain ⟨before, after, rfl, rfl⟩ := (isBoundary_iff line boundary).1 atBoundary
  rw [takeBytes_append]
  exact textLength_le_iff unit before after column

theorem isGreatest_byteOffset (line : Text) (column : Nat) :
    IsGreatest
      {boundary | isBoundary line boundary = true ∧
        unit.textLength (takeBytes line boundary) ≤ column}
      (unit.byteOffset line column) := by
  have atBoundary := isBoundary_byteOffset unit line column
  constructor
  · have fits := (textLength_takeBytes_le_iff unit atBoundary column).2 (Nat.le_refl _)
    exact ⟨atBoundary, fits⟩
  · intro boundary fitting
    exact (textLength_takeBytes_le_iff unit fitting.1 column).1 fitting.2

/-- The byte offset of a column is the greatest boundary up to which the line fits into the
column; so a part of the line fits exactly if it ends there or before. The length of a text
is that of its parts together. Whatever way is taken, a text measures what its characters
add up to, and a column resolves to where a scan over the characters stops. -/
theorem byteOffset_adjoint (unit : ColumnUnit) :
    (∀ line column,
        IsGreatest
            {boundary | isBoundary line boundary = true ∧
              unit.textLength (takeBytes line boundary) ≤ column}
            (unit.byteOffset line column) ∧
          ∀ boundary, isBoundary line boundary = true →
            (unit.textLength (takeBytes line boundary) ≤ column ↔
              boundary ≤ unit.byteOffset line column)) ∧
      (∀ left right,
        unit.textLength (left ++ right) = unit.textLength left + unit.textLength right) ∧
      (∀ text, unit.textLength text = totalWidth unit.width text) ∧
      ∀ line column, unit.byteOffset line column = unit.scanOffset line column := by
  refine ⟨fun line column => ⟨isGreatest_byteOffset unit line column, ?_⟩, ?_, ?_, ?_⟩
  · intro boundary atBoundary
    exact textLength_takeBytes_le_iff unit atBoundary column
  · exact textLength_append unit
  · exact textLength_eq_totalWidth unit
  · exact byteOffset_eq_scanOffset unit

/-- The column is between the two units of a character. -/
theorem byteOffset_adjoint_half_of_a_character :
    let line : Text := ['é', '𝄞', '!']
    (isBoundary line 2 = true ∧ isBoundary line 6 = true) ∧
      utf16.byteOffset line 2 = 2 ∧
      utf16.textLength (takeBytes line 2) ≤ 2 ∧
      ¬ utf16.textLength (takeBytes line 6) ≤ 2 ∧
      utf8.scanOffset line 5 = 2 := by
  intro line
  have boundaries : isBoundary line 2 = true ∧ isBoundary line 6 = true := by decide
  have resolved : utf16.byteOffset line 2 = 2 := by decide
  obtain ⟨columns, _⟩ := byteOffset_adjoint utf16
  obtain ⟨_, fits⟩ := columns line 2
  obtain ⟨_, _, _, scans⟩ := byteOffset_adjoint utf8
  refine ⟨boundaries, resolved, ?_, ?_, ?_⟩
  · rw [fits 2 boundaries.1, resolved]
  · rw [fits 6 boundaries.2, resolved]
    decide
  · rw [← scans]
    decide

end ColumnUnit

end LiveDocument
