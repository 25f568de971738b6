/-!
# Positions

A position names a place by line and column, without regard to any text. Positions
are linearly ordered in reading order, and `compare` agrees with that order
(`compare_eq_lt`, `compare_eq_eq`).
-/

namespace LiveDocument

/-- A place in a text: a line and a column on that line, both counted from zero. -/
structure Position where
  line : Nat
  character : Nat
deriving DecidableEq, Repr, Inhabited

namespace Position

/-! ## Reading order -/

instance : LE Position :=
  ⟨fun a b => a.line < b.line ∨ a.line = b.line ∧ a.character ≤ b.character⟩

instance : LT Position :=
  ⟨fun a b => a.line < b.line ∨ a.line = b.line ∧ a.character < b.character⟩

theorem le_iff {a b : Position} :
    a ≤ b ↔ a.line < b.line ∨ a.line = b.line ∧ a.character ≤ b.character :=
  Iff.rfl

theorem lt_iff {a b : Position} :
    a < b ↔ a.line < b.line ∨ a.line = b.line ∧ a.character < b.character :=
  Iff.rfl

instance : DecidableLE Position :=
  fun _ _ => decidable_of_iff _ le_iff.symm

instance : DecidableLT Position :=
  fun _ _ => decidable_of_iff _ lt_iff.symm

instance : Ord Position :=
  ⟨fun a b => (compare a.line b.line).then (compare a.character b.character)⟩

instance : Max Position := maxOfLe

instance : Min Position := minOfLe

theorem ext_of_eq {a b : Position} (sameLine : a.line = b.line)
    (sameCharacter : a.character = b.character) : a = b := by
  cases a
  cases b
  simp_all

theorem le_refl (a : Position) : a ≤ a :=
  Or.inr ⟨rfl, Nat.le_refl _⟩

theorem le_trans {a b c : Position} (first : a ≤ b) (second : b ≤ c) : a ≤ c := by
  rw [le_iff] at *
  omega

theorem le_antisymm {a b : Position} (first : a ≤ b) (second : b ≤ a) : a = b := by
  rw [le_iff] at first second
  exact ext_of_eq (by omega) (by omega)

theorem le_total (a b : Position) : a ≤ b ∨ b ≤ a := by
  simp only [le_iff]
  omega

theorem not_le {a b : Position} : ¬ a ≤ b ↔ b < a := by
  rw [le_iff, lt_iff]
  omega

theorem lt_iff_le_and_ne {a b : Position} : a < b ↔ a ≤ b ∧ a ≠ b := by
  constructor
  · intro before
    refine ⟨?_, ?_⟩
    · rw [le_iff]
      rw [lt_iff] at before
      omega
    · rintro rfl
      rw [lt_iff] at before
      omega
  · rintro ⟨before, different⟩
    refine not_le.1 fun after => different (le_antisymm before after)

theorem compare_eq_lt {a b : Position} : compare a b = .lt ↔ a < b := by
  change (compare a.line b.line).then (compare a.character b.character) = .lt ↔ _
  rw [Ordering.then_eq_lt, Nat.compare_eq_lt, Nat.compare_eq_lt, Nat.compare_eq_eq]
  exact lt_iff.symm

theorem compare_eq_eq {a b : Position} : compare a b = .eq ↔ a = b := by
  change (compare a.line b.line).then (compare a.character b.character) = .eq ↔ _
  rw [Ordering.then_eq_eq, Nat.compare_eq_eq, Nat.compare_eq_eq]
  exact ⟨fun same => ext_of_eq same.1 same.2, fun same => same ▸ ⟨rfl, rfl⟩⟩

/-! ## Text for people, who count from one -/

/-- The number that people give to the line or column with `index` others before it.
Numbers have 32 bits, so the one after the last starts again at zero; where sums are
checked there is none. -/
def countFromOne (index : Nat) : Nat := (index + 1) % UInt32.size

theorem countFromOne_eq_iff {index : Nat} :
    countFromOne index = index + 1 ↔ index + 1 < UInt32.size := by
  refine ⟨fun same => ?_, Nat.mod_eq_of_lt⟩
  rw [← same]
  exact Nat.mod_lt _ (by decide)

def lineNumber (position : Position) : Nat := countFromOne position.line

def columnNumber (position : Position) : Nat := countFromOne position.character

instance : ToString Position :=
  ⟨fun position => s!"{position.lineNumber}:{position.columnNumber}"⟩

end Position

end LiveDocument
