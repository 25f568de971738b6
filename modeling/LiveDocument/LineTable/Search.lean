/-!
# Search in a sorted array

The entries that satisfy a condition come first; the search finds how many there
are (`partitionPoint_eq`).
-/

namespace LiveDocument

/-- The index of the first entry that fails `holds`, or the number of entries if
none does. The entries for which `holds` is true have to come first; the search
then looks at one entry of each interval it halves. -/
def partitionPoint (entries : Array Nat) (holds : Nat → Bool) : Nat :=
  go 0 entries.size
where
  go (low high : Nat) : Nat :=
    if low < high then
      let middle := low + (high - low) / 2
      if holds (entries.getD middle 0) then go (middle + 1) high else go low middle
    else low
  termination_by high - low

private theorem partitionPoint_go_eq {entries : Array Nat} {holds : Nat → Bool}
    {point low high : Nat}
    (splits : ∀ index, low ≤ index → index < high →
      (holds (entries.getD index 0) = true ↔ index < point))
    (lowBound : low ≤ point) (highBound : point ≤ high) :
    partitionPoint.go entries holds low high = point := by
  rw [partitionPoint.go]
  split
  · have middleSplits := splits (low + (high - low) / 2) (by omega) (by omega)
    simp only
    split
    · exact partitionPoint_go_eq
        (fun index above below => splits index (by omega) below)
        (middleSplits.1 ‹_›) highBound
    · exact partitionPoint_go_eq
        (fun index above below => splits index above (by omega)) lowBound
        (Nat.le_of_not_lt fun before => ‹¬ _› (middleSplits.2 before))
  · omega
termination_by high - low

/-- When `holds` is true of exactly the entries before index `point`, the search
finds `point`. -/
theorem partitionPoint_eq {entries : Array Nat} {holds : Nat → Bool} {point : Nat}
    (splits : ∀ index, index < entries.size →
      (holds (entries.getD index 0) = true ↔ index < point))
    (bound : point ≤ entries.size) :
    partitionPoint entries holds = point :=
  partitionPoint_go_eq (fun index _ below => splits index below) (Nat.zero_le _) bound

section Downward

variable {entries : Array Nat} {holds : Nat → Bool}
  (downward : ∀ first second, first ≤ second → second < entries.size →
    holds (entries.getD second 0) = true → holds (entries.getD first 0) = true)

include downward

private theorem exists_point {bound : Nat} (within : bound ≤ entries.size) :
    ∃ point, point ≤ bound ∧ ∀ index, index < bound →
      (holds (entries.getD index 0) = true ↔ index < point) := by
  induction bound with
  | zero => exact ⟨0, Nat.le_refl 0, fun index below => absurd below (Nat.not_lt_zero index)⟩
  | succ last ih =>
      by_cases lastHolds : holds (entries.getD last 0) = true
      · refine ⟨last + 1, Nat.le_refl _, fun index below => iff_of_true ?_ below⟩
        exact downward index last (Nat.le_of_lt_succ below) within lastHolds
      · obtain ⟨point, ahead, splits⟩ := ih (Nat.le_of_succ_le within)
        refine ⟨point, Nat.le_succ_of_le ahead, fun index below => ?_⟩
        rcases Nat.lt_succ_iff_lt_or_eq.1 below with before | rfl
        · exact splits index before
        · exact iff_of_false lastHolds (Nat.not_lt.2 ahead)

/-- When `holds` is true of every entry before one of which it is true, the search tells
the entries of which it is true from the others. -/
theorem partitionPoint_splits :
    partitionPoint entries holds ≤ entries.size ∧
      ∀ index, index < entries.size →
        (index < partitionPoint entries holds ↔ holds (entries.getD index 0) = true) := by
  obtain ⟨point, bound, splits⟩ := exists_point downward (Nat.le_refl entries.size)
  rw [partitionPoint_eq splits bound]
  exact ⟨bound, fun index inside => (splits index inside).symm⟩

end Downward

/-- When `holds` is true of the entries of one part and false of those of the part
after it, the search finds where the parts meet. -/
theorem partitionPoint_append {left right : Array Nat} {holds : Nat → Bool}
    (leftHolds : ∀ entry, entry ∈ left → holds entry = true)
    (rightFails : ∀ entry, entry ∈ right → holds entry = false) :
    partitionPoint (left ++ right) holds = left.size := by
  refine partitionPoint_eq (fun index within => ?_) ?_
  · rw [Array.getD_eq_getD_getElem?, Array.getElem?_eq_getElem within, Option.getD_some,
      Array.getElem_append]
    split
    · exact iff_of_true (leftHolds _ (Array.getElem_mem _)) ‹_›
    · refine iff_of_false ?_ ‹_›
      rw [rightFails _ (Array.getElem_mem _)]
      exact Bool.false_ne_true
  · rw [Array.size_append]
    exact Nat.le_add_right _ _

end LiveDocument
