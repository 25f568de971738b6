import LiveDocument.Position

/-!
# Sorting by position

A list that is sorted by a position of each item is in reading order
(`pairwise_mergeSort_position`), and items with the same position keep the order in which
they came (`filter_mergeSort_position`). These two settle the sorted list
(`eq_of_pairwise_of_filter_eq`).
-/

namespace LiveDocument

namespace Position

variable {α : Type} (position : α → Position)

private theorem positions_trans (first second third : α)
    (firstSecond : decide (position first ≤ position second) = true)
    (secondThird : decide (position second ≤ position third) = true) :
    decide (position first ≤ position third) = true :=
  decide_eq_true <|
    Position.le_trans (of_decide_eq_true firstSecond) (of_decide_eq_true secondThird)

private theorem positions_total (first second : α) :
    (decide (position first ≤ position second) ||
      decide (position second ≤ position first)) = true := by
  rw [Bool.or_eq_true, decide_eq_true_eq, decide_eq_true_eq]
  exact Position.le_total _ _

theorem pairwise_mergeSort_position (items : List α) :
    (items.mergeSort fun first second => position first ≤ position second).Pairwise
      fun first second => position first ≤ position second :=
  (List.pairwise_mergeSort (positions_trans position) (positions_total position) _).imp
    of_decide_eq_true

/-- Items with the same position keep the order in which they came. -/
theorem filter_mergeSort_position (items : List α) (place : Position) :
    (items.mergeSort fun first second => position first ≤ position second).filter
        (position · = place) =
      items.filter (position · = place) := by
  have samePlace : ∀ item, item ∈ items.filter (position · = place) →
      position item = place := by
    intro item member
    exact of_decide_eq_true (List.mem_filter.1 member).2
  have sorted : (items.filter (position · = place)).Pairwise
      fun first second => decide (position first ≤ position second) = true := by
    refine List.pairwise_of_forall_mem_list fun first firstMember second secondMember => ?_
    rw [samePlace first firstMember, samePlace second secondMember]
    exact decide_eq_true (Position.le_refl _)
  have kept := (List.sublist_mergeSort (positions_trans position) (positions_total position)
    sorted List.filter_sublist).filter (position · = place)
  rw [List.filter_filter] at kept
  simp only [Bool.and_self] at kept
  refine (kept.eq_of_length ?_).symm
  exact ((List.mergeSort_perm items _).filter _).length_eq.symm

/-- Two items that come in reading order stay in the order in which they came. -/
theorem pair_sublist_mergeSort_position {items : List α} {first second : α}
    (inOrder : position first ≤ position second) (came : [first, second].Sublist items) :
    [first, second].Sublist
      (items.mergeSort fun first second => position first ≤ position second) :=
  List.pair_sublist_mergeSort (positions_trans position) (positions_total position)
    (decide_eq_true inOrder) came

/-- Two items at the same position come as they are sorted. -/
theorem pair_sublist_of_mergeSort_position {items : List α} {first second : α}
    (samePosition : position first = position second)
    (sorted : [first, second].Sublist
      (items.mergeSort fun first second => position first ≤ position second)) :
    [first, second].Sublist items := by
  have tied := sorted.filter (position · = position second)
  rw [filter_mergeSort_position] at tied
  simp only [List.filter_cons, samePosition, decide_true, if_true, List.filter_nil] at tied
  exact tied.trans List.filter_sublist

section Settled

variable {first second : List α}

private theorem mem_of_filter_eq
    (sameAt : ∀ place, first.filter (position · = place) =
      second.filter (position · = place)) {item : α} (member : item ∈ first) :
    item ∈ second := by
  have kept : item ∈ first.filter (position · = position item) :=
    List.mem_filter.2 ⟨member, decide_eq_true rfl⟩
  rw [sameAt] at kept
  exact (List.mem_filter.1 kept).1

private theorem head_le_of_pairwise {head item : α} {tail : List α}
    (inOrder : (head :: tail).Pairwise fun left right => position left ≤ position right)
    (member : item ∈ head :: tail) : position head ≤ position item := by
  rcases List.mem_cons.1 member with rfl | later
  · exact Position.le_refl _
  · exact (List.pairwise_cons.1 inOrder).1 item later

/-- A list in reading order is settled by what it holds at each position. -/
theorem eq_of_pairwise_of_filter_eq
    (firstInOrder : first.Pairwise fun left right => position left ≤ position right)
    (secondInOrder : second.Pairwise fun left right => position left ≤ position right)
    (sameAt : ∀ place, first.filter (position · = place) =
      second.filter (position · = place)) :
    first = second := by
  induction first generalizing second with
  | nil =>
      refine (List.eq_nil_iff_forall_not_mem.2 fun item member => ?_).symm
      exact List.not_mem_nil (mem_of_filter_eq position (fun place => (sameAt place).symm) member)
  | cons head tail ih =>
      have headMember := mem_of_filter_eq position sameAt List.mem_cons_self
      cases second with
      | nil => exact absurd headMember List.not_mem_nil
      | cons other rest =>
          have otherMember := mem_of_filter_eq position (fun place => (sameAt place).symm)
            List.mem_cons_self
          have samePlace : position head = position other := Position.le_antisymm
            (head_le_of_pairwise position firstInOrder otherMember)
            (head_le_of_pairwise position secondInOrder headMember)
          have atHead := sameAt (position head)
          simp only [List.filter_cons, samePlace, decide_true, if_true] at atHead
          obtain rfl := (List.cons.inj atHead).1
          refine congrArg (head :: ·) (ih (List.pairwise_cons.1 firstInOrder).2
            (List.pairwise_cons.1 secondInOrder).2 fun place => ?_)
          have atPlace := sameAt place
          rw [List.filter_cons, List.filter_cons] at atPlace
          split at atPlace
          · exact (List.cons.inj atPlace).2
          · exact atPlace

end Settled

end Position

end LiveDocument
