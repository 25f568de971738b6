import LiveDocument.Proofs.LineFeeds

/-!
# Starts of lines in parts

The starts of a text are those of its parts one after the other
(`lineStarts_append`), and moving a text moves its starts (`lineStarts_add`). They are the
offsets behind the bytes of line feeds (`toList_lineStarts`), which says where they lie and
that they are in order. The operations on an array of starts act on three consecutive parts
of it.
-/

namespace LiveDocument

open Text

theorem lineStarts_append (left right : Text) (base : Nat) :
    lineStarts (left ++ right) false base =
      lineStarts left false base ++ lineStarts right false (base + byteLength left) := by
  induction left generalizing base with
  | nil => simp [lineStarts_nil]
  | cons c rest ih =>
      rw [List.cons_append, lineStarts_cons, lineStarts_cons, ih, byteLength_cons,
        Nat.add_assoc base, Array.append_assoc]

@[simp]
theorem size_lineStarts (text : Text) (base : Nat) :
    (lineStarts text false base).size = text.count '\n' := by
  induction text generalizing base with
  | nil => rfl
  | cons c rest ih =>
      rw [lineStarts_cons, Array.size_append, ih, List.count_cons]
      by_cases feed : c = '\n'
      · simp [feed, Nat.add_comm]
      · simp [feed]

theorem lineStarts_add (text : Text) (base distance : Nat) :
    lineStarts text false (base + distance) =
      (lineStarts text false base).map (· + distance) := by
  induction text generalizing base with
  | nil => simp [lineStarts_nil]
  | cons c rest ih =>
      have moved : base + distance + c.utf8Size = base + c.utf8Size + distance := by omega
      rw [lineStarts_cons, lineStarts_cons, moved, ih, Array.map_append]
      by_cases feed : c = '\n'
      · simp [feed]
      · simp [feed]

/-- A start at `base` comes first, whatever the text. -/
theorem lineStarts_eq_opening_append (text : Text) (atLineStart : Bool) (base : Nat) :
    lineStarts text atLineStart base =
      lineStarts [] atLineStart base ++ lineStarts text false base :=
  lineStarts_go text base _

theorem lineStarts_eq_map_add (text : Text) (atLineStart : Bool) (base : Nat) :
    lineStarts text atLineStart base = (lineStarts text atLineStart 0).map (· + base) := by
  have opening : lineStarts [] atLineStart base =
      (lineStarts [] atLineStart 0).map (· + base) := by
    cases atLineStart with
    | false => simp [lineStarts_nil]
    | true => simp [lineStarts_nil]
  rw [lineStarts_eq_opening_append text atLineStart base,
    lineStarts_eq_opening_append text atLineStart 0, Array.map_append, ← opening,
    ← lineStarts_add, Nat.zero_add]

/-- The bytes of line feeds, counted so that each gets the offset behind it. -/
theorem toList_lineStarts (text : Text) (base : Nat) :
    (lineStarts text false base).toList = (bytes text).idxsOf lineFeed (base + 1) := by
  induction text generalizing base with
  | nil => rfl
  | cons c rest ih =>
      rw [lineStarts_cons, Array.toList_append, ih, bytes_cons, List.idxsOf_append,
        idxsOf_utf8EncodeChar, String.length_utf8EncodeChar, Nat.add_right_comm]
      by_cases feed : c = '\n'
      · rw [if_pos feed, if_pos feed, feed, utf8Size_feed]
      · rw [if_neg feed, if_neg feed]

theorem mem_lineStarts_iff {text : Text} {base start : Nat} :
    start ∈ lineStarts text false base ↔
      ∃ before after, text = before ++ '\n' :: after ∧
        start = base + byteLength before + 1 := by
  rw [← Array.mem_toList_iff, toList_lineStarts, List.mem_idxsOf_iff_getElem_sub_pos]
  constructor
  · rintro ⟨behind, within, feed⟩
    have here : (bytes text)[start - (base + 1)]? = some lineFeed := by
      rw [List.getElem?_eq_getElem within, eq_of_beq feed]
    obtain ⟨before, after, split, length⟩ := getElem?_bytes_eq_lineFeed_iff.1 here
    exact ⟨before, after, split, by omega⟩
  · rintro ⟨before, after, split, rfl⟩
    have offset : byteLength before = base + byteLength before + 1 - (base + 1) := by omega
    have here := getElem?_bytes_eq_lineFeed_iff.2 ⟨before, after, split, offset⟩
    obtain ⟨within, feed⟩ := List.getElem?_eq_some_iff.1 here
    exact ⟨by omega, within, beq_iff_eq.2 feed⟩

/-- A line starts after the line feed before it, and at the end of the text at the
latest. -/
theorem bounds_of_mem_lineStarts {text : Text} {base start : Nat}
    (member : start ∈ lineStarts text false base) :
    base < start ∧ start ≤ base + byteLength text := by
  obtain ⟨before, after, rfl, rfl⟩ := mem_lineStarts_iff.1 member
  rw [byteLength_append, byteLength_cons, utf8Size_feed]
  omega

theorem within_of_mem_lineStarts {text : Text} {atLineStart : Bool} {base start : Nat}
    (member : start ∈ lineStarts text atLineStart base) :
    base ≤ start ∧ start ≤ base + byteLength text := by
  rw [lineStarts_eq_opening_append, Array.mem_append] at member
  rcases member with opening | later
  · cases atLineStart with
    | false => exact absurd opening (Array.not_mem_empty start)
    | true =>
        rw [Array.mem_singleton.1 opening]
        exact ⟨Nat.le_refl base, Nat.le_add_right base _⟩
  · obtain ⟨behind, within⟩ := bounds_of_mem_lineStarts later
    exact ⟨Nat.le_of_lt behind, within⟩

theorem pairwise_lineStarts (text : Text) (base : Nat) :
    (lineStarts text false base).toList.Pairwise (· < ·) := by
  rw [toList_lineStarts]
  exact List.pairwise_idxsOf

/-- The line feed that ends a text starts a line at the end of the text. -/
theorem lineStarts_feed (initial : Text) (base : Nat) :
    lineStarts (initial ++ ['\n']) false base =
      (lineStarts initial false base).push (base + byteLength (initial ++ ['\n'])) := by
  rw [lineStarts_append, lineStarts_cons, if_pos rfl, lineStarts_nil, byteLength_append]
  simp [Nat.add_assoc]

/-- The starts of a text are those of its parts one after the other, wherever it is cut:
a start at `base` belongs to the first part, and the second part begins where the first one
ends. To begin at `base` moves every start by `base`. After `base`, if it is a start, come
the offsets behind the bytes of line feeds. As long as the end of the text has an offset of
32 bits, so have all the starts. -/
theorem lineStarts_concatenates (left right : Text) (atLineStart : Bool) (base : Nat) :
    lineStarts (left ++ right) atLineStart base =
        lineStarts left atLineStart base ++
          lineStarts right false (base + byteLength left) ∧
      lineStarts left atLineStart base =
        (lineStarts left atLineStart 0).map (· + base) ∧
      (lineStarts left atLineStart base).toList =
        (if atLineStart then [base] else []) ++
          (bytes left).idxsOf lineFeed (base + 1) ∧
      (base + byteLength left + byteLength right < UInt32.size →
        ∀ start ∈ lineStarts (left ++ right) atLineStart base, start < UInt32.size) := by
  refine ⟨?_, lineStarts_eq_map_add left atLineStart base, ?_, fun short start member => ?_⟩
  · rw [lineStarts_eq_opening_append (left ++ right), lineStarts_eq_opening_append left,
      lineStarts_append, Array.append_assoc]
  · rw [lineStarts_eq_opening_append, Array.toList_append, toList_lineStarts, lineStarts_nil]
    cases atLineStart with
    | false => rfl
    | true => rfl
  · have within := (within_of_mem_lineStarts member).2
    rw [byteLength_append, ← Nat.add_assoc] at within
    exact Nat.lt_of_le_of_lt within short

/-- The text is cut between a carriage return and its line feed, and its end has the last
offset of 32 bits. -/
theorem lineStarts_concatenates_inside_crlf :
    let left : Text := ['é', '\n', 'a', '\r']
    let right : Text := ['\n', '😀', '\n']
    let base := 4294967284
    lineStarts left true base = #[base, base + 3] ∧
      lineStarts right false (base + byteLength left) = #[base + 6, base + 11] ∧
      lineStarts (left ++ right) true base = #[base, base + 3, base + 6, base + 11] ∧
      (lineStarts left true 0).map (· + base) = #[base, base + 3] ∧
      base + byteLength left + byteLength right < UInt32.size ∧
      base + 11 ∈ lineStarts (left ++ right) true base ∧ base + 11 < UInt32.size := by
  intro left right base
  obtain ⟨joined, moved, _, fits⟩ := lineStarts_concatenates left right true base
  have first : lineStarts left true base = #[base, base + 3] := by decide
  have second : lineStarts right false (base + byteLength left) = #[base + 6, base + 11] := by
    decide
  have whole : lineStarts (left ++ right) true base =
      #[base, base + 3, base + 6, base + 11] := by
    rw [joined, first, second]
    rfl
  have short : base + byteLength left + byteLength right < UInt32.size := by decide
  have member : base + 11 ∈ lineStarts (left ++ right) true base := by
    rw [whole]
    simp
  exact ⟨first, second, whole, moved ▸ first, short, member, fits short _ member⟩

/-! ## Editing an array of starts -/

namespace LineStarts

section Parts

variable (before old after added : Array Nat)

theorem overwrite_append (sameSize : added.size = old.size) :
    overwrite (before ++ old ++ after) before.size added = before ++ added ++ after := by
  refine Array.ext (by simp [sameSize]) fun index _ within => ?_
  rw [Array.size_append, Array.size_append] at within
  simp only [overwrite, Array.getElem_mapIdx, Array.getElem_append, Array.size_append]
  by_cases ahead : index < before.size
  · have notYet : ¬ before.size ≤ index := Nat.not_le.2 ahead
    have early : index < before.size + old.size := by omega
    simp [ahead, notYet, early, sameSize]
  · have reached : before.size ≤ index := Nat.le_of_not_lt ahead
    by_cases behind : index < before.size + added.size
    · have covered : index - before.size < added.size := by omega
      simp [ahead, reached, behind, covered, Array.getD]
    · have passed : ¬ index - before.size < added.size := by omega
      simp [reached, behind, passed, ← sameSize, Array.getD]

theorem replace_append :
    replace (before ++ old ++ after) before.size old.size added =
      before ++ added ++ after := by
  have noneOfBefore : before.extract (before.size + old.size)
      (before.size + (old.size + after.size)) = #[] :=
    Array.extract_empty_of_size_le_start (Nat.le_add_right _ _)
  simp [replace, Array.extract_append, noneOfBefore]

theorem shift_append (inserted removed : Nat) :
    shift (before ++ after) before.size inserted removed =
      before ++ after.map fun start => start + inserted - removed := by
  refine Array.ext (by simp) fun index _ within => ?_
  rw [Array.size_append, Array.size_map] at within
  simp only [shift, Array.getElem_mapIdx, Array.getElem_append]
  by_cases ahead : index < before.size
  · simp [ahead, Nat.not_le.2 ahead]
  · simp [ahead, Nat.le_of_not_lt ahead]

end Parts

/-- To write over entries is to exchange as many. -/
theorem overwrite_eq_replace {starts added : Array Nat} {first : Nat}
    (within : first + added.size ≤ starts.size) :
    overwrite starts first added = replace starts first added.size added := by
  have parts : starts.extract 0 first ++ starts.extract first (first + added.size) ++
      starts.extract (first + added.size) = starts := by
    rw [Array.extract_append_extract, Nat.zero_min, Nat.max_eq_right (Nat.le_add_right _ _),
      Array.extract_append_extract, Nat.zero_min, Nat.max_eq_right within, Array.extract_size]
  have firstSize : (starts.extract 0 first).size = first := by
    rw [Array.size_extract]
    omega
  have oldSize : (starts.extract first (first + added.size)).size = added.size := by
    rw [Array.size_extract]
    omega
  have overwritten := overwrite_append (starts.extract 0 first)
    (starts.extract first (first + added.size)) (starts.extract (first + added.size)) added
    oldSize.symm
  have replaced := replace_append (starts.extract 0 first)
    (starts.extract first (first + added.size)) (starts.extract (first + added.size)) added
  rw [parts, firstSize] at overwritten
  rw [parts, firstSize, oldSize] at replaced
  rw [overwritten, replaced]

/-- Entries move by nothing when as many bytes are put in as are taken out. -/
theorem shift_self (starts : Array Nat) (first length : Nat) :
    shift starts first length length = starts :=
  Array.ext (by simp) fun index _ _ => by simp [shift]

end LineStarts

end LiveDocument
