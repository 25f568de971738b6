import Mathlib.Data.List.Basic
import LiveDocument.LineTable.Starts

/-!
# Line feeds among the bytes of a text

Lines are told by characters, offsets by bytes. The byte of a line feed occurs in UTF-8 as
the form of that character only (`lineFeed_mem_utf8EncodeChar_iff`), so the two agree about
where line feeds are (`getElem?_bytes_eq_lineFeed_iff`) and how many come before an offset,
inside a character or not (`count_take_bytes`).
-/

namespace LiveDocument

namespace Text

/-- The UTF-8 form of a text. -/
def bytes (text : Text) : List UInt8 :=
  text.flatMap String.utf8EncodeChar

def lineFeed : UInt8 := 10

theorem bytes_cons (c : Char) (rest : Text) :
    bytes (c :: rest) = String.utf8EncodeChar c ++ bytes rest := rfl

theorem length_bytes (text : Text) : (bytes text).length = byteLength text := by
  induction text with
  | nil => rfl
  | cons c rest ih =>
      rw [bytes_cons, List.length_append, String.length_utf8EncodeChar, ih, byteLength_cons]

private theorem utf8EncodeChar_feed : String.utf8EncodeChar '\n' = [lineFeed] := by
  decide

theorem lineFeed_mem_utf8EncodeChar_iff {c : Char} :
    lineFeed ∈ String.utf8EncodeChar c ↔ c = '\n' := by
  constructor
  · intro member
    obtain ⟨index, within, here⟩ := List.getElem_of_mem member
    have isFirst : lineFeed.IsUTF8FirstByte := by decide
    rw [← here, UInt8.isUTF8FirstByte_getElem_utf8EncodeChar] at isFirst
    subst isFirst
    have encoded : String.utf8EncodeChar c = lineFeed :: (String.utf8EncodeChar c).tail := by
      rw [← here, List.getElem_zero, List.cons_head_tail]
    -- What starts with the form of a line feed is read as one.
    have readFeed : ((String.utf8EncodeChar '\n').toByteArray ++
        (String.utf8EncodeChar c).tail.toByteArray).utf8DecodeChar? 0 = some '\n' :=
      ByteArray.utf8DecodeChar?_utf8EncodeChar_append
    have readSelf :
        ((String.utf8EncodeChar c).toByteArray ++ ByteArray.empty).utf8DecodeChar? 0 =
          some c :=
      ByteArray.utf8DecodeChar?_utf8EncodeChar_append
    rw [utf8EncodeChar_feed, ← List.toByteArray_append, List.singleton_append,
      ← encoded] at readFeed
    rw [ByteArray.append_empty, readFeed] at readSelf
    exact (Option.some.inj readSelf).symm
  · rintro rfl
    decide

private theorem count_utf8EncodeChar (c : Char) :
    (String.utf8EncodeChar c).count lineFeed = if c = '\n' then 1 else 0 := by
  by_cases feed : c = '\n'
  · rw [if_pos feed, feed]
    decide
  · rw [if_neg feed]
    exact List.count_eq_zero.2 (mt lineFeed_mem_utf8EncodeChar_iff.1 feed)

theorem idxsOf_utf8EncodeChar (c : Char) (start : Nat) :
    (String.utf8EncodeChar c).idxsOf lineFeed start = if c = '\n' then [start] else [] := by
  by_cases feed : c = '\n'
  · rw [if_pos feed, feed, utf8EncodeChar_feed]
    rfl
  · rw [if_neg feed, List.idxsOf_eq_nil_iff]
    intro byte member
    rw [beq_eq_false_iff_ne]
    rintro rfl
    exact feed (lineFeed_mem_utf8EncodeChar_iff.1 member)

private theorem lineFeed_not_mem_take {c : Char} {offset : Nat} (short : offset < c.utf8Size) :
    lineFeed ∉ (String.utf8EncodeChar c).take offset := by
  intro member
  have feed : c = '\n' := lineFeed_mem_utf8EncodeChar_iff.1 (List.mem_of_mem_take member)
  rw [feed, utf8Size_feed, Nat.lt_one_iff] at short
  rw [short, List.take_zero] at member
  exact List.not_mem_nil member

theorem getElem?_bytes_eq_lineFeed_iff {text : Text} {offset : Nat} :
    (bytes text)[offset]? = some lineFeed ↔
      ∃ before after, text = before ++ '\n' :: after ∧ byteLength before = offset := by
  induction text generalizing offset with
  | nil => simp [bytes]
  | cons c rest ih =>
      rw [bytes_cons, List.getElem?_append, String.length_utf8EncodeChar]
      constructor
      · intro here
        by_cases inside : offset < c.utf8Size
        · rw [if_pos inside] at here
          have feed : c = '\n' :=
            lineFeed_mem_utf8EncodeChar_iff.1 (List.mem_of_getElem? here)
          rw [feed, utf8Size_feed] at inside
          refine ⟨[], rest, ?_, ?_⟩
          · rw [feed]
            rfl
          · rw [byteLength_nil]
            omega
        · rw [if_neg inside, ih] at here
          obtain ⟨before, after, rfl, length⟩ := here
          refine ⟨c :: before, after, rfl, ?_⟩
          rw [byteLength_cons]
          omega
      · rintro ⟨before, after, split, rfl⟩
        cases before with
        | nil =>
            obtain ⟨rfl, _⟩ := List.cons.inj split
            rfl
        | cons first later =>
            obtain ⟨rfl, rest⟩ := List.cons.inj split
            rw [byteLength_cons, if_neg (Nat.not_lt.2 (Nat.le_add_right _ _)),
              Nat.add_sub_cancel_left]
            exact ih.2 ⟨later, after, rest, rfl⟩

/-- A line feed before an offset is one of the characters that end at or before it. -/
theorem count_take_bytes (text : Text) (offset : Nat) :
    ((bytes text).take offset).count lineFeed = (takeBytes text offset).count '\n' := by
  induction text generalizing offset with
  | nil => simp [bytes, takeBytes]
  | cons c rest ih =>
      rw [bytes_cons, List.take_append, List.count_append, String.length_utf8EncodeChar, ih,
        takeBytes_cons]
      by_cases fits : c.utf8Size ≤ offset
      · have whole : (String.utf8EncodeChar c).take offset = String.utf8EncodeChar c := by
          refine List.take_of_length_le ?_
          rw [String.length_utf8EncodeChar]
          exact fits
        rw [if_pos fits, whole, count_utf8EncodeChar, List.count_cons, Nat.add_comm]
        simp only [beq_iff_eq]
      · have short : offset < c.utf8Size := Nat.lt_of_not_le fits
        rw [if_neg fits, Nat.sub_eq_zero_of_le (Nat.le_of_lt short), takeBytes_zero,
          List.count_nil, Nat.add_zero]
        exact List.count_eq_zero.2 (lineFeed_not_mem_take short)

end Text

end LiveDocument
