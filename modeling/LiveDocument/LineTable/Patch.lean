import LiveDocument.LineTable.Basic

/-!
# Mending a line table

When some bytes of a text are replaced, the table of the new text can be had from the
old table and the inserted text alone.
-/

namespace LiveDocument

namespace LineTable

def removedLines (table : LineTable) (span : Span) : Nat :=
  table.lineOf span.stop - table.lineOf span.start

def firstAffected (table : LineTable) (span : Span) : Nat :=
  table.lineOf span.start + 1

/-- The starts with those that go with `span` exchanged for `added`, before the ones
behind the span are moved. As many new starts as old ones are written over these in
place. -/
def exchangeStarts (table : LineTable) (span : Span) (added : Array Nat) : Array Nat :=
  if added.size = table.removedLines span then
    LineStarts.overwrite table.starts (table.firstAffected span) added
  else
    LineStarts.replace table.starts (table.firstAffected span) (table.removedLines span)
      added

/-- The table after the bytes of `span` were replaced by `inserted`. Only the
starts in `inserted` are computed; those behind the replaced bytes move by the
change in length. The lines are those of the offsets of `span`: a column past a
line feed belongs to the next line. The new length is had by adding what is inserted
before what goes is taken away, so where offsets have 32 bits the text and `inserted`
have to have a length below 2^32 together. Words that wrap at the sum come out right
nevertheless, words that are checked do not come out at all. -/
def patch (table : LineTable) (span : Span) (inserted : Text) : LineTable :=
  let added := lineStarts inserted false span.start
  let starts := table.exchangeStarts span added
  { table with
    starts :=
      if inserted.byteLength = span.length then starts
      else LineStarts.shift starts (table.firstAffected span + added.size)
        inserted.byteLength span.length
    length := table.length + inserted.byteLength - span.length }

@[simp]
theorem unit_patch (table : LineTable) (span : Span) (inserted : Text) :
    (table.patch span inserted).unit = table.unit := rfl

end LineTable

end LiveDocument
