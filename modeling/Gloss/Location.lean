import Gloss.Text.Line

/-!
# Locations

A half-open range of a text, by offsets and by line and column numbers. Lines and columns
count from one. The end position may be unknown in a location that comes from outside.
-/

namespace Gloss

/-- The range from `offset` up to `endOffset`, and where its ends stand. -/
structure Location where
  /-- The line of the first character. -/
  line : Int
  /-- The column of the first character. -/
  column : Int
  /-- The offset of the first character. -/
  offset : Int := 0
  /-- The offset just past the last character. -/
  endOffset : Int := 0
  /-- The line of the end. -/
  endLine : Option Int := none
  /-- The column of the end. -/
  endColumn : Option Int := none
  deriving DecidableEq, Repr

namespace Location

/-- The number of characters in a location; negative if its ends are reversed. -/
def length (l : Location) : Int := l.endOffset - l.offset

/-- Two locations overlap if each starts before the other ends. -/
def overlaps (a b : Location) : Bool := a.offset < b.endOffset && b.offset < a.endOffset

/-- A number that may be missing, as text. -/
def coordinate : Option Int → Text
  | some n => Text.ofInt n
  | none => "None".toList

/-- A location as `line:column-line:column`, without the second half if the line of the end is
unknown. -/
def toText (l : Location) : Text :=
  let first := Text.ofInt l.line ++ ':' :: Text.ofInt l.column
  match l.endLine with
  | none => first
  | some n => first ++ '-' :: Text.ofInt n ++ ':' :: coordinate l.endColumn

end Location

/-- The location of a range of the indexed text. -/
def LineIndex.location (ix : LineIndex) (start stop : Int) : Location :=
  let (line, column) := ix.position start
  let (endLine, endColumn) := ix.position stop
  { line, column, offset := start, endOffset := stop, endLine := some endLine,
    endColumn := some endColumn }

end Gloss
