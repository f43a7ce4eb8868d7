import Gloss.Text.Basic

/-!
# Lines

A line ends with a carriage return, a line feed, or the two together as one break; no
other character ends a line. A text is cut into lines with the breaks kept beside them,
so the cut loses nothing, and `LineIndex` turns offsets into line and column numbers.
-/

namespace Gloss

/-- Line feed and carriage return are the characters that break a line. -/
def isLineBreak (c : Char) : Bool := c = '\n' || c = '\r'

namespace Text

/-- The lines of a text, each with the break that ends it; the last one has none. -/
def brokenLines : Text → List (Text × Text)
  | [] => [([], [])]
  | '\r' :: '\n' :: t => ([], ['\r', '\n']) :: brokenLines t
  | c :: t =>
    if isLineBreak c then ([], [c]) :: brokenLines t
    else match brokenLines t with
      | [] => [([c], [])]
      | (line, brk) :: more => (c :: line, brk) :: more

/-- There is always a line, be it empty. -/
theorem brokenLines_ne_nil (t : Text) : brokenLines t ≠ [] := by
  fun_cases brokenLines t <;> simp_all

/-- The lines and their breaks make up the text. -/
theorem flatMap_brokenLines (t : Text) :
    (brokenLines t).flatMap (fun (line, brk) => line ++ brk) = t := by
  fun_induction brokenLines t <;> simp_all

/-- Lays out lines from offset `start` on and forgets their breaks. -/
def placeLines : (start : Nat) → List (Text × Text) → List (Nat × Text)
  | _, [] => []
  | start, (line, brk) :: more =>
    (start, line) :: placeLines (start + line.length + brk.length) more

/-- The lines of a text without their breaks, each with the offset at which it starts. -/
def lines (t : Text) : List (Nat × Text) := placeLines 0 (brokenLines t)

/-- The offsets just past each line break of a text that itself begins at offset `n`. -/
def startsFrom : (n : Nat) → Text → List Nat
  | _, [] => []
  | n, '\r' :: '\n' :: t => (n + 2) :: startsFrom (n + 2) t
  | n, c :: t => if isLineBreak c then (n + 1) :: startsFrom (n + 1) t else startsFrom (n + 1) t

/-- The offsets at which the lines of a text start: zero, and just past each break. -/
def lineStarts (t : Text) : List Nat := 0 :: startsFrom 0 t

end Text

/-- What is needed to place offsets of one text: its line starts and its length. -/
structure LineIndex where
  /-- The offset at which each line starts, in increasing order. -/
  starts : List Nat
  /-- The length of the text. -/
  length : Nat
  deriving DecidableEq, Repr

namespace LineIndex

/-- The index of a text. -/
def ofText (t : Text) : LineIndex := ⟨t.lineStarts, t.length⟩

/-- The line and column of an offset, both counted from one. An offset outside the text
is moved to its nearer end. -/
def position (ix : LineIndex) (offset : Int) : Nat × Nat :=
  let place := min offset.toNat ix.length
  let before := ix.starts.takeWhile (· ≤ place)
  (before.length, place - before.getLastD 0 + 1)

end LineIndex

end Gloss
