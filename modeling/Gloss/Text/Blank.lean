import Gloss.Text.Basic

/-!
# Blanks

Two classes of characters separate tokens. *Blanks* are the Unicode white-space
characters together with the four information separators; they are what trimming
removes and what the expression grammar skips. *Layout* characters are the six
ASCII blanks that the line-oriented recognisers allow between their tokens.
-/

namespace Gloss

/-- The code point ranges of the blanks, both ends included, in increasing order. -/
def blankRanges : List (Nat × Nat) :=
  [(0x09, 0x0D), (0x1C, 0x20), (0x85, 0x85), (0xA0, 0xA0), (0x1680, 0x1680),
   (0x2000, 0x200A), (0x2028, 0x2029), (0x202F, 0x202F), (0x205F, 0x205F), (0x3000, 0x3000)]

/-- A blank is a Unicode white-space character or an information separator. -/
def isBlank (c : Char) : Bool :=
  blankRanges.any fun (lo, hi) => lo ≤ c.toNat && c.toNat ≤ hi

/-- A layout character is a space, tab, line feed, vertical tab, form feed or carriage return. -/
def isLayout (c : Char) : Bool := c = ' ' || (9 ≤ c.toNat && c.toNat ≤ 13)

/-- Every layout character is a blank. -/
theorem isBlank_of_isLayout {c : Char} (h : isLayout c = true) : isBlank c = true := by
  have h' : c = ' ' ∨ (9 ≤ c.toNat ∧ c.toNat ≤ 13) := by simpa [isLayout] using h
  rcases h' with rfl | h
  · decide
  · simp [isBlank, blankRanges, h.1, h.2]

namespace Text

/-- Skips leading blanks. -/
def skipBlanks (t : Text) : Text := t.dropWhile isBlank

/-- Skips leading layout characters. -/
def skipLayout (t : Text) : Text := t.dropWhile isLayout

/-- Drops the longest ending whose characters all satisfy `p`. -/
def dropEndWhile (p : Char → Bool) (t : Text) : Text := (t.reverse.dropWhile p).reverse

/-- Removes the blanks at both ends. -/
def trim (t : Text) : Text := dropEndWhile isBlank t.skipBlanks

end Text

end Gloss
