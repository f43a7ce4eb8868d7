import Gloss.Text.Line

/-!
# Masking

Recognisers look at masked text only. Masking replaces every character of a comment, a
string, a character literal or a text block by a space and keeps line breaks and all else,
so offsets, lines and columns of the masked text are those of the source.

Masking is one pass of a small automaton. A string or a character literal ends at its first
unescaped quote or at the end of its line; a block comment or a text block runs to its
closing mark or to the end of the text.
-/

namespace Gloss

/-- Where the masking pass stands. -/
inductive Mask.Mode where
  /-- Outside comments and literals. -/
  | code
  /-- Behind `//`, up to the end of the line. -/
  | lineComment
  /-- Behind `/*`, up to the first `*/`. -/
  | blockComment
  /-- Behind three double quotes, up to the next three. -/
  | textBlock
  /-- Inside a literal opened by `quote`; `escaped` when a backslash came just before. -/
  | quoted (quote : Char) (escaped : Bool)
  deriving DecidableEq, Repr

namespace Mask

/-- What a blanked character becomes: line breaks stay, all else turns into a space. -/
def blank (c : Char) : Char := if isLineBreak c then c else ' '

/-- Masks a text that begins in the given mode. -/
def maskFrom : Mode → Text → Text
  | _, [] => []
  | .code, '/' :: '/' :: t => ' ' :: ' ' :: maskFrom .lineComment t
  | .code, '/' :: '*' :: t => ' ' :: ' ' :: maskFrom .blockComment t
  | .code, '"' :: '"' :: '"' :: t => ' ' :: ' ' :: ' ' :: maskFrom .textBlock t
  | .code, c :: t =>
    if c = '"' || c = '\'' then ' ' :: maskFrom (.quoted c false) t else c :: maskFrom .code t
  | .lineComment, c :: t =>
    if isLineBreak c then c :: maskFrom .code t else ' ' :: maskFrom .lineComment t
  | .blockComment, '*' :: '/' :: t => ' ' :: ' ' :: maskFrom .code t
  | .blockComment, c :: t => blank c :: maskFrom .blockComment t
  | .textBlock, '"' :: '"' :: '"' :: t => ' ' :: ' ' :: ' ' :: maskFrom .code t
  | .textBlock, c :: t => blank c :: maskFrom .textBlock t
  | .quoted quote escaped, c :: t =>
    if isLineBreak c then c :: maskFrom .code t
    else ' ' :: maskFrom
      (if escaped then .quoted quote false
       else if c = '\\' then .quoted quote true
       else if c = quote then .code
       else .quoted quote false) t

/-- Masking keeps the length. -/
theorem length_maskFrom (mode : Mode) (t : Text) : (maskFrom mode t).length = t.length := by
  fun_induction maskFrom mode t <;> simp_all

end Mask

/-- A source with its comments and literals blanked out. -/
def mask (source : Text) : Text := Mask.maskFrom .code source

/-- Offsets of the masked source are offsets of the source. -/
@[simp] theorem length_mask (source : Text) : (mask source).length = source.length :=
  Mask.length_maskFrom .code source

end Gloss
