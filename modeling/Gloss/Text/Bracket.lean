import Gloss.Text.Blank

/-!
# Brackets

Matching counts only the bracket kind that it started with: in `f(a[0)` the
parenthesis closes although the square bracket never does. Splitting at a separator
looks at the three kinds separately, never lets a stray closing bracket count, and
drops the parts that are empty once trimmed.
-/

namespace Gloss

/-- The three kinds of brackets. -/
inductive Bracket where
  /-- `(` and `)` -/
  | paren
  /-- `{` and `}` -/
  | brace
  /-- `[` and `]` -/
  | square
  deriving DecidableEq, Repr

namespace Bracket

/-- The opening character of a kind. -/
def opener : Bracket → Char
  | paren => '('
  | brace => '{'
  | square => '['

/-- The closing character of a kind. -/
def closer : Bracket → Char
  | paren => ')'
  | brace => '}'
  | square => ']'

/-- The kind that a character opens. -/
def ofOpener? (c : Char) : Option Bracket :=
  [paren, brace, square].find? fun b => b.opener = c

/-- The kind that a character closes. -/
def ofCloser? (c : Char) : Option Bracket :=
  [paren, brace, square].find? fun b => b.closer = c

/-- What stands before the bracket that closes the outermost of `depth + 1` open ones,
and what follows it. -/
def close? (b : Bracket) : (depth : Nat) → Text → Option (Text × Text)
  | _, [] => none
  | depth, c :: t =>
    if c = b.opener then (close? b (depth + 1) t).map fun (inside, rest) => (c :: inside, rest)
    else if c = b.closer then
      match depth with
      | 0 => some ([], t)
      | depth + 1 => (close? b depth t).map fun (inside, rest) => (c :: inside, rest)
    else (close? b depth t).map fun (inside, rest) => (c :: inside, rest)

/-- What is enclosed, the closing bracket and the rest make up the text. -/
theorem eq_of_close?_eq_some {b : Bracket} {depth : Nat} {t inside rest : Text}
    (h : b.close? depth t = some (inside, rest)) : t = inside ++ b.closer :: rest := by
  fun_induction close? b depth t generalizing inside <;> simp_all <;> grind

/-- For a text that begins with an opening bracket that is closed: what the two brackets
enclose, and what follows them. -/
def enclosed? : Text → Option (Text × Text)
  | [] => none
  | c :: t => (ofOpener? c).bind fun b => b.close? 0 t

/-- How many brackets of each kind are open. -/
structure Nesting where
  /-- Open `(`. -/
  parens : Nat := 0
  /-- Open `{`. -/
  braces : Nat := 0
  /-- Open `[`. -/
  squares : Nat := 0
  deriving DecidableEq, Repr

namespace Nesting

/-- Nothing is open. -/
def isFlat (n : Nesting) : Bool := n.parens = 0 && n.braces = 0 && n.squares = 0

/-- Counts an opening bracket. -/
def push (n : Nesting) : Bracket → Nesting
  | paren => { n with parens := n.parens + 1 }
  | brace => { n with braces := n.braces + 1 }
  | square => { n with squares := n.squares + 1 }

/-- Counts a closing bracket; one that closes nothing is ignored. -/
def pop (n : Nesting) : Bracket → Nesting
  | paren => { n with parens := n.parens - 1 }
  | brace => { n with braces := n.braces - 1 }
  | square => { n with squares := n.squares - 1 }

/-- The nesting after one character. -/
def step (n : Nesting) (c : Char) : Nesting :=
  match ofOpener? c, ofCloser? c with
  | some b, _ => n.push b
  | none, some b => n.pop b
  | none, none => n

end Nesting

/-- A bracket is never a separator. -/
def isBracket (c : Char) : Bool := (ofOpener? c).isSome || (ofCloser? c).isSome

end Bracket

namespace Text

/-- The offset of the bracket that closes the one at offset `start`, if there is an opening
bracket there and it is closed. -/
def findClosing? (t : Text) (start : Nat) : Option Nat :=
  (Bracket.enclosed? (t.drop start)).map fun (inside, _) => start + inside.length + 1

/-- The offset of the bracket that closes the one at `start`, where an offset below zero counts
from the end of the text. From there the search goes on at the start of the text if it has to.
An offset before the text has no answer. -/
def findClosingAt? (t : Text) : (start : Int) → Option (Option Int)
  | .ofNat start => some ((t.findClosing? start).map Int.ofNat)
  | .negSucc back =>
    if back < t.length then
      let tail := t.drop (t.length - (back + 1))
      some ((Text.findClosing? (tail ++ t) 0).map fun stop => (stop : Int) - (back + 1))
    else none

/-- Cuts a text at each separator outside all brackets, starting within `nesting`. -/
def cutTopLevel (sep : Text) : (nesting : Bracket.Nesting) → Text → List Text
  | _, [] => [[]]
  | nesting, c :: t =>
    if !Bracket.isBracket c && [c] = sep && nesting.isFlat then [] :: cutTopLevel sep nesting t
    else match cutTopLevel sep (nesting.step c) t with
      | [] => [[c]]
      | part :: parts => (c :: part) :: parts

/-- There is always a part, be it empty. -/
theorem cutTopLevel_ne_nil (sep : Text) (nesting : Bracket.Nesting) (t : Text) :
    cutTopLevel sep nesting t ≠ [] := by
  fun_cases cutTopLevel sep nesting t <;> simp_all

/-- The trimmed parts of a text between separators outside all brackets; parts without a
character besides blanks are dropped. A separator is one character, so any other `sep`
occurs nowhere. -/
def splitTopLevel (sep : Text) (t : Text) : List Text :=
  ((cutTopLevel sep {} t).map trim).filter fun part => !part.isEmpty

end Text

end Gloss
