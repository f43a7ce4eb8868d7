import Gloss.Detect.Loop
import Gloss.Expr.Parser

/-!
# Mappings

A counting loop that writes elements of an array defines a family of values. Only the first
indexed assignment of the body is looked at, and its subscript has to mention the loop variable
as a word of its own: else what is written does not depend on it.
-/

namespace Gloss.Mapping

/-- An assignment to an array element. -/
structure Assignment where
  /-- The array, a dotted name. -/
  array : Text
  /-- The subscript. -/
  subscript : Text
  /-- The value assigned. -/
  value : Text
  deriving DecidableEq, Repr

/-- The trimmed text before the first `stop`, and what follows; there is none if nothing stands
before it. -/
def takeUpTo? (stop : Char) (t : Text) : Option (Text × Text) :=
  match Text.breakAt stop t with
  | (c :: part, some rest) => some (Text.trim (c :: part), rest)
  | _ => none

/-- An indexed assignment at the front of a text, up to its semicolon. -/
def assigned? (t : Text) : Option Assignment := do
  if !t.head?.any isIdentStart then none
  let inside ← Text.after? ['['] (Text.skipLayout (t.dropWhile isTokenPart))
  let (subscript, rest) ← takeUpTo? ']' inside
  let rest ← Loop.afterEquals? rest
  let (value, _) ← takeUpTo? ';' rest
  return ⟨t.takeWhile isTokenPart, subscript, value⟩

/-- The first indexed assignment of a loop body, if its subscript mentions the variable. -/
def extract? (body name : Text) : Option Assignment :=
  (Text.firstAtBoundary? assigned? none body).filter fun found =>
    Text.containsWord name none found.subscript

/-- The assignment of a loop, unless an exclusive or occurs in it or in the bounds. -/
def ofLoop? (loop : CountingLoop) : Option Assignment :=
  (extract? loop.body loop.header.index).filter fun found =>
    !([found.array, found.subscript, found.value, loop.header.lower, loop.header.upper].any
      (xorSign ∈ ·))

/-- The finding of a family of elements. -/
def finding (ix : LineIndex) (start : Nat) (loop : CountingLoop) (found : Assignment) : Finding :=
  let header := loop.header
  let element := Expr.index (Expr.parseOrRaw found.array) (Expr.parseOrRaw found.subscript)
  let formula := Formula.family element (Expr.parseOrRaw found.value) header.index
    (Expr.parseOrRaw header.lower) (Expr.parseOrRaw header.upper)
  { location := ix.location start (start + loop.length : Nat)
    typeset := formula.typeset
    inlineText := formula.inlineText
    detail := .mapping header.index header.lower header.upper found.array found.subscript
      found.value }

/-- The families in a source. -/
def find (source masked : Text) : List Finding :=
  (Loop.accepted ofLoop? masked).map fun (start, loop, found) =>
    finding (LineIndex.ofText source) start loop found

/-- The detector of mappings. -/
def detector : Detector where
  name := "mapping".toList
  run _ source masked := { findings := find source masked }

end Gloss.Mapping
