import Gloss.Detect.Loop
import Gloss.Expr.Parser

/-!
# Summations

A counting loop that adds a term to an accumulator is a sum. Three idioms count, tried in this
order over the whole body: `acc += term;`, `acc = acc + term;` and `acc = term + acc;`.
-/

namespace Gloss.Summation

/-- An accumulator and the term added to it. -/
structure Accumulation where
  /-- The variable that holds the sum. -/
  accumulator : Text
  /-- What is added. -/
  term : Text
  deriving DecidableEq, Repr

/-- The text before the first semicolon, trimmed, if it is not empty. -/
def takeTerm? (t : Text) : Option Text :=
  match Text.breakAt ';' t with
  | (c :: term, some _) => some (Text.trim (c :: term))
  | _ => none

/-- The idiom `acc += term;`. -/
def added? (t : Text) : Option Accumulation := do
  let (accumulator, rest) ← Text.takeIdent? t
  let rest ← Text.after? ['+', '='] (Text.skipLayout rest)
  let term ← takeTerm? rest
  return ⟨accumulator, term⟩

/-- The idiom `acc = acc + term;`. -/
def addedBehind? (t : Text) : Option Accumulation := do
  let (accumulator, rest) ← Loop.takeTarget? t
  let rest ← Text.after? accumulator (Text.skipLayout rest)
  if rest.head?.any isIdentPart then none
  let rest ← Text.after? ['+'] (Text.skipLayout rest)
  let term ← takeTerm? rest
  return ⟨accumulator, term⟩

/-- The idiom `acc = term + acc;`, read from the semicolon backwards. -/
def addedBefore? (t : Text) : Option Accumulation := do
  let (accumulator, rest) ← Loop.takeTarget? t
  let (value, some _) := Text.breakAt ';' rest | none
  let back ← Text.after? accumulator.reverse (Text.skipLayout value.reverse)
  let c :: back ← Text.after? ['+'] (Text.skipLayout back) | none
  return ⟨accumulator, Text.trim (c :: back).reverse⟩

/-- The first accumulation in a loop body, by the first idiom that occurs at all. -/
def extract? (body : Text) : Option Accumulation :=
  [added?, addedBehind?, addedBefore?].findSome? fun idiom => Text.firstAtBoundary? idiom none body

/-- The accumulation of a loop, unless an exclusive or occurs in it or in the bounds. -/
def ofLoop? (loop : CountingLoop) : Option Accumulation :=
  (extract? loop.body).filter fun found =>
    !([loop.header.lower, loop.header.upper, found.term, found.accumulator].any (xorSign ∈ ·))

/-- The finding of a sum. -/
def finding (ix : LineIndex) (start : Nat) (loop : CountingLoop) (found : Accumulation) :
    Finding :=
  let header := loop.header
  let formula := Formula.sum (Expr.parseOrRaw found.accumulator) header.index
    (Expr.parseOrRaw header.lower) (Expr.parseOrRaw header.upper) (Expr.parseOrRaw found.term)
  { location := ix.location start (start + loop.length : Nat)
    typeset := formula.typeset
    inlineText := formula.inlineText
    detail := .summation header.index header.lower header.upper found.accumulator found.term }

/-- The sums in a source. -/
def find (source masked : Text) : List Finding :=
  (Loop.accepted ofLoop? masked).map fun (start, loop, found) =>
    finding (LineIndex.ofText source) start loop found

/-- The detector of summations. -/
def detector : Detector where
  name := "summation".toList
  run _ source masked := { findings := find source masked }

end Gloss.Summation
