import Gloss.Detect.Basic
import Gloss.Expr.Parser

/-!
# Powers

A power is a call of a configured function with exactly two arguments. The function may be
qualified further, and layout may stand around the dots and before the parenthesis. A call is
passed over if an identifier character or a dot stands directly before it, if its parenthesis
is never closed, or if an argument contains an exclusive or.
-/

namespace Gloss.Power

/-- A recognised call. -/
structure Call where
  /-- The number of characters before the opening parenthesis. -/
  nameLength : Nat
  /-- The first argument. -/
  base : Text
  /-- The second argument. -/
  exponent : Text
  deriving DecidableEq, Repr

/-- The segments of a dotted name at the front of a text that an opening parenthesis follows,
and the text behind that parenthesis. -/
def takeCallee? (t : Text) : Option (List Text × Text) :=
  match Text.takeDotted? isLayout t with
  | none => none
  | some (segments, rest) =>
    match rest.skipLayout with
    | '(' :: inside => some (segments, inside)
    | _ => none

/-- Whether segments are a function's name, or end with one where a word begins before them. -/
def names (function : Text) (prev : Option Char) (segments : List Text) : Bool :=
  let parts := Text.splitAt '.' function
  segments = parts || (parts.isSuffixOf segments && !prev.any isIdentPart)

/-- The two arguments between the parentheses of a power, unless one has an exclusive or. -/
def arguments? (inside : Text) : Option (Text × Text) :=
  match Text.splitTopLevel [','] inside with
  | [base, exponent] =>
    if xorSign ∈ base || xorSign ∈ exponent then none else some (base, exponent)
  | _ => none

/-- Recognises a call of one of the functions. A call that is passed over is left behind up to
its opening parenthesis, so that calls among its arguments are still found. -/
def recognise (functions : List Text) : Recogniser Call := fun prev t =>
  match takeCallee? t with
  | none => none
  | some (segments, inside) =>
    if functions.any fun function => names function prev segments then
      if prev.any isTokenPart then some (none, inside)
      else
        match Bracket.paren.close? 0 inside with
        | none => some (none, inside)
        | some (args, rest) =>
          match arguments? args with
          | none => some (none, inside)
          | some (base, exponent) =>
            some (some ⟨t.length - inside.length - 1, base, exponent⟩, rest)
    else none

/-- The finding of a power call. -/
def finding (ix : LineIndex) (source : Text) (o : Occurrence Call) : Finding :=
  let formula := Formula.power (Expr.parseOrRaw o.value.base) (Expr.parseOrRaw o.value.exponent)
  { location := ix.location o.start o.stop
    typeset := formula.typeset
    inlineText := formula.inlineText
    detail := .power (Text.trim (source.slice o.start (o.start + o.value.nameLength)))
      o.value.base o.value.exponent }

/-- The power calls in a source. -/
def find (functions : List Text) (source masked : Text) : List Finding :=
  (Text.occurrences (recognise functions) masked).map (finding (LineIndex.ofText source) source)

/-- The detector of powers. -/
def detector : Detector where
  name := "power".toList
  accepts config := config.allowsPower
  run config source masked := { findings := find config.powerFunctions source masked }

end Gloss.Power
