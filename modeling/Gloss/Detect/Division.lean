import Gloss.Detect.Basic

/-!
# Divisions

A division here is one identifier or decimal numeral over another on one line. It is found in
the source itself, line by line. Those behind a `//`, those that begin inside a quoted span of
their line, and those that touch anything masked are left out.
-/

namespace Gloss.Division

/-- An identifier or a decimal numeral at the front of a text, and the rest. -/
def takeToken? (t : Text) : Option (Text × Text) :=
  match Text.takeIdent? t with
  | some token => some token
  | none => Text.takeNumber? t

/-- Whether the text behind a token does not go on with an identifier character. -/
def endsWord (token : Text × Text) : Bool := !token.2.head?.any isIdentPart

/-- The digits at the front of a text, and the rest. -/
def takeDigits? (t : Text) : Option (Text × Text) :=
  match t.takeWhile Char.isDigit with
  | [] => none
  | digits => some (digits, t.dropWhile Char.isDigit)

/-- A token at whose end a word ends too. A numeral whose fraction runs on into a letter gives
up the fraction. -/
def takeWholeToken? (t : Text) : Option (Text × Text) :=
  match Text.takeIdent? t with
  | some token => some token
  | none =>
    match (Text.takeNumber? t).filter endsWord with
    | some token => some token
    | none => (takeDigits? t).filter endsWord

/-- Recognises a division where a word begins. -/
def recognise : Recogniser (Text × Text) := fun prev t => do
  if prev.any isIdentPart then none
  let (numerator, t) ← takeToken? t
  let '/' :: t := Text.skipLayout t | none
  let (denominator, t) ← takeWholeToken? (Text.skipLayout t)
  return (some (numerator, denominator), t)

/-- Where the search for quotes in a line stands. -/
inductive QuoteState where
  /-- Outside quotes. -/
  | outside
  /-- In a span that `quote` opened at offset `start`. -/
  | inside (quote : Char) (start : Nat)
  /-- The same, behind a backslash. -/
  | escaped (quote : Char) (start : Nat)

/-- The offset of the `//` that makes the rest of a line a comment, if there is one outside
quotes, and the quoted spans before it. A quote that is not closed lasts to the end of the
line. -/
def exclusionsFrom : QuoteState → (pos : Nat) → Text → Option Nat × List (Nat × Nat)
  | .outside, _, [] => (none, [])
  | .inside _ start, pos, [] | .escaped _ start, pos, [] => (none, [(start, pos)])
  | .escaped quote start, pos, _ :: t => exclusionsFrom (.inside quote start) (pos + 1) t
  | .inside quote start, pos, c :: t =>
    if c = '\\' then exclusionsFrom (.escaped quote start) (pos + 1) t
    else if c = quote then
      let (comment, spans) := exclusionsFrom .outside (pos + 1) t
      (comment, (start, pos + 1) :: spans)
    else exclusionsFrom (.inside quote start) (pos + 1) t
  | .outside, pos, c :: t =>
    if c = '"' || c = '\'' then exclusionsFrom (.inside c pos) (pos + 1) t
    else if c = '/' && t.head? = some '/' then (some pos, [])
    else exclusionsFrom .outside (pos + 1) t

/-- The offset at which a line's comment starts, and the quoted spans of the line. -/
def exclusions (line : Text) : Option Nat × List (Nat × Nat) := exclusionsFrom .outside 0 line

/-- The divisions of a line that stand before its comment and begin outside its quotes. -/
def inLine (line : Text) : List (Occurrence (Text × Text)) :=
  let (comment, quoted) := exclusions line
  (Text.occurrences recognise line).filter fun o =>
    comment.all (o.start < ·) &&
      !quoted.any fun (start, stop) => start ≤ o.start && o.start < stop

/-- The finding of a division between two offsets. -/
def finding (ix : LineIndex) (start stop : Nat) (numerator denominator : Text) : Finding :=
  { location := ix.location start stop
    typeset := Fraction.typeset ⟨Typeset.escape numerator, Typeset.escape denominator⟩
    inlineText := Fraction.inlineText ⟨numerator, denominator⟩
    detail := .division numerator denominator }

/-- The divisions in a source. -/
def find (source masked : Text) : List Finding :=
  let ix := LineIndex.ofText source
  source.lines.flatMap fun (lineStart, line) =>
    (inLine line).filterMap fun o =>
      let start := lineStart + o.start
      let stop := lineStart + o.stop
      if Text.slice masked start stop = Text.slice source start stop then
        some (finding ix start stop o.value.1 o.value.2)
      else none

/-- The detector of divisions. -/
def detector : Detector where
  name := "division".toList
  run _ source masked := { findings := find source masked }

end Gloss.Division
