import Gloss.Text.Blank

/-!
# Words

Identifiers are ASCII: a letter or underscore followed by letters, digits and
underscores. This module classifies characters accordingly and takes the longest
identifier, digit run or decimal numeral off the front of a text.
-/

namespace Gloss

/-- An identifier begins with an ASCII letter or an underscore. -/
def isIdentStart (c : Char) : Bool := c.isAlpha || c = '_'

/-- An identifier goes on with ASCII letters, digits and underscores. -/
def isIdentPart (c : Char) : Bool := isIdentStart c || c.isDigit

/-- A token goes on over identifier characters and dots. -/
def isTokenPart (c : Char) : Bool := isIdentPart c || c = '.'

/-- An expression may begin with an identifier character, an opening bracket or a sign. -/
def isExprStart (c : Char) : Bool :=
  isIdentPart c || c = '(' || c = '{' || c = '[' || c = '+' || c = '-'

/-- A token ends where the text does, or before a character that no token contains. -/
def isTokenEdge (c : Option Char) : Bool := !c.any isTokenPart

/-- A word boundary lies between two characters of which exactly one is part of an
identifier; beyond the ends of a text there is none. -/
def isWordBoundary (prev next : Option Char) : Bool :=
  prev.any isIdentPart != next.any isIdentPart

namespace Text

/-- The identifier at the front of a text, as long as possible, and the rest. -/
def takeIdent? : Text → Option (Text × Text)
  | [] => none
  | c :: t =>
    if isIdentStart c then some (c :: t.takeWhile isIdentPart, t.dropWhile isIdentPart) else none

/-- The further segments of a dotted name behind its first identifier, and the rest. Around
each dot there may be characters that `gap` admits. No name has more segments than
characters, which bounds `fuel`. -/
def takeSegments (gap : Char → Bool) : (fuel : Nat) → Text → List Text × Text
  | 0, t => ([], t)
  | fuel + 1, t =>
    match t.dropWhile gap with
    | '.' :: u =>
      match takeIdent? (u.dropWhile gap) with
      | some (segment, rest) =>
        let (more, rest) := takeSegments gap fuel rest
        (segment :: more, rest)
      | none => ([], t)
    | _ => ([], t)

/-- The segments of the dotted name at the front of a text, and the rest. -/
def takeDotted? (gap : Char → Bool) (t : Text) : Option (List Text × Text) :=
  (takeIdent? t).map fun (segment, rest) =>
    let (more, rest) := takeSegments gap rest.length rest
    (segment :: more, rest)

/-- The decimal numeral at the front of a text, with its fraction if digits follow the
point, and the rest. -/
def takeNumber? (t : Text) : Option (Text × Text) :=
  match t.takeWhile Char.isDigit, t.dropWhile Char.isDigit with
  | [], _ => none
  | whole, '.' :: t =>
    match t.takeWhile Char.isDigit with
    | [] => some (whole, '.' :: t)
    | fraction => some (whole ++ '.' :: fraction, t.dropWhile Char.isDigit)
  | whole, rest => some (whole, rest)

/-- Whether a text holds ASCII digits only, and at least one of them. -/
def isDigits (t : Text) : Bool := !t.isEmpty && t.all Char.isDigit

/-- Whether a text is one identifier. -/
def isIdent (t : Text) : Bool :=
  match takeIdent? t with
  | some (_, []) => true
  | _ => false

/-- Whether a text is a dotted name: identifiers joined by single dots, nothing else. -/
def isDottedName (t : Text) : Bool := (splitAt '.' t).all isIdent

/-- Whether `word` occurs in a text with a word boundary at each of its ends; `prev` is
the character before the text. -/
def containsWord (word : Text) : (prev : Option Char) → Text → Bool
  | prev, [] => word.isEmpty && isWordBoundary prev none
  | prev, c :: t =>
    (match after? word (c :: t) with
      | some rest => isWordBoundary prev (some c) &&
          isWordBoundary ((word.getLast?).or prev) rest.head?
      | none => false)
    || containsWord word (some c) t

end Text

end Gloss
