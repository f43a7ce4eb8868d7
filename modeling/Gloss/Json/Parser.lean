import Gloss.Json.Basic
import Gloss.Text.Utf16

/-!
# Reading interchange texts

The strict grammar: no comments, no trailing commas, no raw control characters in strings, and
nothing but the four JSON blanks around tokens. Escapes are read as UTF-16 code units and
joined afterwards, so a surrogate pair may be written as two escapes. Where a key occurs twice
the later member counts.

`fuel` bounds the calls of the rules on one another; each pair of calls reads a character, so
twice the length of the text is enough.

Nothing else bounds what is read: numerals of any number of digits and values nested to any
depth are accepted. The bounds that a host puts on either (4300 digits for the conversion
between numbers and numerals, a recursion limit for nested values) are not part of this
description.
-/

namespace Gloss.Json

/-- The four characters that may stand between tokens. -/
def isGap (c : Char) : Bool := c = ' ' || c = '\t' || c = '\n' || c = '\r'

/-- Skips what may stand between tokens. -/
def skipGap (t : Text) : Text := t.dropWhile isGap

/-- The value of a hexadecimal digit of either case. -/
def hexValue? (c : Char) : Option Nat :=
  if c.isDigit then some (c.toNat - 48)
  else if 'a' ≤ c && c ≤ 'f' then some (c.toNat - 87)
  else if 'A' ≤ c && c ≤ 'F' then some (c.toNat - 55)
  else none

/-- The code unit that four hexadecimal digits name. -/
def hexUnit? (a b c d : Char) : Option Nat := do
  let a ← hexValue? a
  let b ← hexValue? b
  let c ← hexValue? c
  let d ← hexValue? d
  return ((a * 16 + b) * 16 + c) * 16 + d

/-- The character that a one-letter escape stands for. -/
def shortEscape? : Char → Option Char
  | '"' => some '"'
  | '\\' => some '\\'
  | '/' => some '/'
  | 'b' => some '\x08'
  | 'f' => some '\x0c'
  | 'n' => some '\n'
  | 'r' => some '\r'
  | 't' => some '\t'
  | _ => none

/-- The code units of a string from behind its opening quote, and what follows the closing
one. -/
def takeUnits? : Text → Option (List Nat × Text)
  | '"' :: t => some ([], t)
  | '\\' :: 'u' :: a :: b :: c :: d :: t => do
    let u ← hexUnit? a b c d
    let (us, rest) ← takeUnits? t
    return (u :: us, rest)
  | '\\' :: e :: t => do
    let c ← shortEscape? e
    let (us, rest) ← takeUnits? t
    return (c.toNat :: us, rest)
  | c :: t =>
    if c.toNat < 0x20 || c = '\\' then none
    else (takeUnits? t).map fun (us, rest) => (c.toNat :: us, rest)
  | [] => none

/-- A string from behind its opening quote, and what follows the closing one. -/
def takeString? (t : Text) : Option (Text × Text) := do
  let (us, rest) ← takeUnits? t
  let s ← Utf16.decode? us
  return (s, rest)

/-- The digits in front of a number's fraction: a zero alone, or digits that begin with
another. -/
def takeWhole? : Text → Option (Text × Text)
  | '0' :: t => some (['0'], t)
  | c :: t =>
    if c.isDigit then some (c :: t.takeWhile Char.isDigit, t.dropWhile Char.isDigit) else none
  | [] => none

/-- The fraction of a number, with its point; empty where no digit follows a point. -/
def takeFraction : Text → Text × Text
  | '.' :: t =>
    match t.takeWhile Char.isDigit with
    | [] => ([], '.' :: t)
    | digits => ('.' :: digits, t.dropWhile Char.isDigit)
  | t => ([], t)

/-- The exponent of a number, with its mark; empty where no digit follows. -/
def takeExponent (t : Text) : Text × Text :=
  match t with
  | e :: u =>
    if e = 'e' || e = 'E' then
      let (sign, v) := match u with
        | '+' :: v => (['+'], v)
        | '-' :: v => (['-'], v)
        | v => ([], v)
      match v.takeWhile Char.isDigit with
      | [] => ([], t)
      | digits => (e :: sign ++ digits, v.dropWhile Char.isDigit)
    else ([], t)
  | [] => ([], t)

/-- The number at the front of a text, and the rest. -/
def takeNumber? (t : Text) : Option (Json × Text) := do
  let (negative, t) := match t with
    | '-' :: u => (true, u)
    | _ => (false, t)
  let (whole, t) ← takeWhole? t
  let (fraction, t) := takeFraction t
  let (exponent, t) := takeExponent t
  if fraction.isEmpty && exponent.isEmpty then
    let n := Nat.ofDigitChars 10 whole 0
    return (int (if negative then -n else n), t)
  else
    return (real ((if negative then ['-'] else []) ++ whole ++ fraction ++ exponent), t)

mutual

/-- The value at the front of a text without leading gap, and the rest. -/
def takeValue? : (fuel : Nat) → Text → Option (Json × Text)
  | 0, _ => none
  | fuel + 1, t =>
    match t with
    | 'n' :: 'u' :: 'l' :: 'l' :: rest => some (null, rest)
    | 't' :: 'r' :: 'u' :: 'e' :: rest => some (bool true, rest)
    | 'f' :: 'a' :: 'l' :: 's' :: 'e' :: rest => some (bool false, rest)
    | '"' :: u => (takeString? u).map fun (s, rest) => (str s, rest)
    | '[' :: u =>
      match skipGap u with
      | ']' :: rest => some (arr [], rest)
      | v => (takeItems? fuel v).map fun (items, rest) => (arr items, rest)
    | '{' :: u =>
      match skipGap u with
      | '}' :: rest => some (obj [], rest)
      | v => (takeMembers? fuel v).map fun (members, rest) => (ofMembers members, rest)
    | _ => takeNumber? t

/-- The items of an array up to its closing bracket, at least one. -/
def takeItems? : (fuel : Nat) → Text → Option (List Json × Text)
  | 0, _ => none
  | fuel + 1, t => do
    let (j, rest) ← takeValue? fuel t
    match skipGap rest with
    | ',' :: u =>
      let (js, rest) ← takeItems? fuel (skipGap u)
      return (j :: js, rest)
    | ']' :: rest => return ([j], rest)
    | _ => none

/-- The members of an object up to its closing bracket, at least one, in written order. -/
def takeMembers? : (fuel : Nat) → Text → Option (List (Text × Json) × Text)
  | 0, _ => none
  | fuel + 1, t => do
    let '"' :: u := t | none
    let (key, rest) ← takeString? u
    let ':' :: v := skipGap rest | none
    let (j, rest) ← takeValue? fuel (skipGap v)
    match skipGap rest with
    | ',' :: u =>
      let (more, rest) ← takeMembers? fuel (skipGap u)
      return ((key, j) :: more, rest)
    | '}' :: rest => return ([(key, j)], rest)
    | _ => none

end

/-- The value that a whole text denotes, if it is an interchange text. -/
def parse? (t : Text) : Option Json :=
  match takeValue? (2 * t.length + 2) (skipGap t) with
  | some (j, rest) => if (skipGap rest).isEmpty then some j else none
  | none => none

end Gloss.Json
