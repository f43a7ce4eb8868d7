import Gloss.Json.Basic
import Gloss.Text.Hex
import Gloss.Text.Printable

/-!
# Literals in messages

Messages and fingerprints show values as literals: strings in single quotes, or in double
quotes if the string holds a single quote and no double one; truth values and nothing spelled
`True`, `False` and `None`; lists in square brackets. Characters that are not printable are
escaped by their code points. A number with a fraction or an exponent is shown as the numeral
that it was written with, not as the shortest one of its value.
-/

namespace Gloss.Json

/-- How a character stands in a literal enclosed by `mark`. -/
def literalChar (mark c : Char) : Text :=
  if c = mark || c = '\\' then ['\\', c]
  else if c = '\n' then ['\\', 'n']
  else if c = '\r' then ['\\', 'r']
  else if c = '\t' then ['\\', 't']
  else if isPrintable c then [c]
  else if c.toNat < 0x100 then '\\' :: 'x' :: Text.ofHex c.toNat 2
  else if c.toNat < 0x10000 then '\\' :: 'u' :: Text.ofHex c.toNat 4
  else '\\' :: 'U' :: Text.ofHex c.toNat 8

/-- The literal of a string. -/
def literalText (t : Text) : Text :=
  let mark := if '\'' ∈ t && !('"' ∈ t) then '"' else '\''
  mark :: t.flatMap (literalChar mark) ++ [mark]

/-- Literals with commas between them. -/
def commaList (literals : List Text) : Text := Text.join [',', ' '] literals

mutual

/-- The literal of a value. -/
def literal : Json → Text
  | null => "None".toList
  | bool true => "True".toList
  | bool false => "False".toList
  | int n => Text.ofInt n
  | real numeral => numeral
  | str t => literalText t
  | arr items => '[' :: commaList (literalItems items) ++ [']']
  | obj members => '{' :: commaList (literalMembers members) ++ ['}']

/-- The literals of items. -/
def literalItems : List Json → List Text
  | [] => []
  | j :: js => j.literal :: literalItems js

/-- The literals of members. -/
def literalMembers : List (Text × Json) → List Text
  | [] => []
  | (key, j) :: more => (literalText key ++ [':', ' '] ++ j.literal) :: literalMembers more

end

/-- The plain spelling of a value: a string as it is, all else as its literal. -/
def plainText : Json → Text
  | str t => t
  | j => j.literal

end Gloss.Json
