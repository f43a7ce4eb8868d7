import Gloss.Json.Basic
import Gloss.Text.Hex
import Gloss.Text.Utf16

/-!
# Writing interchange texts

The written form is ASCII: every other character of a string is escaped by its UTF-16 code
units in four lower-case hexadecimal digits. Members come in the order of their keys. Without
an indent all stands on one line, with a blank behind each comma and colon; with one, each
item has its own line, indented once more per level, and empty arrays and objects stay closed.

Every value has a written form: numerals may have any number of digits and values may be nested
to any depth. The bounds that a host puts on either (4300 digits for the conversion between
numbers and numerals, a recursion limit for nested values) are not part of this description.
-/

namespace Gloss.Json

/-- The escape of a code unit. -/
def unitEscape (u : Nat) : Text := '\\' :: 'u' :: Text.ofHex u 4

/-- How a character stands in a string. -/
def quoteChar (c : Char) : Text :=
  if c = '"' then ['\\', '"']
  else if c = '\\' then ['\\', '\\']
  else if c = '\n' then ['\\', 'n']
  else if c = '\r' then ['\\', 'r']
  else if c = '\t' then ['\\', 't']
  else if c = '\x08' then ['\\', 'b']
  else if c = '\x0c' then ['\\', 'f']
  else if 0x20 ≤ c.toNat && c.toNat ≤ 0x7E then [c]
  else (Utf16.encode c).flatMap unitEscape

/-- A string in double quotes. -/
def quote (t : Text) : Text := '"' :: t.flatMap quoteChar ++ ['"']

/-- What separates items and surrounds them, at a nesting level. -/
structure Layout where
  /-- Blanks per level; with none all stands on one line. -/
  indent : Option Nat

namespace Layout

/-- The start of a new line at a level; nothing on a single line. -/
def lineStart (l : Layout) (level : Nat) : Text :=
  match l.indent with
  | none => []
  | some n => '\n' :: List.replicate (n * level) ' '

/-- What stands between two items of a level. -/
def separator (l : Layout) (level : Nat) : Text :=
  match l.indent with
  | none => [',', ' ']
  | some _ => ',' :: l.lineStart level

/-- Written items between brackets; `level` is that of the brackets. -/
def enclose (l : Layout) (level : Nat) (opener closer : Char) (items : List Text) : Text :=
  if items.isEmpty then [opener, closer]
  else opener :: l.lineStart (level + 1) ++ Text.join (l.separator (level + 1)) items ++
    l.lineStart level ++ [closer]

end Layout

mutual

/-- A value as it stands at a nesting level. -/
def writeAt (l : Layout) (level : Nat) : Json → Text
  | null => "null".toList
  | bool true => "true".toList
  | bool false => "false".toList
  | int n => Text.ofInt n
  | real numeral => numeral
  | str t => quote t
  | arr items => l.enclose level '[' ']' (writeItems l (level + 1) items)
  | obj members => l.enclose level '{' '}' (writeMembers l (level + 1) members)

/-- The items of an array as they stand at a nesting level. -/
def writeItems (l : Layout) (level : Nat) : List Json → List Text
  | [] => []
  | j :: js => writeAt l level j :: writeItems l level js

/-- The members of an object as they stand at a nesting level. -/
def writeMembers (l : Layout) (level : Nat) : List (Text × Json) → List Text
  | [] => []
  | (key, j) :: more => (quote key ++ [':', ' '] ++ writeAt l level j) :: writeMembers l level more

end

/-- The written form of a value. -/
def write (indent : Option Nat) (j : Json) : Text := writeAt ⟨indent⟩ 0 j

end Gloss.Json
