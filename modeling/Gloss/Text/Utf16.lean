import Gloss.Text.Basic

/-!
# UTF-16

The escapes of interchange texts name UTF-16 code units, not code points. A character of the
basic plane is one unit; any other is a high surrogate followed by a low one. Reading joins
such pairs again and refuses a surrogate that stands alone.
-/

namespace Gloss.Utf16

/-- The first code unit of the high surrogates. -/
def highStart : Nat := 0xD800

/-- The first code unit of the low surrogates. -/
def lowStart : Nat := 0xDC00

/-- A high surrogate opens a pair. -/
def isHigh (u : Nat) : Bool := highStart ≤ u && u < lowStart

/-- A low surrogate ends a pair. -/
def isLow (u : Nat) : Bool := lowStart ≤ u && u < 0xE000

/-- The code units of a character. -/
def encode (c : Char) : List Nat :=
  let n := c.toNat
  if n < 0x10000 then [n]
  else [highStart + (n - 0x10000) / 0x400, lowStart + (n - 0x10000) % 0x400]

/-- The code point of a surrogate pair. -/
def joinPair (high low : Nat) : Nat := 0x10000 + (high - highStart) * 0x400 + (low - lowStart)

/-- The text that code units spell; code points beyond the basic plane may stand for
themselves. There is none where a surrogate has no partner. -/
def decode? : List Nat → Option Text
  | [] => some []
  | u :: us =>
    if isHigh u then
      match us with
      | v :: vs =>
        if isLow v then (decode? vs).map fun t => Char.ofNat (joinPair u v) :: t else none
      | [] => none
    else if isLow u then none
    else (decode? us).map fun t => Char.ofNat u :: t

end Gloss.Utf16
