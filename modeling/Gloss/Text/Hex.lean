import Gloss.Text.Basic

/-!
# Hexadecimal numerals

Numerals of a fixed number of lower-case hexadecimal digits.
-/

namespace Gloss.Text

/-- The hexadecimal digit of a number below sixteen. -/
def hexDigit (n : Nat) : Char := if n < 10 then Char.ofNat (48 + n) else Char.ofNat (87 + n)

/-- The lowest `count` hexadecimal digits of a number. -/
def ofHex (n : Nat) : (count : Nat) → Text
  | 0 => []
  | count + 1 => ofHex (n / 16) count ++ [hexDigit (n % 16)]

end Gloss.Text
