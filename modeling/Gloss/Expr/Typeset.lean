import Gloss.Expr.Basic

/-!
# Typeset form

The markup of an expression for a mathematics typesetter: a division is a fraction, a product
has a centred dot, and parentheses are added only where precedence asks for them. Names,
numbers and raw text are escaped character by character.
-/

namespace Gloss

namespace Typeset

/-- The escape of one character, for those that the markup reserves. -/
def escapeChar (c : Char) : Text :=
  if c = '\\' then "\\textbackslash\x7b\x7d".toList
  else if c = '^' then "\\^\x7b\x7d".toList
  else if c ∈ ['{', '}', '_', '%', '$', '#', '&'] then ['\\', c]
  else [c]

/-- A text with the reserved characters escaped. -/
def escape (t : Text) : Text := t.flatMap escapeChar

/-- Braces that group markup without being shown. -/
def braced (t : Text) : Text := '{' :: t ++ ['}']

/-- Parentheses that grow with what they enclose. -/
def parenthesized (t : Text) : Text := "\\left(".toList ++ t ++ "\\right)".toList

/-- Curly brackets that grow with what they enclose. -/
def curly (t : Text) : Text := "\\left\\\x7b".toList ++ t ++ "\\right\\\x7d".toList

/-- A fraction. -/
def fraction (numerator denominator : Text) : Text :=
  "\\frac".toList ++ braced numerator ++ braced denominator

/-- Items with commas between them. -/
def commaSeparated (items : List Text) : Text := Text.join [',', ' '] items

/-- The keyword of a construction. -/
def newKeyword : Text := "\\operatorname\x7bnew\x7d\\,".toList

end Typeset

namespace Operator

/-- The typeset symbol of an operator. -/
def typeset : Operator → Text
  | mul => "\\cdot".toList
  | op => op.symbol

end Operator

namespace Expr

open Typeset

/-- Encloses a rendered operand in parentheses if its root binds more loosely than `least`. -/
def guarded (least : Nat) (e : Expr) (rendered : Text) : Text :=
  if e.precedence < least then parenthesized rendered else rendered

/-- Whether an expression is an element of an object. -/
def isIndex : Expr → Bool
  | index .. => true
  | _ => false

mutual

/-- The typeset form of an expression. A right operand of equal precedence needs parentheses,
since chains associate to the left. -/
def typeset : Expr → Text
  | number digits => escape digits
  | identifier name => escape name
  | raw text => "\\text".toList ++ braced (escape text)
  | group .paren e => parenthesized e.typeset
  | group .brace e => curly e.typeset
  | unary sign e => sign.symbol ++ guarded 30 e e.typeset
  | binary .div l r => fraction l.typeset r.typeset
  | binary op l r =>
    let level := if op.isAdditive then 10 else 20
    guarded level l l.typeset ++ [' '] ++ op.typeset ++ [' '] ++ guarded (level + 1) r r.typeset
  | member e name => e.typeset ++ '.' :: escape name
  | index e s => (if e.isIndex then braced e.typeset else e.typeset) ++ '_' :: braced s.typeset
  | call f args => f.typeset ++ parenthesized (commaSeparated (typesets args))
  | construct type => newKeyword ++ type.typeset
  | constructWith type args =>
    newKeyword ++ type.typeset ++ parenthesized (commaSeparated (typesets args))

/-- The typeset forms of several expressions. -/
def typesets : List Expr → List Text
  | [] => []
  | e :: es => e.typeset :: typesets es

end

end Expr

end Gloss
