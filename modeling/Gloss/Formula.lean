import Gloss.Expr.Typeset
import Gloss.Expr.Inline
import Gloss.Text.Word

/-!
# Formulas

What a finding shows: a fraction of two tokens, an expression, a power, a sum over a counting
loop, or the definition of a family of array elements. Each has a typeset and an inline form.
-/

namespace Gloss

namespace Inline

/-- The superscript form of an ASCII digit. -/
def superscriptDigit (c : Char) : Char :=
  (['\u2070', '\u00B9', '\u00B2', '\u00B3', '\u2074', '\u2075', '\u2076', '\u2077', '\u2078',
    '\u2079'][c.toNat - 48]?).getD c

/-- The subscript form of an ASCII digit. -/
def subscriptDigit (c : Char) : Char := Char.ofNat (0x2080 + (c.toNat - 48))

/-- A numeral in superscript digits; there is none for any other text. -/
def superscript? (t : Text) : Option Text :=
  if t.isDigits then some (t.map superscriptDigit) else none

/-- A numeral in subscript digits; there is none for any other text. -/
def subscript? (t : Text) : Option Text :=
  if t.isDigits then some (t.map subscriptDigit) else none

/-- The sign of a sum. -/
def sigma : Char := '\u03A3'

/-- The rule of a stacked fraction. -/
def rule : Char := '\u2500'

/-- A text between parentheses. -/
def parenthesized (t : Text) : Text := '(' :: t ++ [')']

/-- A text centred in a width; an odd blank goes to its left. -/
def centred (width : Nat) (t : Text) : Text :=
  let pad := width - t.length
  let left := (pad + 1) / 2
  List.replicate left ' ' ++ t ++ List.replicate (pad - left) ' '

end Inline

/-- A fraction of two tokens. -/
structure Fraction where
  /-- The token above the rule. -/
  numerator : Text
  /-- The token below the rule. -/
  denominator : Text
  deriving DecidableEq, Repr

namespace Fraction

/-- The typeset form, its tokens already escaped. -/
def typeset (f : Fraction) : Text := Typeset.fraction f.numerator f.denominator

/-- The inline form: two numerals become superscript and subscript digits, any other tokens
stay as they are. -/
def inlineText (f : Fraction) : Text :=
  match Inline.superscript? f.numerator, Inline.subscript? f.denominator with
  | some above, some below => above ++ Inline.fractionSlash :: below
  | _, _ => f.numerator ++ Inline.fractionSlash :: f.denominator

/-- The fraction on three lines, the tokens centred over and under a rule. -/
def stacked (f : Fraction) : Text :=
  let width := max (max f.numerator.length f.denominator.length) 1
  Text.join ['\n'] [Inline.centred width f.numerator, List.replicate width Inline.rule,
    Inline.centred width f.denominator]

end Fraction

/-- What a finding states about expressions. -/
inductive Formula where
  /-- An expression by itself. -/
  | value (e : Expr)
  /-- A base raised to an exponent. -/
  | power (base exponent : Expr)
  /-- A total that is the sum of a term for each value of the index between two bounds. -/
  | sum (total : Expr) (index : Text) (lower upper term : Expr)
  /-- Elements that are defined for each value of the index between two bounds. -/
  | family (element definition : Expr) (index : Text) (lower upper : Expr)
  deriving DecidableEq, Repr

namespace Formula

open Typeset in
/-- The typeset form of a formula. A base with an operator gets parentheses, so that the
exponent applies to all of it. -/
def typeset : Formula → Text
  | value e => e.typeset
  | power base exponent =>
    let shown := if base.hasOperator then parenthesized base.typeset else base.typeset
    braced shown ++ '^' :: braced exponent.typeset
  | sum total index lower upper term =>
    total.typeset ++ " = \\sum_".toList ++ braced (escape index ++ '=' :: lower.typeset) ++
      '^' :: braced upper.typeset ++ ' ' :: term.typeset
  | family element definition index lower upper =>
    element.typeset ++ " = ".toList ++ definition.typeset ++ ",\\quad ".toList ++ escape index ++
      " = ".toList ++ lower.typeset ++ ",\\ldots,".toList ++ upper.typeset

/-- An exponent in inline form: a numeral in superscript digits, all else behind a caret. -/
def inlineExponent (e : Expr) : Text :=
  let other := '^' :: Inline.parenthesized e.inlineText
  match e with
  | .number digits => (Inline.superscript? digits).getD other
  | _ => other

/-- The inline form of a formula. A base with an operator gets parentheses. -/
def inlineText : Formula → Text
  | value e => e.inlineText
  | power base exponent =>
    let shown := if base.hasOperator then Inline.parenthesized base.inlineText else base.inlineText
    shown ++ inlineExponent exponent
  | sum total index lower upper term =>
    total.inlineText ++ " = ".toList ++ Inline.sigma :: '_' :: index ++ '=' :: lower.inlineText ++
      "..".toList ++ upper.inlineText ++ ' ' :: term.inlineText
  | family element definition index lower upper =>
    element.inlineText ++ " = ".toList ++ definition.inlineText ++ "  (".toList ++ index ++
      '=' :: lower.inlineText ++ "..".toList ++ upper.inlineText ++ [')']

end Formula

end Gloss
