import Gloss.Expr.Basic

/-!
# Inline form

The compact form of an expression for display beside its source line: operators become
single characters, blanks go, and exactly the brackets of the source stay.
-/

namespace Gloss

namespace Inline

/-- The centred dot that stands for a multiplication. -/
def middleDot : Char := '\u00B7'

/-- The fraction slash that stands for a division. -/
def fractionSlash : Char := '\u2044'

/-- Items with commas between them. -/
def commaSeparated (items : List Text) : Text := Text.join [','] items

end Inline

namespace Operator

/-- The inline symbol of an operator. -/
def inlineText : Operator → Text
  | mul => [Inline.middleDot]
  | div => [Inline.fractionSlash]
  | op => op.symbol

end Operator

namespace Expr

open Inline

mutual

/-- The inline form of an expression. -/
def inlineText : Expr → Text
  | number digits => digits
  | identifier name => name
  | raw text => text
  | group fence e => fence.bracket.opener :: e.inlineText ++ [fence.bracket.closer]
  | unary sign e => sign.symbol ++ e.inlineText
  | binary op l r => l.inlineText ++ op.inlineText ++ r.inlineText
  | member e name => e.inlineText ++ '.' :: name
  | index e s => e.inlineText ++ '[' :: s.inlineText ++ [']']
  | call f args => f.inlineText ++ '(' :: commaSeparated (inlineTexts args) ++ [')']
  | construct type => "new ".toList ++ type.inlineText
  | constructWith type args =>
    "new ".toList ++ type.inlineText ++ '(' :: commaSeparated (inlineTexts args) ++ [')']

/-- The inline forms of several expressions. -/
def inlineTexts : List Expr → List Text
  | [] => []
  | e :: es => e.inlineText :: inlineTexts es

end

end Expr

end Gloss
