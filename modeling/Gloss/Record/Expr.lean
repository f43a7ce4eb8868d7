import Gloss.Expr.Inline
import Gloss.Expr.Typeset
import Gloss.Formula
import Gloss.Record.Basic

/-!
# Expressions as records

Every expression is a value. A value is an expression only if it is a node and so is every
operand in it; else reading it fails at the first operand that is none, in the order in which
operands are rendered. The inline form knows four operators only, so a reading for it also
fails at any other one, between the left and the right operand.

Values may be nested to any depth: a host's recursion limit, which would end the rendering of a
very deep one, is not part of this description.
-/

namespace Gloss

/-- A text as a value. -/
def Value.text (t : Text) : Value := .plain (.str t)

namespace Expr

/-- The record of a fence. -/
def fenceValue (fence : Fence) : Value := .text [fence.bracket.opener]

mutual

/-- An expression as a value. -/
def toValue : Expr → Value
  | number digits => .record .number [.text digits]
  | identifier name => .record .identifier [.text name]
  | raw text => .record .raw [.text text]
  | group fence e => .record .group [fenceValue fence, e.toValue]
  | unary sign e => .record .unary [.text sign.symbol, e.toValue]
  | binary op l r => .record .binary [.text op.symbol, l.toValue, r.toValue]
  | member e name => .record .member [e.toValue, .text name]
  | index e s => .record .index [e.toValue, s.toValue]
  | call f args => .record .call [f.toValue, .tuple (toValues args)]
  | construct type => .record .construct [type.toValue, .plain .null]
  | constructWith type args => .record .construct [type.toValue, .tuple (toValues args)]

/-- Expressions as values. -/
def toValues : List Expr → List Value
  | [] => []
  | e :: es => e.toValue :: toValues es

end

end Expr

namespace Value

/-- The two forms in which an expression can be shown. -/
inductive Form where
  /-- Markup for a typesetter. -/
  | typeset
  /-- Compact text. -/
  | inline
  deriving DecidableEq, Repr

/-- Why a value has no form. -/
inductive RenderError where
  /-- An operand is not a node. -/
  | notANode (form : Form) (typeName : Text)
  /-- The inline form has no sign for an operator. -/
  | unknownOperator (symbol : Text)
  /-- A field has the wrong type. -/
  | wrongType
  deriving DecidableEq, Repr

/-- The message about an operand that is not a node. -/
def RenderError.message : RenderError → Text
  | notANode .typeset typeName =>
    "Cannot typeset '".toList ++ typeName ++ "': not an Expr node".toList
  | notANode .inline typeName =>
    "Cannot render '".toList ++ typeName ++ "' inline: not an Expr node".toList
  | unknownOperator symbol => symbol
  | wrongType => []

/-- A field that has to be text. -/
def asText : Value → Except RenderError Text
  | plain (.str t) => .ok t
  | _ => .error .wrongType

/-- The fence that a field names; whatever is no brace counts as a parenthesis. -/
def asFence (v : Value) : Fence := if v = text ['{'] then .brace else .paren

/-- The operator that a field names. The inline form admits no other ones. -/
def asOperator (form : Form) (v : Value) : Except RenderError Operator := do
  let symbol ← asText v
  match form, Operator.ofSymbol symbol with
  | .inline, .other symbol => .error (.unknownOperator symbol)
  | _, op => return op

/-- The error of arguments that are no tuple, unless they amount to none. -/
def looseArgs (form : Form) (json : Json) : Except RenderError (List Expr) :=
  match json, looseItems json with
  | .str _, [] | .arr _, [] | .obj _, [] => .ok []
  | _, v :: _ => .error (.notANode form v.typeName)
  | _, [] => .error .wrongType

mutual

/-- The expression that a value is, for showing it in one form. -/
def toExpr (form : Form) : Value → Except RenderError Expr
  | record .number [t] => do return .number (← asText t)
  | record .identifier [t] => do return .identifier (← asText t)
  | record .raw [t] => do return .raw (← asText t)
  | record .group [b, e] => do return .group (asFence b) (← e.toExpr form)
  | record .unary [s, e] => do
    let e ← e.toExpr form
    return .unary (Sign.ofSymbol (← asText s)) e
  | record .binary [o, l, r] => do
    let l ← l.toExpr form
    let op ← asOperator form o
    let r ← r.toExpr form
    return .binary op l r
  | record .member [e, n] => do
    let e ← e.toExpr form
    return .member e (← asText n)
  | record .index [e, s] => do
    let e ← e.toExpr form
    let s ← s.toExpr form
    return .index e s
  | record .call [f, tuple args] => do
    let f ← f.toExpr form
    return .call f (← toExprs form args)
  | record .call [f, plain args] => do
    let f ← f.toExpr form
    return .call f (← looseArgs form args)
  | record .call [f, _] => do
    let _ ← f.toExpr form
    .error .wrongType
  | record .construct [f, tuple args] => do
    let f ← f.toExpr form
    return .constructWith f (← toExprs form args)
  | record .construct [f, plain .null] => do return .construct (← f.toExpr form)
  | record .construct [f, plain args] => do
    let f ← f.toExpr form
    return .constructWith f (← looseArgs form args)
  | record .construct [f, _] => do
    let _ ← f.toExpr form
    .error .wrongType
  | v => if v.isNode then .error .wrongType else .error (.notANode form v.typeName)

/-- The expressions that values are, in order. -/
def toExprs (form : Form) : List Value → Except RenderError (List Expr)
  | [] => .ok []
  | v :: vs => do return (← v.toExpr form) :: (← toExprs form vs)

end

/-- An expression in one of its forms. -/
def Form.show : Form → Formula → Text
  | typeset, f => f.typeset
  | inline, f => f.inlineText

/-- A value in one form. -/
def render (form : Form) (v : Value) : Except RenderError Text := do
  return form.show (.value (← v.toExpr form))

/-- A power of values in one form. -/
def renderPower (form : Form) (base exponent : Value) : Except RenderError Text := do
  let base ← base.toExpr form
  return form.show (.power base (← exponent.toExpr form))

/-- A sum over values in one form. -/
def renderSum (form : Form) (total : Value) (index : Text) (lower upper term : Value) :
    Except RenderError Text := do
  let total ← total.toExpr form
  let lower ← lower.toExpr form
  let upper ← upper.toExpr form
  return form.show (.sum total index lower upper (← term.toExpr form))

/-- A family of values in one form. -/
def renderFamily (form : Form) (element definition : Value) (index : Text) (lower upper : Value) :
    Except RenderError Text := do
  let element ← element.toExpr form
  let definition ← definition.toExpr form
  let lower ← lower.toExpr form
  return form.show (.family element definition index lower (← upper.toExpr form))

end Value

end Gloss
