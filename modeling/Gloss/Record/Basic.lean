import Gloss.Json.Basic

/-!
# Records

Expressions, findings and locations are exchanged as JSON objects that name their type. A
record type lists its fields in order, with the value that a missing one defaults to, if any.

The fields of a record that comes from outside may hold anything: a value is a record, a tuple
of values, or plain JSON. Nothing is checked but the type name and the presence of fields.
-/

namespace Gloss

/-- The types of records. -/
inductive RecordType where
  /-- A numeral. -/
  | number
  /-- A name. -/
  | identifier
  /-- Text without structure. -/
  | raw
  /-- An expression in brackets. -/
  | group
  /-- A signed operand. -/
  | unary
  /-- Two operands and an operator. -/
  | binary
  /-- A selection from an object. -/
  | member
  /-- An element of an object. -/
  | index
  /-- A call. -/
  | call
  /-- A construction. -/
  | construct
  /-- The finding of a division. -/
  | divisionMatch
  /-- The finding of a power. -/
  | powerMatch
  /-- The finding of an expression. -/
  | expressionMatch
  /-- The finding of a sum. -/
  | summationMatch
  /-- The finding of a family. -/
  | mappingMatch
  /-- A location. -/
  | sourceLocation
  deriving DecidableEq, Repr

namespace RecordType

/-- All record types. -/
def all : List RecordType :=
  [number, identifier, raw, group, unary, binary, member, index, call, construct, divisionMatch,
    powerMatch, expressionMatch, summationMatch, mappingMatch, sourceLocation]

/-- The name of a type in its records. -/
def name : RecordType → Text
  | number => "Number".toList
  | identifier => "Identifier".toList
  | raw => "Raw".toList
  | group => "Group".toList
  | unary => "Unary".toList
  | binary => "Binary".toList
  | member => "Member".toList
  | index => "Index".toList
  | call => "Call".toList
  | construct => "Construct".toList
  | divisionMatch => "DivisionMatch".toList
  | powerMatch => "PowerMatch".toList
  | expressionMatch => "ExpressionMatch".toList
  | summationMatch => "SummationMatch".toList
  | mappingMatch => "MappingMatch".toList
  | sourceLocation => "SourceLocation".toList

/-- The type of a name. -/
def ofName? (name : Text) : Option RecordType := all.find? fun r => r.name = name

/-- Whether records of a type are expressions. -/
def isNode : RecordType → Bool
  | number | identifier | raw | group | unary | binary | member | index | call | construct => true
  | _ => false

/-- Fields that have to be present. -/
def required (names : List String) : List (Text × Option Json) :=
  names.map fun name => (name.toList, none)

/-- The fields of all findings. -/
def findingFields (names : List String) : List (Text × Option Json) :=
  required (["location", "typeset", "inline_text"] ++ names)

/-- The fields of a type in order, with their defaults. -/
def fields : RecordType → List (Text × Option Json)
  | number => required ["value"]
  | identifier => required ["name"]
  | raw => required ["text"]
  | group => required ["bracket", "expr"]
  | unary => required ["op", "expr"]
  | binary => required ["op", "left", "right"]
  | member => required ["object", "member"]
  | index => required ["object", "index"]
  | call => required ["callee", "args"]
  | construct => required ["ctor", "args"]
  | divisionMatch => findingFields ["numerator", "denominator"]
  | powerMatch => findingFields ["callee", "base", "exponent"]
  | expressionMatch => findingFields ["text"]
  | summationMatch => findingFields ["index", "lower", "upper", "accumulator", "term"]
  | mappingMatch => findingFields ["index", "lower", "upper", "array", "index_expr", "value"]
  | sourceLocation => required ["lineno", "col_offset"] ++
      [("offset".toList, some (.int 0)), ("end_offset".toList, some (.int 0)),
        ("end_lineno".toList, some .null), ("end_col_offset".toList, some .null)]

end RecordType

/-- A value that is exchanged. -/
inductive Value where
  /-- JSON that is kept as it is. -/
  | plain (json : Json)
  /-- Several values. -/
  | tuple (items : List Value)
  /-- A record; its fields stand in the order of its type. -/
  | record (type : RecordType) (fields : List Value)
  deriving Repr

/-- The name of the type of a JSON value. -/
def Json.typeName : Json → Text
  | null => "NoneType".toList
  | bool _ => "bool".toList
  | int _ => "int".toList
  | real _ => "float".toList
  | str _ => "str".toList
  | arr _ => "list".toList
  | obj _ => "dict".toList

/-- Whether a JSON value has parts: characters, items or members. -/
def Json.hasParts : Json → Bool
  | str _ | arr _ | obj _ => true
  | _ => false

namespace Value

/-- The name of the type of a value. -/
def typeName : Value → Text
  | plain json => json.typeName
  | tuple _ => "tuple".toList
  | record type _ => type.name

/-- Whether a value is an expression at its root. -/
def isNode : Value → Bool
  | record type _ => type.isNode
  | _ => false

mutual

/-- Structural equality of values. -/
def beq : Value → Value → Bool
  | plain a, plain b => a == b
  | tuple as, tuple bs => beqs as bs
  | record r as, record s bs => r == s && beqs as bs
  | _, _ => false

/-- Structural equality of lists of values. -/
def beqs : List Value → List Value → Bool
  | [], [] => true
  | a :: as, b :: bs => a.beq b && beqs as bs
  | _, _ => false

end

mutual

/-- Structural equality is equality. -/
theorem beq_iff : (a b : Value) → (a.beq b = true ↔ a = b)
  | plain a, b => by cases b <;> simp [beq]
  | tuple as, b => by cases b <;> simp [beq, beqs_iff as]
  | record r as, b => by cases b <;> simp [beq, beqs_iff as]

/-- Structural equality of lists is equality. -/
theorem beqs_iff : (as bs : List Value) → (beqs as bs = true ↔ as = bs)
  | [], bs => by cases bs <;> simp [beqs]
  | a :: as, bs => by cases bs <;> simp [beqs, beq_iff a, beqs_iff as]

end

instance : DecidableEq Value := fun a b => decidable_of_iff _ (beq_iff a b)

/-- The values that are visited directly below an expression: its operands, in source order.
Arguments that are not a tuple count as their parts, which for a text are its characters and
for an object its keys. -/
def looseItems : Json → List Value
  | .str t => t.map fun c => plain (.str [c])
  | .arr items => items.map plain
  | .obj members => members.map fun (key, _) => plain (.str key)
  | _ => []

/-- The operands of an expression, in source order. -/
def children : Value → List Value
  | record .group [_, e] | record .unary [_, e] | record .member [e, _] => [e]
  | record .binary [_, l, r] | record .index [l, r] => [l, r]
  | record .call [f, tuple args] | record .construct [f, tuple args] => f :: args
  | record .call [f, plain args] | record .construct [f, plain args] => f :: looseItems args
  | record .call [f, _] | record .construct [f, _] => [f]
  | _ => []

/-- Whether the operands of a value can be listed: arguments are several values or JSON with
parts; those of a construction may also count as off. -/
def hasOperands : Value → Bool
  | record .call [_, tuple _] | record .construct [_, tuple _] => true
  | record .call [_, plain args] => args.hasParts
  | record .construct [_, plain args] => args.hasParts || !args.isOn
  | record .call [_, _] | record .construct [_, _] => false
  | _ => true

mutual

/-- A value and all below it, each before what is below it. -/
def walk : Value → List Value
  | record .group [b, e] => record .group [b, e] :: e.walk
  | record .unary [s, e] => record .unary [s, e] :: e.walk
  | record .member [e, n] => record .member [e, n] :: e.walk
  | record .binary [o, l, r] => record .binary [o, l, r] :: (l.walk ++ r.walk)
  | record .index [l, r] => record .index [l, r] :: (l.walk ++ r.walk)
  | record .call [f, tuple args] => record .call [f, tuple args] :: (f.walk ++ walks args)
  | record .call [f, plain args] => record .call [f, plain args] :: (f.walk ++ looseItems args)
  | record .call [f, a] => record .call [f, a] :: f.walk
  | record .construct [f, tuple args] => record .construct [f, tuple args] :: (f.walk ++ walks args)
  | record .construct [f, plain args] =>
    record .construct [f, plain args] :: (f.walk ++ looseItems args)
  | record .construct [f, a] => record .construct [f, a] :: f.walk
  | v => [v]

/-- All values below several, in order. -/
def walks : List Value → List Value
  | [] => []
  | v :: vs => v.walk ++ walks vs

end

/-- Whether a value is two operands and an operator. -/
def isBinary : Value → Bool
  | record .binary _ => true
  | _ => false

/-- Whether the operands of every value below a value can be listed. -/
def isWalkable (v : Value) : Bool := v.walk.all hasOperands

/-- Whether two operands are joined anywhere in a value. -/
def hasOperator (v : Value) : Bool := v.walk.any isBinary

end Value

end Gloss
