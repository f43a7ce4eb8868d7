import Gloss.Finding
import Gloss.Record.Expr

/-!
# Findings as records

A finding and its location are records whose fields are texts and numbers. Reading refuses a
record whose fields are not of the types that findings have.
-/

namespace Gloss

/-- A number as a value. -/
def Value.int (n : Int) : Value := .plain (.int n)

/-- A number that may be missing, as a value. -/
def Value.int? : Option Int → Value
  | some n => .int n
  | none => .plain .null

/-- A location as a record. -/
def Location.toValue (l : Location) : Value :=
  .record .sourceLocation [.int l.line, .int l.column, .int l.offset, .int l.endOffset,
    .int? l.endLine, .int? l.endColumn]

namespace Detail

/-- The type of the records of such findings. -/
def recordType : Detail → RecordType
  | division .. => .divisionMatch
  | power .. => .powerMatch
  | expression .. => .expressionMatch
  | summation .. => .summationMatch
  | mapping .. => .mappingMatch

/-- The texts by which something was recognised, in order. -/
def texts : Detail → List Text
  | division numerator denominator => [numerator, denominator]
  | power callee base exponent => [callee, base, exponent]
  | expression text => [text]
  | summation index lower upper accumulator term => [index, lower, upper, accumulator, term]
  | mapping index lower upper array subscript value =>
    [index, lower, upper, array, subscript, value]

/-- What was recognised, by the type and texts of its record. -/
def ofTexts? : RecordType → List Text → Option Detail
  | .divisionMatch, [a, b] => some (division a b)
  | .powerMatch, [a, b, c] => some (power a b c)
  | .expressionMatch, [a] => some (expression a)
  | .summationMatch, [a, b, c, d, e] => some (summation a b c d e)
  | .mappingMatch, [a, b, c, d, e, f] => some (mapping a b c d e f)
  | _, _ => none

end Detail

/-- A finding as a record. -/
def Finding.toValue (f : Finding) : Value :=
  .record f.detail.recordType
    (f.location.toValue :: .text f.typeset :: .text f.inlineText :: f.detail.texts.map .text)

namespace Value

/-- Findings as a tuple of records. -/
def ofFindings (fs : List Finding) : Value := .tuple (fs.map Finding.toValue)

/-- The number that a value is. -/
def toInt? : Value → Option Int
  | plain (.int n) => some n
  | _ => none

/-- The number that a value is, or nothing if it is null. -/
def toIntOrNull? : Value → Option (Option Int)
  | plain (.int n) => some (some n)
  | plain .null => some none
  | _ => none

/-- The text that a value is. -/
def toText? : Value → Option Text
  | plain (.str t) => some t
  | _ => none

/-- The location that a value is. -/
def toLocation? : Value → Option Location
  | record .sourceLocation [line, column, offset, endOffset, endLine, endColumn] => do
    return {
      line := ← line.toInt?
      column := ← column.toInt?
      offset := ← offset.toInt?
      endOffset := ← endOffset.toInt?
      endLine := ← endLine.toIntOrNull?
      endColumn := ← endColumn.toIntOrNull? }
  | _ => none

/-- The finding that a value is. -/
def toFinding? : Value → Option Finding
  | record type (location :: typeset :: inlineText :: texts) => do
    return {
      location := ← location.toLocation?
      typeset := ← typeset.toText?
      inlineText := ← inlineText.toText?
      detail := ← Detail.ofTexts? type (← texts.mapM toText?) }
  | _ => none

/-- The findings that a value is a tuple of. -/
def toFindings? : Value → Option (List Finding)
  | tuple items => items.mapM toFinding?
  | _ => none

end Value

end Gloss
