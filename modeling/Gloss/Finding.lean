import Gloss.Location
import Gloss.Formula

/-!
# Findings

A finding is a range of a source in which a detector recognised arithmetic, with both rendered
forms and the texts that the detector recognised it by. It holds for one state of its source.
-/

namespace Gloss

/-- What a detector recognised, as text. -/
inductive Detail where
  /-- One token divided by another. -/
  | division (numerator denominator : Text)
  /-- A call of a power function. -/
  | power (callee base exponent : Text)
  /-- An arithmetic expression. -/
  | expression (text : Text)
  /-- A counting loop that adds a term to an accumulator; the bounds are inclusive. -/
  | summation (index lower upper accumulator term : Text)
  /-- A counting loop that writes array elements; the bounds are inclusive. -/
  | mapping (index lower upper array subscript value : Text)
  deriving DecidableEq, Repr

/-- The name of the detector that recognises such a thing. -/
def Detail.kind : Detail → Text
  | division .. => "division".toList
  | power .. => "power".toList
  | expression .. => "expression".toList
  | summation .. => "summation".toList
  | mapping .. => "mapping".toList

/-- Recognised arithmetic in a source. -/
structure Finding where
  /-- Its range in the source. -/
  location : Location
  /-- Its markup for a typesetter. -/
  typeset : Text
  /-- Its compact form. -/
  inlineText : Text
  /-- What it was recognised by. -/
  detail : Detail
  deriving DecidableEq, Repr

namespace Finding

/-- The offset of the first character. -/
def start (f : Finding) : Int := f.location.offset

/-- The offset just past the last character. -/
def stop (f : Finding) : Int := f.location.endOffset

/-- Whether two findings share a character. -/
def overlaps (a b : Finding) : Bool := a.location.overlaps b.location

/-- One line that names a finding's kind, range and inline form. -/
def summary (f : Finding) : Text :=
  f.detail.kind ++ ' ' :: Text.ofInt f.start ++ '-' :: Text.ofInt f.stop ++ ' ' :: f.inlineText

end Finding

end Gloss
