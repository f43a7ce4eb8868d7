import Gloss.Detect.Basic
import Gloss.Expr.Parser

/-!
# Arithmetic expressions

An expression is read from every token that can begin one. It is reported if it has an
operator, is not merely a call or a construction, and ends where a token ends. An expression
without an operator is passed over as a whole, so that its parts are not read again; all
others are tried again one character further, which finds the sum inside `f(a + b)`.
-/

namespace Gloss.Arithmetic

/-- Recognises an expression with an operator. -/
def recognise : Recogniser Expr := fun prev t =>
  if !t.head?.any isExprStart || !isTokenEdge prev then none
  else
    match Expr.parseFront? t with
    | none => none
    | some (e, rest) =>
      let span := t.take (t.length - rest.length)
      let shown := Text.dropEndWhile isBlank span
      let behind := t.drop shown.length
      if xorSign ∈ span || e.isInvocation || shown.isEmpty || !isTokenEdge behind.head? then none
      else some (if e.hasOperator then some e else none, behind)

/-- The finding of an expression. -/
def finding (ix : LineIndex) (source : Text) (o : Occurrence Expr) : Finding :=
  { location := ix.location o.start o.stop
    typeset := o.value.typeset
    inlineText := o.value.inlineText
    detail := .expression (source.slice o.start o.stop) }

/-- The first `limit` expressions in a source. -/
def find (limit : Nat) (source masked : Text) : List Finding :=
  (Text.firstOccurrences recognise limit masked).map (finding (LineIndex.ofText source) source)

/-- The logger of the search for expressions. -/
def logger : Text := LogRecord.root ++ ".detectors.expressions".toList

/-- The note that a search ended early, with the offset behind its last finding. -/
def limitNote (limit : Nat) (findings : List Finding) : List LogRecord :=
  match findings.getLast? with
  | some last =>
    if limit ≤ findings.length then
      [⟨logger, "expression match limit ".toList ++ Text.ofNat limit ++
        " reached at offset ".toList ++ Text.ofInt last.stop⟩]
    else []
  | none => []

/-- The detector of arithmetic expressions. -/
def detector : Detector where
  name := "expression".toList
  run config source masked :=
    let limit := config.maxExpressions.toNat
    let findings := find limit source masked
    { findings, log := limitNote limit findings }

end Gloss.Arithmetic
