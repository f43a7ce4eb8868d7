import Gloss.Detect.Basic

/-!
# Counting loops

A counting loop is a `for` statement whose variable goes up by one from a lower bound while it
is below, or at most, an upper one. Only unit steps are accepted, for only then is the last
value of the variable the upper bound, or that bound minus one.

Searches for loops say through `extract` which loops they accept. An accepted loop is left
behind whole; of a rejected one only the header is, so loops inside it are still found.
-/

namespace Gloss

/-- The variable of a loop and its inclusive bounds, as text. -/
structure LoopHeader where
  /-- The loop variable. -/
  index : Text
  /-- The first value. -/
  lower : Text
  /-- The last value. -/
  upper : Text
  deriving DecidableEq, Repr

/-- A counting loop. -/
structure CountingLoop where
  /-- Variable and bounds. -/
  header : LoopHeader
  /-- What is repeated: the inside of a block, or one statement with its semicolon. -/
  body : Text
  /-- The number of characters from the keyword to the end of the body. -/
  length : Nat
  deriving DecidableEq, Repr

namespace Loop

/-- The type names that may stand before a loop variable. -/
def typeNames : List Text :=
  ["var".toList, "let".toList, "const".toList, "int".toList, "long".toList, "size_t".toList,
    "auto".toList]

/-- What follows an equals sign that is not doubled, layout before it aside. -/
def afterEquals? (t : Text) : Option Text :=
  match t.skipLayout with
  | '=' :: u => if u.head? = some '=' then none else some u
  | _ => none

/-- An identifier that is assigned to, and what follows the equals sign. -/
def takeTarget? (t : Text) : Option (Text × Text) := do
  let (name, rest) ← Text.takeIdent? t
  let rest ← afterEquals? rest
  return (name, rest)

/-- A loop variable and the text it starts from. A type name may stand before the variable; it
need not be a word of its own. -/
def initialised? (t : Text) : Option (Text × Text) :=
  let behindType := (typeNames.findSome? fun name => Text.after? name t).bind fun u =>
    takeTarget? (Text.skipLayout u)
  match behindType.or (takeTarget? t.skipLayout) with
  | some (name, c :: t) => some (name, Text.trim (c :: t))
  | _ => none

/-- The upper bound out of a condition on the loop variable. A strict one ends one earlier. -/
def upperBound? (index condition : Text) : Option Text := do
  let rest ← Text.after? index condition
  let (strict, bound) ← match Text.skipLayout rest with
    | '<' :: '=' :: u => some (false, u)
    | '<' :: u => some (true, u)
    | _ => none
  match bound with
  | [] => none
  | c :: _ =>
    if c = '<' || c = '=' then none
    else some (if strict then Text.trim bound ++ " - 1".toList else Text.trim bound)

/-- Whether an update adds one to the loop variable. -/
def isUnitStep (index update : Text) : Bool :=
  (Text.after? ['+', '+'] update).any (fun t => Text.skipLayout t = index) ||
  (Text.after? index update).any fun t =>
    let t := Text.skipLayout t
    t = ['+', '+'] ||
    (Text.after? ['+', '='] t).any (fun u => Text.skipLayout u = ['1']) ||
    (Text.after? ['='] t).any fun u =>
      (Text.after? index (Text.skipLayout u)).any fun u =>
        (Text.after? ['+'] (Text.skipLayout u)).any fun u => Text.skipLayout u = ['1']

/-- The variable and bounds out of what stands between the parentheses of a loop. -/
def readHeader? (header : Text) : Option LoopHeader :=
  match Text.splitAt ';' header with
  | initial :: condition :: update :: _ =>
    let initial := Text.trim initial
    if ',' ∈ initial then none
    else do
      let (index, lower) ← Text.firstAtBoundary? initialised? none initial
      let upper ← upperBound? index (Text.trim condition)
      if isUnitStep index (Text.trim update) then some { index, lower, upper } else none
  | _ => none

/-- The body of a loop, from behind its header, and what follows it. -/
def takeBody? (t : Text) : Option (Text × Text) :=
  match t.skipBlanks with
  | [] => none
  | '{' :: u => Bracket.brace.close? 0 u
  | u =>
    match Text.breakAt ';' u with
    | (statement, some rest) => some (statement ++ [';'], rest)
    | (_, none) => none

/-- A loop that a search was offered, and what it made of it. -/
abbrev Offer (α : Type) := CountingLoop × Option α

/-- Recognises a counting loop. -/
def recognise {α : Type} (extract : CountingLoop → Option α) : Recogniser (Offer α) :=
  fun prev t =>
    match Text.after? ['f', 'o', 'r'] t with
    | none => none
    | some t' =>
      if prev.any isIdentPart || t'.head?.any isIdentPart then some (none, t')
      else
        match Text.skipBlanks t' with
        | '(' :: u =>
          match Bracket.paren.close? 0 u with
          | none => some (none, t')
          | some (inside, rest) =>
            match readHeader? inside, takeBody? rest with
            | some header, some (body, behind) =>
              let loop := { header, body, length := t.length - behind.length }
              let payload := extract loop
              some (some (loop, payload), if payload.isSome then behind else rest)
            | _, _ => some (none, rest)
        | _ => some (none, t')

/-- The counting loops of a masked text that a search is offered, with the offsets at which
they start. -/
def offered {α : Type} (extract : CountingLoop → Option α) (masked : Text) :
    List (Nat × Offer α) :=
  (Text.occurrences (recognise extract) masked).map fun o => (o.start, o.value)

/-- The counting loops of a masked text that a search accepts, with the offsets at which they
start and what the search made of them. -/
def accepted {α : Type} (extract : CountingLoop → Option α) (masked : Text) :
    List (Nat × CountingLoop × α) :=
  (offered extract masked).filterMap fun (start, loop, payload) =>
    payload.map fun value => (start, loop, value)

end Loop

end Gloss
