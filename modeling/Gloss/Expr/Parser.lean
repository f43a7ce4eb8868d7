import Gloss.Expr.Basic
import Gloss.Text.Word

/-!
# Reading expressions

The grammar, from the weakest binding to the strongest:

    sum      a product, then any number of `+` or `-` and a product
    product  an operand, then any number of `*` or `/` and an operand
    operand  any number of signs, then a primary
    primary  `new` and a name, with or without arguments in parentheses
             a sum in parentheses or braces
             a number
             a name, then any number of `.` and a name, `[ subscript ]`, `( arguments )`

A rule reads from the front of a text and sees all that follows it, so brackets are matched
over the whole rest. Subscripts and arguments are texts of their own: each is read as a whole
expression, or kept as a raw leaf where it is none.

Reading is bounded twice. Brackets nest at most `maxDepth` deep; `room` counts what is left.
A tree has at most `maxNodes` nodes; `budget` counts what is left, and each rule pays for the
nodes it makes. Running out of the budget is no mere mismatch: it ends the reading of the whole
text, whereas a mismatch inside an argument makes that argument raw.
-/

namespace Gloss

/-- The deepest nesting of brackets that is read. -/
def maxDepth : Nat := 48

/-- The most nodes that a tree may have. -/
def maxNodes : Nat := 4 * maxDepth

/-- The character that no expression may contain: exclusive or is not arithmetic here, and
must not pass for a power. -/
def xorSign : Char := '^'

namespace Grammar

/-- What a rule finds at the front of a text. -/
inductive Outcome (α : Type) where
  /-- A value, the text behind it and the nodes that may still be made. -/
  | parsed (value : α) (rest : Text) (budget : Nat)
  /-- Nothing of the wanted form. -/
  | mismatch
  /-- More nodes than a tree may have. -/
  | overflow
  deriving DecidableEq, Repr

namespace Outcome

variable {α β : Type}

/-- Goes on behind what was parsed. -/
def andThen (o : Outcome α) (next : α → Text → Nat → Outcome β) : Outcome β :=
  match o with
  | parsed value rest budget => next value rest budget
  | mismatch => mismatch
  | overflow => overflow

/-- A value whose making costs `nodes`. -/
def charge (nodes : Nat) (value : α) (rest : Text) (budget : Nat) : Outcome α :=
  if nodes ≤ budget then parsed value rest (budget - nodes) else overflow

end Outcome

open Outcome

/-- A rule reads an expression from the front of a text within a budget. -/
abbrev Rule := Text → (budget : Nat) → Outcome Expr

/-- The dotted name at the front of a text, its segments joined without blanks, and the
rest. -/
def takeName? (t : Text) : Option (Text × Text) :=
  (Text.takeDotted? isBlank t).map fun (segments, rest) => (Text.join ['.'] segments, rest)

/-- What follows the keyword `new` at the front of a text. -/
def afterNew? (t : Text) : Option Text :=
  (Text.after? ['n', 'e', 'w'] t).filter fun u => !u.head?.any isIdentPart

/-- What the parentheses enclose that a text begins with, blanks aside, and what follows. -/
def takeParens? (t : Text) : Option (Text × Text) :=
  match t.skipBlanks with
  | '(' :: u => Bracket.paren.close? 0 u
  | _ => none

/-- A whole text as an expression, or as a raw leaf where it is none. The result carries the
budget left; there is none after an overflow. -/
def readWhole (nested : Rule) (t : Text) (budget : Nat) : Option (Expr × Nat) :=
  let asRaw := if 1 ≤ budget then some (Expr.raw t, budget - 1) else none
  if xorSign ∈ t then asRaw
  else match nested t budget with
    | parsed e rest left => if rest.skipBlanks = [] then some (e, left) else asRaw
    | mismatch => asRaw
    | overflow => none

/-- Several whole texts, each as an expression or as a raw leaf. -/
def readEach (nested : Rule) : List Text → (budget : Nat) → Option (List Expr × Nat)
  | [], budget => some ([], budget)
  | t :: ts, budget =>
    (readWhole nested t budget).bind fun (e, left) =>
      (readEach nested ts left).map fun (es, left) => (e :: es, left)

/-- The arguments that a text between parentheses lists. -/
def readArgs (nested : Rule) (inside : Text) (budget : Nat) : Option (List Expr × Nat) :=
  readEach nested (Text.splitTopLevel [','] inside) budget

/-- What may follow a name: selections, subscripts and argument lists. Each step makes a node,
so `fuel` above the budget is never used up. A bracket that is never closed and a dot without
a name end the expression. -/
def trailers (nested : Rule) : (fuel : Nat) → Expr → Rule
  | 0, _, _, _ => overflow
  | fuel + 1, e, t, budget =>
    match t.skipBlanks with
    | '.' :: u =>
      match takeName? (Text.skipBlanks u) with
      | some (name, rest) =>
        (charge 1 (Expr.member e name) rest budget).andThen (trailers nested fuel)
      | none => parsed e ('.' :: u) budget
    | '[' :: u =>
      match Bracket.square.close? 0 u with
      | some (inside, rest) =>
        match readWhole nested inside.trim budget with
        | some (subscript, left) =>
          (charge 1 (Expr.index e subscript) rest left).andThen (trailers nested fuel)
        | none => overflow
      | none => parsed e ('[' :: u) budget
    | '(' :: u =>
      match Bracket.paren.close? 0 u with
      | some (inside, rest) =>
        match readArgs nested inside budget with
        | some (args, left) =>
          (charge 1 (Expr.call e args) rest left).andThen (trailers nested fuel)
        | none => overflow
      | none => parsed e ('(' :: u) budget
    | u => parsed e u budget

/-- A construction: `new`, a name and, if they are closed, arguments in parentheses. There is
no outcome where no name follows the keyword, which is then a name itself. -/
def construction? (nested : Rule) (t : Text) (budget : Nat) : Option (Outcome Expr) :=
  ((afterNew? t).bind fun u => takeName? u.skipBlanks).map fun (name, rest) =>
    match takeParens? rest with
    | some (inside, rest) =>
      match readArgs nested inside budget with
      | some (args, left) => charge 2 (Expr.constructWith (.identifier name) args) rest left
      | none => overflow
    | none => charge 2 (Expr.construct (.identifier name)) rest budget

/-- An expression in brackets, from behind the opening one. -/
def group (nested : Rule) (fence : Fence) : Rule := fun t budget =>
  (nested t budget).andThen fun e rest budget =>
    match rest.skipBlanks with
    | c :: u =>
      if c = fence.bracket.closer then charge 1 (Expr.group fence e) u budget else mismatch
    | [] => mismatch

/-- A number, or a name with what follows it. -/
def atom (nested : Rule) : Rule := fun t budget =>
  match Text.takeNumber? t with
  | some (digits, rest) => charge 1 (Expr.number digits) rest budget
  | none =>
    match takeName? t with
    | some (name, rest) =>
      (charge 1 (Expr.identifier name) rest budget).andThen fun e rest budget =>
        trailers nested (budget + 1) e rest budget
    | none => mismatch

/-- A primary, in a text without leading blanks. -/
def primary (nested : Rule) : Rule := fun t budget =>
  match construction? nested t budget with
  | some outcome => outcome
  | none =>
    match t with
    | '(' :: u => group nested .paren u budget
    | '{' :: u => group nested .brace u budget
    | _ => atom nested t budget

/-- The signs at the front of a text, outermost first, and the text behind them and the
blanks around them. -/
def signs : Text → (budget : Nat) → Outcome (List Sign)
  | [], budget => parsed [] [] budget
  | c :: t, budget =>
    if isBlank c then signs t budget
    else match Sign.ofChar? c with
      | none => parsed [] (c :: t) budget
      | some sign =>
        match budget with
        | 0 => overflow
        | budget + 1 =>
          (signs t budget).andThen fun more rest budget => parsed (sign :: more) rest budget

/-- An operand: signs and a primary. -/
def operand (nested : Rule) : Rule := fun t budget =>
  (signs t budget).andThen fun ss rest budget =>
    (primary nested rest budget).andThen fun e rest budget =>
      parsed (ss.foldr Expr.unary e) rest budget

/-- What may follow a left operand: any number of operators that `level?` admits, each with a
right operand read by `item`. The chain associates to the left. Each step makes a node, so
`fuel` above the budget is never used up. -/
def chain (level? : Char → Option Operator) (item : Rule) : (fuel : Nat) → Expr → Rule
  | 0, _, _, _ => overflow
  | fuel + 1, left, t, budget =>
    match t.skipBlanks with
    | [] => parsed left [] budget
    | c :: u =>
      match level? c with
      | none => parsed left (c :: u) budget
      | some op =>
        (item u budget).andThen fun right rest budget =>
          (charge 1 (Expr.binary op left right) rest budget).andThen (chain level? item fuel)

/-- A chain with its first operand. -/
def chained (level? : Char → Option Operator) (item : Rule) : Rule := fun t budget =>
  (item t budget).andThen fun left rest budget => chain level? item (budget + 1) left rest budget

/-- A product of operands. -/
def product (nested : Rule) : Rule := chained Operator.multiplicative? (operand nested)

/-- A sum of products. -/
def sum (nested : Rule) : Rule := chained Operator.additive? (product nested)

/-- An expression that may itself nest brackets up to `room - 1` deep. -/
def expression : (room : Nat) → Rule
  | 0 => fun _ _ => mismatch
  | room + 1 => sum (expression room)

end Grammar

namespace Expr

open Grammar Outcome

/-- The expression that a text begins with, and the text behind it and the blanks that
follow it. -/
def parseFront? (t : Text) : Option (Expr × Text) :=
  match expression (maxDepth + 1) t maxNodes with
  | parsed e rest _ => some (e, rest)
  | mismatch | overflow => none

/-- A whole text as one expression. Blanks at its ends are allowed; an exclusive or is not. -/
def parse? (t : Text) : Option Expr :=
  if xorSign ∈ t then none
  else (parseFront? t).bind fun (e, rest) => if rest.skipBlanks = [] then some e else none

/-- A whole text as one expression, or as a raw leaf where it is none. -/
def parseOrRaw (t : Text) : Expr := (parse? t).getD (raw t)

/-- The longest expression that begins at offset `start`, and the offset just past it and the
blanks that follow it. There is none where an exclusive or stands in between. -/
def parseAt? (t : Text) (start : Nat) : Option (Expr × Nat) :=
  (parseFront? (t.drop start)).bind fun (e, rest) =>
    let stop := t.length - rest.length
    if xorSign ∈ t.slice start stop then none else some (e, stop)

end Expr

end Gloss
