import Gloss.Text.Bracket

/-!
# Expressions

The tree of an arithmetic expression. Numbers and names keep their source spelling, a group
keeps the bracket it was written with, and a `raw` leaf holds text that has no structure of
its own but stands where an operand is required.

The grammar produces only the two signs and four operators that have constructors here.
Trees that reach the library from outside may hold further ones; these are kept as `other`.
-/

namespace Gloss

/-- The sign in front of an operand. -/
inductive Sign where
  /-- `+` -/
  | plus
  /-- `-` -/
  | minus
  /-- Any other symbol. -/
  | other (symbol : Text)
  deriving DecidableEq, Repr

/-- The operator between two operands. -/
inductive Operator where
  /-- `+` -/
  | add
  /-- `-` -/
  | sub
  /-- `*` -/
  | mul
  /-- `/` -/
  | div
  /-- Any other symbol. -/
  | other (symbol : Text)
  deriving DecidableEq, Repr

/-- The brackets that can group an expression. -/
inductive Fence where
  /-- `(` and `)` -/
  | paren
  /-- `{` and `}` -/
  | brace
  deriving DecidableEq, Repr

namespace Sign

/-- How a sign is written. -/
def symbol : Sign → Text
  | plus => ['+']
  | minus => ['-']
  | other symbol => symbol

/-- The sign written as `symbol`. -/
def ofSymbol : (symbol : Text) → Sign
  | ['+'] => plus
  | ['-'] => minus
  | symbol => other symbol

/-- The sign that a character is, if it is one. -/
def ofChar? : Char → Option Sign
  | '+' => some plus
  | '-' => some minus
  | _ => none

end Sign

namespace Operator

/-- How an operator is written. -/
def symbol : Operator → Text
  | add => ['+']
  | sub => ['-']
  | mul => ['*']
  | div => ['/']
  | other symbol => symbol

/-- The operator written as `symbol`. -/
def ofSymbol : (symbol : Text) → Operator
  | ['+'] => add
  | ['-'] => sub
  | ['*'] => mul
  | ['/'] => div
  | symbol => other symbol

/-- The operator between terms that a character is, if it is one. -/
def additive? : Char → Option Operator
  | '+' => some add
  | '-' => some sub
  | _ => none

/-- The operator between factors that a character is, if it is one. -/
def multiplicative? : Char → Option Operator
  | '*' => some mul
  | '/' => some div
  | _ => none

/-- Whether an operator stands between terms rather than factors. -/
def isAdditive : Operator → Bool
  | add | sub => true
  | mul | div | other _ => false

end Operator

namespace Fence

/-- The bracket kind of a fence. -/
def bracket : Fence → Bracket
  | paren => .paren
  | brace => .brace

end Fence

/-- An arithmetic expression. -/
inductive Expr where
  /-- A decimal numeral, as written. -/
  | number (digits : Text)
  /-- A name, possibly dotted. -/
  | identifier (name : Text)
  /-- Text without structure. -/
  | raw (text : Text)
  /-- An expression in brackets. -/
  | group (fence : Fence) (inner : Expr)
  /-- A signed operand. -/
  | unary (sign : Sign) (operand : Expr)
  /-- Two operands joined by an operator. -/
  | binary (op : Operator) (left right : Expr)
  /-- A dotted name selected from an indexed or called object. -/
  | member (object : Expr) (name : Text)
  /-- An element of an object. -/
  | index (object subscript : Expr)
  /-- A call with its arguments. -/
  | call (callee : Expr) (args : List Expr)
  /-- The keyword `new` and a type, without an argument list. -/
  | construct (type : Expr)
  /-- The keyword `new` and a type with its arguments, of which there may be none. -/
  | constructWith (type : Expr) (args : List Expr)
  deriving Repr

namespace Expr

mutual

/-- The number of nodes of an expression. -/
def size : Expr → Nat
  | number _ | identifier _ | raw _ => 1
  | group _ e | unary _ e | member e _ | construct e => e.size + 1
  | binary _ l r | index l r => l.size + r.size + 1
  | call f args | constructWith f args => f.size + sizes args + 1

/-- The number of nodes of several expressions together. -/
def sizes : List Expr → Nat
  | [] => 0
  | e :: es => e.size + sizes es

end

mutual

/-- Whether two operands are joined anywhere in an expression. -/
def hasOperator : Expr → Bool
  | binary .. => true
  | number _ | identifier _ | raw _ => false
  | group _ e | unary _ e | member e _ | construct e => e.hasOperator
  | index l r => l.hasOperator || r.hasOperator
  | call f args | constructWith f args => f.hasOperator || anyHasOperator args

/-- Whether two operands are joined anywhere in one of several expressions. -/
def anyHasOperator : List Expr → Bool
  | [] => false
  | e :: es => e.hasOperator || anyHasOperator es

end

/-- How strongly the root of an expression binds: sums least, then products, then signed
operands, then all else. -/
def precedence : Expr → Nat
  | binary op _ _ => if op.isAdditive then 10 else 20
  | unary .. => 30
  | _ => 40

/-- Whether an expression is nothing but a call or a construction. -/
def isInvocation : Expr → Bool
  | call .. | construct _ | constructWith .. => true
  | _ => false

mutual

/-- Structural equality of expressions. -/
def beq : Expr → Expr → Bool
  | number a, number b | identifier a, identifier b | raw a, raw b => a == b
  | group f a, group g b => f == g && a.beq b
  | unary s a, unary t b => s == t && a.beq b
  | binary o a b, binary p c d => o == p && a.beq c && b.beq d
  | member a m, member b n => a.beq b && m == n
  | index a b, index c d => a.beq c && b.beq d
  | call a as, call b bs | constructWith a as, constructWith b bs => a.beq b && beqs as bs
  | construct a, construct b => a.beq b
  | _, _ => false

/-- Structural equality of lists of expressions. -/
def beqs : List Expr → List Expr → Bool
  | [], [] => true
  | a :: as, b :: bs => a.beq b && beqs as bs
  | _, _ => false

end

mutual

/-- Structural equality is equality. -/
theorem beq_iff : (a b : Expr) → (a.beq b = true ↔ a = b)
  | number a, b => by cases b <;> simp [beq]
  | identifier a, b => by cases b <;> simp [beq]
  | raw a, b => by cases b <;> simp [beq]
  | group f a, b => by cases b <;> simp [beq, beq_iff a]
  | unary s a, b => by cases b <;> simp [beq, beq_iff a]
  | binary o l r, b => by cases b <;> simp [beq, beq_iff l, beq_iff r, and_assoc]
  | member a m, b => by cases b <;> simp [beq, beq_iff a]
  | index l r, b => by cases b <;> simp [beq, beq_iff l, beq_iff r]
  | call f args, b => by cases b <;> simp [beq, beq_iff f, beqs_iff args]
  | construct a, b => by cases b <;> simp [beq, beq_iff a]
  | constructWith f args, b => by cases b <;> simp [beq, beq_iff f, beqs_iff args]

/-- Structural equality of lists is equality. -/
theorem beqs_iff : (as bs : List Expr) → (beqs as bs = true ↔ as = bs)
  | [], bs => by cases bs <;> simp [beqs]
  | a :: as, bs => by cases bs <;> simp [beqs, beq_iff a, beqs_iff as]

end

instance : DecidableEq Expr := fun a b => decidable_of_iff _ (beq_iff a b)

end Expr

end Gloss
